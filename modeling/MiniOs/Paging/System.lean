import MiniOs.Lib.Run
import MiniOs.Paging.Effects

/-!
# System — processes that share RAM and the active swap device

A process is its break pointer and its `mm_struct`; a call runs with the devices of the system and
leaves them to the next.  Every call is one step.  `finish` is the end of a process in
`cpu_routine`, which frees the PCB and nothing else.
-/

namespace MiniOs

/-- What a process owns of the paged memory. -/
structure ProcMem where
  bp : Addr
  mm : Mm

/-- The two devices and the processes in the order of their creation, `none` when finished. -/
structure PagingSys where
  mram : Memphy
  activeMswp : Memphy
  procs : List (Option ProcMem)

namespace PagingSys

/-- The system after `init_memphy` of both devices. -/
def start (ramsz swpsz : Nat) (ramflg swpflg : Bool) : PagingSys where
  mram := .create ramsz ramflg
  activeMswp := .create swpsz swpflg
  procs := []

/-- The unfinished process `p` as a caller. -/
def caller (s : PagingSys) (p : Nat) : Option Caller :=
  s.procs[p]?.join.map fun pm => ⟨pm.bp, pm.mm, s.mram, s.activeMswp⟩

/-- Process `p` and the devices after a call. -/
def setCaller (s : PagingSys) (p : Nat) (c : Caller) : PagingSys where
  mram := c.mram
  activeMswp := c.activeMswp
  procs := s.procs.set p (some ⟨c.bp, c.mm⟩)

/-- A process as `load` and `init_mm` set it up, on storage filled with zeros. -/
def loaded : ProcMem := ⟨pageSize, Mm.initMm Mm.zeroed⟩

inductive Op
  | initMm
  | liballoc (p : Nat) (size regIndex : Addr)
  | libfree (p : Nat) (regIndex : Addr)
  | libread (p : Nat) (source offset destination : Addr)
  | libwrite (p : Nat) (data : Byte) (destination offset : Addr)
  | incVmaLimit (p : Nat) (vmaid incSz : Addr)
  | finish (p : Nat)

/-- A call of an unfinished process. -/
def onProc (s : PagingSys) (p : Nat) (f : Caller → Option (Int × Caller)) :
    Option (Int × PagingSys) :=
  (s.caller p).bind fun c => (f c).map fun (ret, c) => (ret, s.setCaller p c)

/-- The return value of a call and the system after it. -/
def perform (s : PagingSys) : Op → Option (Int × PagingSys)
  | .initMm => some (0, { s with procs := s.procs ++ [some loaded] })
  | .liballoc p size regIndex => s.onProc p fun c => c.liballoc size regIndex
  | .libfree p regIndex => s.onProc p fun c => c.libfree regIndex
  | .libread p source offset destination => s.onProc p fun c =>
      (c.libread source offset destination).map fun ((val, _), c) => (val, c)
  | .libwrite p data destination offset => s.onProc p fun c => c.libwrite data destination offset
  | .incVmaLimit p vmaid incSz => s.onProc p fun c => some (c.incVmaLimit vmaid incSz)
  | .finish p => (s.caller p).map fun _ => (0, { s with procs := s.procs.set p none })

def exec (s : PagingSys) (op : Op) : Option PagingSys := (s.perform op).map Prod.snd

/-- The calls that are made: `init_mm`, and those of processes that are not finished. -/
def Calls (s : PagingSys) : Op → Prop
  | .initMm => True
  | .liballoc p _ _ | .libfree p _ | .libread p _ _ _ | .libwrite p _ _ _ | .incVmaLimit p _ _
  | .finish p => ∃ c, s.caller p = some c

theorem onProc_eq {s s' : PagingSys} {p : Nat} {f : Caller → Option (Int × Caller)} {ret : Int}
    (h : s.onProc p f = some (ret, s')) :
    ∃ c c', s.caller p = some c ∧ f c = some (ret, c') ∧ s' = s.setCaller p c' := by
  rcases Option.bind_eq_some_iff.1 h with ⟨c, hc, hf⟩
  rcases Option.map_eq_some_iff.1 hf with ⟨⟨ret', c'⟩, hcall, heq⟩
  obtain ⟨rfl, rfl⟩ := Prod.mk.inj heq
  exact ⟨c, c', hc, hcall, rfl⟩

/-- The page directories of the unfinished processes. -/
def directory (s : PagingSys) (p : Nat) : Option (Fin pagingMaxPgn → Addr) :=
  s.procs[p]?.join.map fun pm => pm.mm.pgd

theorem caller_spec {s : PagingSys} {p : Nat} {c : Caller} (h : s.caller p = some c) :
    p < s.procs.length ∧ s.directory p = some c.mm.pgd ∧ c.mram = s.mram ∧
      c.activeMswp = s.activeMswp := by
  rcases Option.map_eq_some_iff.1 h with ⟨pm, hpm, rfl⟩
  refine ⟨?_, by simp [directory, hpm], rfl, rfl⟩
  -- behind the end of the list there is no caller
  by_contra hlen
  rw [List.getElem?_eq_none (Nat.le_of_not_lt hlen)] at hpm
  cases hpm

theorem directory_setCaller {s : PagingSys} {p : Nat} (hp : p < s.procs.length)
    (c' : Caller) :
    (s.setCaller p c').directory = Function.update s.directory p (some c'.mm.pgd) := by
  funext q
  by_cases hq : q = p
  · subst hq
    simp [directory, setCaller, hp]
  · simp [directory, setCaller, List.getElem?_set_ne (Ne.symm hq), Function.update_of_ne hq]

end PagingSys
end MiniOs
