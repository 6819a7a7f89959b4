import MiniOs.Lib.Fifo
import MiniOs.Lib.Run
import MiniOs.Paging.Libmem

/-!
# Replacement — the order in which pages are evicted

Pages should leave in the order in which they were mapped.  `enlist_pgn_node` puts a page at the
front of the list, from which `find_victim_page` takes, and `vmap_page_range` enlists one page
for each call, however many it maps.
-/

namespace MiniOs

open Lib

/-! ## The account -/

/-- A caller, the pages that have been mapped, and those of them that have not been evicted, the
earliest first. -/
structure PageUse where
  c : Caller
  mapped : List (Fin pagingMaxPgn)
  waiting : List (Fin pagingMaxPgn)

namespace PageUse

/-- The pages that `vmap_page_range` maps: the loop ends with the range or with the frames. -/
def rangePages (addr pgnum : Addr) (frames : List Nat) : List (Fin pagingMaxPgn) :=
  (List.range (min pgnum.toInt.toNat frames.length)).map fun i =>
    pagingPgn (addr + BitVec.ofNat 32 i * pagingPagesz)

inductive Op
  | vmapPageRange (addr pgnum : Addr) (frames : List Nat)
  | findVictimPage

/-- One call; a range is mapped only if its pages are different and were not mapped before. -/
def exec (st : PageUse) : Op → Option PageUse
  | .vmapPageRange addr pgnum frames =>
      if (st.mapped ++ rangePages addr pgnum frames).Nodup then
        some ⟨{ st.c with mm := (st.c.mm.vmapPageRange addr pgnum frames).2 },
          st.mapped ++ rangePages addr pgnum frames, st.waiting ++ rangePages addr pgnum frames⟩
      else none
  | .findVictimPage =>
      match st.c.findVictimPage with
      | none => some st
      | some (pgn, c) => some ⟨c, st.mapped, st.waiting.erase pgn⟩

/-- A process with an empty list. -/
def start (c : Caller) : PageUse := ⟨{ c with mm := { c.mm with fifoPgn := [] } }, [], []⟩

/-- Calls of `find_victim_page` return the waiting pages, each once and the earliest first, and then
-1. -/
def Evicts (st : PageUse) : Prop :=
  ∀ n, takes Caller.findVictimPage n st.c = front n st.waiting

/-- A range is one page, and is mapped when no page is waiting. -/
def OneByOne (st : PageUse) : Op → Prop
  | .vmapPageRange addr pgnum frames =>
      (rangePages addr pgnum frames).length = 1 ∧ st.waiting = []
  | .findVictimPage => True

/-! ## The list -/

theorem takes_findVictimPage (c : Caller) (n : ℕ) :
    takes Caller.findVictimPage n c = front n c.mm.fifoPgn := by
  apply takes_eq fun c : Caller => c.mm.fifoPgn
  · intro c hnil
    simp [Caller.findVictimPage, hnil]
  · intro c pgn rest hcons
    exact ⟨{ c with mm := { c.mm with fifoPgn := rest } },
      by simp [Caller.findVictimPage, hcons], rfl⟩

/-- The waiting pages are evicted in order exactly when they are the list. -/
theorem evicts_iff (st : PageUse) : st.Evicts ↔ st.c.mm.fifoPgn = st.waiting := by
  constructor
  · intro h
    exact front_injective fun n => (takes_findVictimPage st.c n).symm.trans (h n)
  · intro h n
    rw [takes_findVictimPage, h]

/-- The invariant: the list is the waiting pages, all of which were mapped. -/
structure Listed (st : PageUse) : Prop where
  list : st.c.mm.fifoPgn = st.waiting
  mapped : ∀ pgn ∈ st.waiting, pgn ∈ st.mapped

theorem Listed.evicts {st : PageUse} (h : st.Listed) : st.Evicts := (evicts_iff st).2 h.list

theorem start_listed (c : Caller) : (start c).Listed := ⟨rfl, by simp [start]⟩

/-- The first page of a range that is not empty. -/
theorem rangePages_one {addr pgnum : Addr} {frames : List Nat}
    (h : (rangePages addr pgnum frames).length = 1) :
    rangePages addr pgnum frames = [pagingPgn addr] := by
  have hmin : min pgnum.toInt.toNat frames.length = 1 := by simpa [rangePages] using h
  simp [rangePages, hmin]

/-! ## Steps -/

theorem exec_findVictimPage {st st' : PageUse} (h : st.Listed)
    (hstep : st.exec .findVictimPage = some st') : st'.Listed := by
  cases hfifo : st.c.mm.fifoPgn with
  | nil =>
      simp only [exec, Caller.findVictimPage, hfifo, Option.some.injEq] at hstep
      exact hstep ▸ h
  | cons pgn rest =>
      have hwaiting : st.waiting = pgn :: rest := h.list.symm.trans hfifo
      simp only [exec, Caller.findVictimPage, hfifo, hwaiting, List.erase_cons_head,
        Option.some.injEq] at hstep
      subst hstep
      refine ⟨rfl, fun q hq => h.mapped q ?_⟩
      rw [hwaiting]
      exact List.mem_cons_of_mem pgn hq

theorem exec_vmapPageRange {st st' : PageUse} {addr pgnum : Addr} {frames : List Nat}
    (hstep : st.exec (.vmapPageRange addr pgnum frames) = some st') :
    (∀ pgn ∈ rangePages addr pgnum frames, pgn ∉ st.mapped) ∧
      st'.c.mm.fifoPgn = pagingPgn addr :: st.c.mm.fifoPgn ∧
      st'.waiting = st.waiting ++ rangePages addr pgnum frames ∧
      st'.mapped = st.mapped ++ rangePages addr pgnum frames := by
  simp only [exec] at hstep
  split at hstep
  · rename_i hnew
    obtain rfl := Option.some.inj hstep
    refine ⟨fun pgn hpgn hmapped => ?_, rfl, rfl, rfl⟩
    exact List.disjoint_of_nodup_append hnew hmapped hpgn
  · cases hstep

theorem exec_listed {st st' : PageUse} {op : Op} (h : st.Listed) (hstep : st.exec op = some st')
    (hok : st.OneByOne op) : st'.Listed := by
  cases op with
  | findVictimPage => exact exec_findVictimPage h hstep
  | vmapPageRange addr pgnum frames =>
      rcases exec_vmapPageRange hstep with ⟨_, hfifo, hwaiting, hmapped⟩
      have hone := rangePages_one hok.1
      refine ⟨?_, ?_⟩
      · rw [hfifo, hwaiting, h.list, hok.2, hone]
        rfl
      · rw [hwaiting, hmapped, hok.2, hone]
        intro pgn hpgn
        exact List.mem_append_right _ hpgn

/-- Step lemma: any other mapping leaves a list that is not the waiting pages. -/
theorem exec_not_evicts {st st' : PageUse} {op : Op} (h : st.Listed)
    (hstep : st.exec op = some st') (hbad : ¬ st.OneByOne op) : ¬ st'.Evicts := by
  cases op with
  | findVictimPage => exact absurd trivial hbad
  | vmapPageRange addr pgnum frames =>
      rcases exec_vmapPageRange hstep with ⟨hfresh, hfifo, hwaiting, _⟩
      rw [evicts_iff, hfifo, hwaiting, h.list]
      intro heq
      have hlen := congrArg List.length heq
      simp only [List.length_cons, List.length_append] at hlen
      -- one page is enlisted for the range
      have hone : (rangePages addr pgnum frames).length = 1 := by omega
      refine hbad ⟨hone, ?_⟩
      cases hw : st.waiting with
      | nil => rfl
      | cons q rest =>
          -- and it comes before a page that was mapped earlier
          rw [rangePages_one hone, hw] at heq
          obtain rfl : pagingPgn addr = q := (List.cons.inj heq).1
          refine absurd (h.mapped (pagingPgn addr) (by simp [hw])) (hfresh _ ?_)
          simp [rangePages_one hone]

/-! ## Runs -/

/-- For every sequence of mappings and evictions: the pages are evicted in the order in which they
were mapped, each once, exactly when every mapping is of one page while none is waiting. -/
theorem evicts_iff_oneByOne (c : Caller) (ops : List Op) :
    AllStates Evicts (start c) (traceFn exec (start c) ops) ↔
      AllSteps OneByOne (start c) (traceFn exec (start c) ops) := by
  rcases run_traceFn exec (start c) ops with ⟨t, hrun⟩
  exact hrun.exact Listed.evicts exec_listed exec_not_evicts (start_listed c)

/-- Page 0 is mapped, then page 1, and page 1 is evicted first. -/
theorem twoPages_not_evicts :
    ¬ AllStates Evicts (start ⟨pageSize, Mm.zeroed, .create 512 true, .create 512 true⟩)
      (traceFn exec (start ⟨pageSize, Mm.zeroed, .create 512 true, .create 512 true⟩)
        [.vmapPageRange 0#32 1#32 [0], .vmapPageRange 256#32 1#32 [1]]) := by
  rintro ⟨_, hall⟩
  have hend : ∃ x ∈ traceFn exec
      (start ⟨pageSize, Mm.zeroed, .create 512 true, .create 512 true⟩)
      [.vmapPageRange 0#32 1#32 [0], .vmapPageRange 256#32 1#32 [1]],
      takes Caller.findVictimPage 1 x.2.c ≠ front 1 x.2.waiting := by
    decide
  rcases hend with ⟨x, hmem, hne⟩
  exact hne (hall x hmem 1)

end PageUse
end MiniOs
