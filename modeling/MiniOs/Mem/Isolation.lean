import MiniOs.Lib.Run
import MiniOs.Mem.Cpu

/-!
# Isolation — a process in company computes what it computes alone

The processes of the segmented memory share the frames, and nothing else.  So as long as frames do
not run out for a process, the return values of its instructions, its registers and its memory are
those of a run from which the instructions of all others have been left out.
-/

namespace MiniOs
namespace MemCpu

open Lib

variable {ι : Type} [DecidableEq ι]

/-! ## Instructions of one process -/

def Instr.caller : Instr ι → ι
  | .alloc i _ _ | .freeData i _ | .read i _ _ _ _ | .write i _ _ _ => i

/-- The return value of an instruction, and the state behind it. -/
def perform (s : MemCpu ι) : Instr ι → Int × MemCpu ι
  | .alloc i size regIndex => s.alloc i size regIndex
  | .freeData i regIndex => s.freeData i regIndex
  | .read i source offset destination data => s.read i source offset destination data
  | .write i data destination offset => s.write i data destination offset

/-- An `alloc` of process `i` is not refused for want of free frames alone. -/
def FramesFor (i : ι) (s : MemCpu ι) : Instr ι → Prop
  | .alloc j size _ => j = i → pagesNeeded size ≤ freePageCount s.sys.mem ∨
      2 ^ 20 < (s.sys.proc i).bp.toNat + 1024 * pagesNeeded size
  | _ => True

/-- Process `i` sees the same of both states. -/
structure SameView (i : ι) (s t : MemCpu ι) : Prop where
  regs : s.regs i = t.regs i
  bp : (s.sys.proc i).bp = (t.sys.proc i).bp
  bytes : ∀ a, s.sys.reads i a = t.sys.reads i a

/-! ## Free frames -/

theorem freePageCount_eq_card (m : Mem) :
    freePageCount m = (Finset.univ.filter fun k => (m.memStat k).proc = 0#32).card := by
  rw [freePageCount, List.countP_eq_length_filter]
  rfl

omit [DecidableEq ι] in
/-- A successful allocation takes as many frames as it gives pages. -/
theorem given_freePageCount {s s' : MemSys ι} {i : ι} {ret : Addr} {n : Nat}
    (h : s.Given s' i ret n) (hpid : (s.proc i).pid ≠ 0#32) :
    freePageCount s'.mem + n = freePageCount s.mem := by
  rcases h.owned with ⟨pages, hcard, htaken, hkept⟩
  have hsub : pages ⊆ Finset.univ.filter fun k => (s.mem.memStat k).proc = 0#32 := fun k hk => by
    simpa using (htaken k hk).1
  have hrest : (Finset.univ.filter fun k => (s'.mem.memStat k).proc = 0#32) =
      (Finset.univ.filter fun k => (s.mem.memStat k).proc = 0#32) \ pages := by
    ext k
    simp only [Finset.mem_filter, Finset.mem_univ, true_and, Finset.mem_sdiff]
    by_cases hk : k ∈ pages
    · simp [hk, (htaken k hk).2, hpid]
    · simp [hk, hkept k hk]
  rw [freePageCount_eq_card, freePageCount_eq_card, hrest, ← hcard]
  exact Finset.card_sdiff_add_card_eq_card hsub

/-! ## The relation -/

/-- The two states agree on process `i`, which has the second one for itself. -/
structure Alike (procs : Processes ι) (i : ι) (s t : MemCpu ι) : Prop where
  regs : s.regs i = t.regs i
  bp : (s.sys.proc i).bp = (t.sys.proc i).bp
  stored : ∀ a, MemSys.lastStored s.sys.stored i a = MemSys.lastStored t.sys.stored i a
  company : ∃ top, MemSys.Inv procs s.sys top
  alone : ∃ top, MemSys.Inv procs t.sys top
  frames : 1024 * freePageCount t.sys.mem + (t.sys.proc i).bp.toNat = 1025 * 1024

variable {procs : Processes ι} {i : ι} {s t : MemCpu ι}

theorem alike_init (procs : Processes ι) (regs : ι → Fin 10 → Addr) (i : ι) :
    Alike procs i (init procs regs) (init procs regs) where
  regs := rfl
  bp := rfl
  stored _ := rfl
  company := ⟨_, MemSys.inv_init procs⟩
  alone := ⟨_, MemSys.inv_init procs⟩
  frames := by
    have hcount : freePageCount (init procs regs).sys.mem = 1024 := freePageCount_initMem
    have hbp : ((init procs regs).sys.proc i).bp.toNat = 1024 := rfl
    rw [hcount, hbp]

theorem Alike.inRange_iff (h : Alike procs i s t) (a : Addr) :
    s.sys.InRange i a ↔ t.sys.InRange i a := by
  rw [MemSys.InRange, h.bp, MemSys.InRange]

theorem Alike.reads (h : Alike procs i s t) (a : Addr) : s.sys.reads i a = t.sys.reads i a := by
  rcases h.company with ⟨_, hs⟩
  rcases h.alone with ⟨_, ht⟩
  rw [hs.isPrivate.read, ht.isPrivate.read, h.stored a]
  simp only [h.inRange_iff a]

theorem Alike.sameView (h : Alike procs i s t) : SameView i s t := ⟨h.regs, h.bp, h.reads⟩

/-- Alone, a process runs out of addresses before it runs out of frames. -/
theorem Alike.framesAlone (h : Alike procs i s t) (size : Addr) :
    pagesNeeded size ≤ freePageCount t.sys.mem ∨
      2 ^ 20 < (t.sys.proc i).bp.toNat + 1024 * pagesNeeded size := by
  have hframes := h.frames
  omega

/-- Whether an allocation succeeds is then a matter of the break pointer. -/
theorem returns_of_frames {u : MemCpu ι} {top : ι → Nat} (hinv : MemSys.Inv procs u.sys top)
    {size : Addr} (hframes : pagesNeeded size ≤ freePageCount u.sys.mem ∨
      2 ^ 20 < (u.sys.proc i).bp.toNat + 1024 * pagesNeeded size) :
    u.sys.returns i size =
      if (u.sys.proc i).bp.toNat + 1024 * pagesNeeded size ≤ 2 ^ 20 then (u.sys.proc i).bp
      else 0#32 := by
  have hexact := hinv.exact i size
  split
  · rename_i hroom
    have hne := hexact.nonzero_iff.2 ⟨hframes.resolve_right (not_lt.2 hroom), hroom⟩
    exact (hexact.given hne).ret_eq
  · rename_i hroom
    by_contra hne
    exact hroom (hexact.nonzero_iff.1 hne).2

/-! ## Steps of the process -/

/-- What an allocation leaves alone, and what it does to the break pointer and the frames. -/
structure AllocView (i : ι) (size : Addr) (u u' : MemSys ι) : Prop where
  stored : u'.stored = u.stored
  given : u.returns i size ≠ 0#32 →
    (u'.proc i).bp.toNat = (u.proc i).bp.toNat + 1024 * pagesNeeded size ∧
      freePageCount u'.mem + pagesNeeded size = freePageCount u.mem
  nothing : u.returns i size = 0#32 → u' = u

theorem allocView {u : MemSys ι} {top : ι → Nat} (h : MemSys.Inv procs u top) (i : ι)
    (size : Addr) : AllocView i size u (u.call (.allocMem i size)) := by
  have hexact := h.exact i size
  refine ⟨(h.allocMem i size).1.stored, fun hne => ?_, hexact.nothing⟩
  have hgiven := hexact.given hne
  exact ⟨hgiven.bp, given_freePageCount hgiven (h.pid_ne_zero i)⟩

theorem alloc_regs (u : MemCpu ι) (i : ι) (size : Addr) (regIndex : Fin 10) :
    (u.alloc i size regIndex).2.sys = u.sys.call (.allocMem i size) ∧
      (u.alloc i size regIndex).2.regs i = if u.sys.returns i size = 0#32 then u.regs i
        else Function.update (u.regs i) regIndex (u.sys.returns i size) := by
  unfold alloc
  dsimp only
  split
  · exact ⟨rfl, rfl⟩
  · exact ⟨rfl, Function.update_self ..⟩

theorem Alike.alloc (h : Alike procs i s t) {size : Addr} (regIndex : Fin 10)
    (hframes : pagesNeeded size ≤ freePageCount s.sys.mem ∨
      2 ^ 20 < (s.sys.proc i).bp.toNat + 1024 * pagesNeeded size) :
    (s.alloc i size regIndex).1 = (t.alloc i size regIndex).1 ∧
      Alike procs i (s.alloc i size regIndex).2 (t.alloc i size regIndex).2 := by
  rcases h.company with ⟨_, hs⟩
  rcases h.alone with ⟨_, ht⟩
  have hret : s.sys.returns i size = t.sys.returns i size := by
    rw [returns_of_frames hs hframes, returns_of_frames ht (h.framesAlone size), h.bp]
  have hvs := allocView hs i size
  have hvt := allocView ht i size
  rcases alloc_regs s i size regIndex with ⟨hsys, hregs⟩
  rcases alloc_regs t i size regIndex with ⟨hsys', hregs'⟩
  have hone : (s.alloc i size regIndex).1 = (t.alloc i size regIndex).1 := by
    simp only [MemCpu.alloc, hret]
    split <;> rfl
  refine ⟨hone, ?_, ?_, fun a => ?_, ?_, ?_, ?_⟩
  · rw [hregs, hregs', hret, h.regs]
  · rw [hsys, hsys']
    by_cases hzero : s.sys.returns i size = 0#32
    · rw [hvs.nothing hzero, hvt.nothing (hret ▸ hzero), h.bp]
    · apply BitVec.eq_of_toNat_eq
      rw [(hvs.given hzero).1, (hvt.given (hret ▸ hzero)).1, h.bp]
  · rw [hsys, hsys', hvs.stored, hvt.stored]
    exact h.stored a
  · rw [hsys]
    exact hs.call _
  · rw [hsys']
    exact ht.call _
  · rw [hsys']
    have hframes' := h.frames
    by_cases hzero : t.sys.returns i size = 0#32
    · rw [hvt.nothing hzero]
      exact hframes'
    · have hgiven := hvt.given hzero
      omega

theorem Alike.setReg (h : Alike procs i s t) (reg : Fin 10) (addr : Addr) :
    Alike procs i (s.setReg i reg addr) (t.setReg i reg addr) := by
  refine ⟨?_, h.bp, h.stored, h.company, h.alone, h.frames⟩
  simp [MemCpu.setReg, h.regs]

theorem Alike.read (h : Alike procs i s t) (source : Fin 10) (offset : Addr) (destination : Fin 10)
    (data : Byte) :
    (s.read i source offset destination data).1 = (t.read i source offset destination data).1 ∧
      Alike procs i (s.read i source offset destination data).2
        (t.read i source offset destination data).2 := by
  have hmem : s.readMem i (s.regs i source + offset) data =
      t.readMem i (t.regs i source + offset) data := by
    rw [readMem, readMem, h.regs, h.reads]
  unfold MemCpu.read
  rw [hmem]
  dsimp only
  split
  · exact ⟨rfl, h.setReg destination _⟩
  · exact ⟨rfl, h⟩

theorem write_eq (u : MemCpu ι) (i : ι) (data : Byte) (destination : Fin 10) (offset : Addr) :
    u.write i data destination offset =
      match u.sys.translation i (u.regs i destination + offset) with
      | none => (1, u)
      | some q => (0, { u with sys := ⟨⟨Function.update u.sys.mem.ram q data, u.sys.mem.memStat⟩,
          u.sys.proc, (i, u.regs i destination + offset, data) :: u.sys.stored⟩ }) := by
  cases htr : u.sys.translation i (u.regs i destination + offset) with
  | none =>
      have htr' : translate (u.regs i destination + offset) (u.sys.proc i) = none := htr
      simp [write, writeMem, htr']
  | some q =>
      rw [write_of_some htr, MemSys.call_writeMem, htr]

theorem Alike.write (h : Alike procs i s t) (data : Byte) (destination : Fin 10) (offset : Addr) :
    (s.write i data destination offset).1 = (t.write i data destination offset).1 ∧
      Alike procs i (s.write i data destination offset).2
        (t.write i data destination offset).2 := by
  rcases h.company with ⟨top, hs⟩
  rcases h.alone with ⟨top', ht⟩
  have hcall := hs.writeMem i (s.regs i destination + offset) data
  have hcall' := ht.writeMem i (t.regs i destination + offset) data
  -- the address is mapped in both states or in none
  have hmapped : (s.sys.translation i (s.regs i destination + offset)).isSome ↔
      (t.sys.translation i (t.regs i destination + offset)).isSome := by
    rw [← hs.inRange_iff, ← ht.inRange_iff, h.regs]
    exact h.inRange_iff _
  rw [MemSys.call_writeMem] at hcall hcall'
  rw [write_eq, write_eq]
  cases htr : s.sys.translation i (s.regs i destination + offset) with
  | none =>
      cases htr' : t.sys.translation i (t.regs i destination + offset) with
      | none => exact ⟨rfl, h⟩
      | some q' => simp [htr, htr'] at hmapped
  | some q =>
      cases htr' : t.sys.translation i (t.regs i destination + offset) with
      | none => simp [htr, htr'] at hmapped
      | some q' =>
          rw [htr] at hcall
          rw [htr'] at hcall'
          refine ⟨rfl, h.regs, h.bp, fun a => ?_, ⟨top, hcall⟩, ⟨top', hcall'⟩, h.frames⟩
          simp only [MemSys.lastStored, h.regs, h.stored a]

/-! ## Steps of the others -/

theorem Alike.other (h : Alike procs i s t) {c : Instr ι} (hc : c.caller ≠ i) :
    Alike procs i (s.perform c).2 t := by
  rcases h.company with ⟨top, hs⟩
  cases c with
  | alloc j size regIndex =>
      have hj : i ≠ j := Ne.symm hc
      have hsys := (alloc_regs s j size regIndex).1
      have hregs : (s.alloc j size regIndex).2.regs i = s.regs i := by
        unfold MemCpu.alloc
        dsimp only
        split
        · rfl
        · exact Function.update_of_ne hj _ _
      have halloc := (hs.allocMem j size).1
      simp only [perform]
      refine ⟨hregs.trans h.regs, ?_, fun a => ?_, ?_, h.alone, h.frames⟩
      · rw [hsys, halloc.others i hj]
        exact h.bp
      · rw [hsys, halloc.stored]
        exact h.stored a
      · rw [hsys]
        exact hs.call _
  | freeData j regIndex => exact h
  | read j source offset destination data =>
      have hj : i ≠ j := Ne.symm hc
      simp only [perform, MemCpu.read]
      split
      · refine ⟨?_, h.bp, h.stored, h.company, h.alone, h.frames⟩
        simp only [MemCpu.setReg, Function.update_of_ne hj]
        exact h.regs
      · exact h
  | write j data destination offset =>
      have hcall := hs.writeMem j (s.regs j destination + offset) data
      rw [MemSys.call_writeMem] at hcall
      simp only [perform]
      rw [write_eq]
      cases htr : s.sys.translation j (s.regs j destination + offset) with
      | none => exact h
      | some q =>
          rw [htr] at hcall
          refine ⟨h.regs, h.bp, fun a => ?_, ⟨top, hcall⟩, h.alone, h.frames⟩
          have hne : ¬ (j = i ∧ s.regs j destination + offset = a) := fun hboth => hc hboth.1
          simp only [MemSys.lastStored, if_neg hne]
          exact h.stored a

/-! ## Runs -/

/-- Whether process `i` executes the instruction. -/
def isOf (i : ι) (c : Instr ι) : Bool := decide (c.caller = i)

/-- Step lemma. -/
theorem Alike.own (h : Alike procs i s t) {c : Instr ι} (hc : isOf i c = true)
    (hframes : FramesFor i s c) :
    (s.perform c).1 = (t.perform c).1 ∧ Alike procs i (s.perform c).2 (t.perform c).2 := by
  obtain rfl : c.caller = i := of_decide_eq_true hc
  cases c with
  | alloc j size regIndex => exact h.alloc regIndex (hframes rfl)
  | freeData j regIndex => exact ⟨rfl, h⟩
  | read j source offset destination data => exact h.read source offset destination data
  | write j data destination offset => exact h.write data destination offset

/-- For any number of processes and every interleaving of their instructions in which frames do not
run out for process `i`: its return values are those of the run of its instructions alone, and in
the end it sees the same registers, the same break pointer and the same memory. -/
theorem alone_eq (procs : Processes ι) (regs : ι → Fin 10 → Addr) (i : ι) (cs : List (Instr ι))
    (hframes : Along (fun s c => some (perform s c).2) (FramesFor i) (init procs regs) cs) :
    ownOutputs perform (isOf i) (init procs regs) cs =
        ownOutputs perform (isOf i) (init procs regs) (cs.filter (isOf i)) ∧
      SameView i (finalState perform (init procs regs) cs)
        (finalState perform (init procs regs) (cs.filter (isOf i))) := by
  have hboth := ownOutputs_eq (f := perform) (g := perform) (R := Alike procs i)
    (fun h hc hP => h.own hc hP) (fun h hc _ => h.other (of_decide_eq_false hc))
    (alike_init procs regs i) hframes
  exact ⟨hboth.1, hboth.2.sameView⟩

/-! ## An example -/

def twoProcs : Processes Bool where
  pid i := if i then 1#32 else 2#32
  pid_injective := by decide
  pid_ne_zero := by decide

/-- Both processes allocate and write to the same address; one of them reads it. -/
def company : List (Instr Bool) :=
  [.alloc true 300 0, .alloc false 300 0, .write true 42 0 5, .write false 7 0 5,
    .read true 0 5 1 0]

theorem company_alone :
    ownOutputs perform (isOf true) (init twoProcs fun _ _ => 0) company = [0, 0, 1] ∧
      ownOutputs perform (isOf true) (init twoProcs fun _ _ => 0) company =
        ownOutputs perform (isOf true) (init twoProcs fun _ _ => 0) (company.filter (isOf true)) ∧
      SameView true (finalState perform (init twoProcs fun _ _ => 0) company)
        (finalState perform (init twoProcs fun _ _ => 0) (company.filter (isOf true))) := by
  refine ⟨by decide +kernel,
    alone_eq twoProcs (fun _ _ => 0) true company ⟨fun _ => Or.inl ?_, fun s₁ _ => ?_⟩⟩
  · have hpages : pagesNeeded 300 = 1 := by
      have hnat : (300 : Addr).toNat = 300 := rfl
      rw [pagesNeeded, hnat, Nat.ceil_eq_iff (by decide)]
      norm_num
    have hcount : freePageCount (init twoProcs fun _ _ => 0).sys.mem = 1024 :=
      freePageCount_initMem
    rw [hpages, hcount]
    decide
  · -- the other allocation is not the process's, and the rest needs no frame
    simp [Along, FramesFor]

end MemCpu
end MiniOs
