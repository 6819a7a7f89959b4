import MiniOs.Lib.Run
import MiniOs.Paging.Memphy

/-!
# FrameAllocator — the free frames of a device

`MEMPHY_get_freefp` and `MEMPHY_put_freefp` take frames off the free list and put them back.  The
list comes from `MEMPHY_format`, which sets `fp_next` of every node but the first: a device of one
frame ends in whatever `malloc` left there, and a device of no frame keeps the list it had.
-/

namespace MiniOs

open Lib

/-- A device, and the frames that have been handed out and not put back. -/
structure FrameUse where
  mp : Memphy
  held : List Nat

namespace FrameUse

inductive Op
  | get
  | put (fpn : Nat)

/-- One call; only a frame that is held is put back. -/
def exec (s : FrameUse) : Op → Option FrameUse
  | .get =>
      match s.mp.getFreefp with
      | none => some s
      | some (fpn, mp) => some ⟨mp, fpn :: s.held⟩
  | .put fpn =>
      if fpn ∈ s.held then some ⟨s.mp.putFreefp fpn, s.held.erase fpn⟩ else none

/-- Behind `init_memphy`, nothing is held. -/
def start (mp : Memphy) (stale : List Nat) (maxSize : Nat) (randomflg : Bool) : FrameUse :=
  ⟨mp.initMemphy stale maxSize randomflg, []⟩

/-- Every frame of the device is free or held, once; a frame that is handed out is not held, and
none is handed out exactly when all are held. -/
structure Exact (n : Nat) (s : FrameUse) : Prop where
  partition : (s.mp.freeFpList ++ s.held).Perm (List.range n)
  fresh : ∀ fpn mp, s.mp.getFreefp = some (fpn, mp) → fpn ∉ s.held
  refused : s.mp.getFreefp = none ↔ ∀ fpn < n, fpn ∈ s.held

/-- A device without frames had no list before, and the node of a single frame has no successor. -/
def EndsList (mp : Memphy) (stale : List Nat) (maxSize : Nat) : Prop :=
  (maxSize / 256 = 0 → mp.freeFpList = []) ∧ (maxSize / 256 = 1 → stale = [])

/-! ## Formatting -/

theorem initMemphy_freeFpList (mp : Memphy) (stale : List Nat) (maxSize : Nat)
    (randomflg : Bool) :
    (mp.initMemphy stale maxSize randomflg).freeFpList =
      if maxSize / 256 = 0 then mp.freeFpList
      else if maxSize / 256 = 1 then 0 :: stale
      else List.range (maxSize / 256) := by
  have hformat : (mp.initMemphy stale maxSize randomflg).freeFpList =
      (Memphy.format { mp with storage := fun _ => 0, maxsz := maxSize } stale 256).freeFpList := by
    unfold Memphy.initMemphy
    dsimp only
    split <;> rfl
  rw [hformat]
  unfold Memphy.format
  dsimp only
  split
  · rename_i hzero
    simp [hzero]
  · rename_i hone
    simp [hone]
  · rename_i hno hnone
    rw [if_neg hno, if_neg hnone]

/-- The list is complete exactly when it ends where it should. -/
theorem initMemphy_range_iff (mp : Memphy) (stale : List Nat) (maxSize : Nat) (randomflg : Bool) :
    (mp.initMemphy stale maxSize randomflg).freeFpList.Perm (List.range (maxSize / 256)) ↔
      EndsList mp stale maxSize := by
  rw [initMemphy_freeFpList]
  by_cases hzero : maxSize / 256 = 0
  · simp [EndsList, hzero]
  · by_cases hone : maxSize / 256 = 1
    · simp [EndsList, hone]
    · simp [EndsList, hzero, hone]

/-! ## Steps -/

variable {n : Nat}

/-- The two conditions on `MEMPHY_get_freefp` follow from the first. -/
theorem exact_of_partition {s : FrameUse}
    (h : (s.mp.freeFpList ++ s.held).Perm (List.range n)) : s.Exact n := by
  have hnodup : (s.mp.freeFpList ++ s.held).Nodup := h.nodup_iff.2 List.nodup_range
  have hmem : ∀ fpn, fpn ∈ s.mp.freeFpList ∨ fpn ∈ s.held ↔ fpn < n := by
    intro fpn
    rw [← List.mem_append, h.mem_iff, List.mem_range]
  cases hfree : s.mp.freeFpList with
  | nil =>
      have hnone : s.mp.getFreefp = none := by simp [Memphy.getFreefp, hfree]
      refine ⟨h, fun fpn mp hget => ?_, iff_of_true hnone fun fpn hlt => ?_⟩
      · rw [hnone] at hget
        cases hget
      · simpa [hfree] using (hmem fpn).2 hlt
  | cons f rest =>
      have hget : s.mp.getFreefp = some (f, { s.mp with freeFpList := rest }) := by
        simp [Memphy.getFreefp, hfree]
      -- the first frame of the list is not held
      have hnew : f ∉ s.held := by
        rw [hfree, List.cons_append, List.nodup_cons, List.mem_append] at hnodup
        exact fun hheld => hnodup.1 (Or.inr hheld)
      refine ⟨h, fun fpn mp hsome => ?_, iff_of_false (by simp [hget]) fun hall => ?_⟩
      · rw [hget] at hsome
        obtain ⟨rfl, _⟩ := Prod.mk.inj (Option.some.inj hsome)
        exact hnew
      · exact hnew (hall f ((hmem f).1 (Or.inl (by simp [hfree]))))

/-- Step lemma: frames move between the list and those held. -/
theorem Exact.exec {s s' : FrameUse} {op : Op} (h : s.Exact n) (hstep : s.exec op = some s') :
    s'.Exact n := by
  apply exact_of_partition
  cases op with
  | get =>
      simp only [FrameUse.exec, Memphy.getFreefp] at hstep
      cases hfree : s.mp.freeFpList with
      | nil =>
          simp only [hfree] at hstep
          obtain rfl := Option.some.inj hstep
          exact h.partition
      | cons f rest =>
          simp only [hfree] at hstep
          obtain rfl := Option.some.inj hstep
          have hmoved : (rest ++ f :: s.held).Perm (f :: rest ++ s.held) := List.perm_middle
          exact hmoved.trans (hfree ▸ h.partition)
  | put fpn =>
      simp only [FrameUse.exec] at hstep
      split at hstep
      · rename_i hheld
        obtain rfl := Option.some.inj hstep
        -- what is put back is held no longer
        have hmoved : (fpn :: s.mp.freeFpList ++ s.held.erase fpn).Perm
            (s.mp.freeFpList ++ fpn :: s.held.erase fpn) := List.perm_middle.symm
        have hback : (s.mp.freeFpList ++ fpn :: s.held.erase fpn).Perm
            (s.mp.freeFpList ++ s.held) :=
          (List.perm_cons_erase hheld).symm.append_left s.mp.freeFpList
        exact hmoved.trans (hback.trans h.partition)
      · cases hstep

/-! ## Runs -/

/-- For all sizes, all previous contents and all sequences of calls: the frames are accounted for in
every state exactly when the list that `MEMPHY_format` leaves ends where it should. -/
theorem exact_iff (mp : Memphy) (stale : List Nat) (maxSize : Nat) (randomflg : Bool)
    (ops : List Op) :
    AllStates (Exact (maxSize / 256)) (start mp stale maxSize randomflg)
        (traceFn exec (start mp stale maxSize randomflg) ops) ↔
      EndsList mp stale maxSize := by
  have hstart : (start mp stale maxSize randomflg).Exact (maxSize / 256) ↔
      EndsList mp stale maxSize := by
    rw [← initMemphy_range_iff mp stale maxSize randomflg]
    constructor
    · intro h
      simpa [start] using h.partition
    · intro h
      exact exact_of_partition (by simpa [start] using h)
  constructor
  · intro hall
    exact hstart.1 hall.1
  · intro hends
    -- the first state is good, and every step keeps it so
    rcases run_traceFn exec (start mp stale maxSize randomflg) ops with ⟨t, hrun⟩
    exact hrun.allStates (fun h hstep => h.exec hstep) (hstart.2 hends)

/-- A device of one frame, formatted with a node that still points to a node of frame 0: the frame
is handed out twice. -/
theorem oneFrame_twice :
    ¬ AllStates (Exact 1) (start .zeroed [0] 256 true)
        (traceFn exec (start .zeroed [0] 256 true) [.get, .get]) := by
  rintro ⟨hexact, _⟩
  -- the list has two nodes, and the device one frame
  have hlen := hexact.partition.length_eq
  revert hlen
  decide

end FrameUse
end MiniOs
