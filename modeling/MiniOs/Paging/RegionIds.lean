import MiniOs.Paging.Failures
import MiniOs.Paging.Outcomes

/-!
# RegionIds — which identifiers reach the region table

`__free`, `__read` and `__write` compare the identifier with the size of the table, and let through
the size itself; `__alloc` does not look at it.
-/

namespace MiniOs

/-- The operations that are given a region identifier; `killall` calls `libread`. -/
inductive RegionOp
  | liballoc (size : Addr)
  | libfree
  | libread (offset destination : Addr)
  | libwrite (data : Byte) (offset : Addr)

namespace Caller

def performRegion (c : Caller) (rgid : Addr) : RegionOp → Option (Int × Caller)
  | .liballoc size => c.liballoc size rgid
  | .libfree => c.libfree rgid
  | .libread offset destination =>
      (c.libread rgid offset destination).map fun ((val, _), c) => (val, c)
  | .libwrite data offset => c.libwrite data rgid offset

/-- The index with which an operation accesses `symrgtbl`, if it does: `__alloc` when
`get_free_vmrg_area` has returned 0, the others when `get_symrg_byid` has. -/
def symIndex (c : Caller) (rgid : Addr) : RegionOp → Option Int
  | .liballoc size =>
      match c.mm.getFreeVmrgArea size with
      | some (some _, _) => some rgid.toInt
      | _ => none
  | .libfree | .libread _ _ | .libwrite _ _ =>
      match getSymrgByid rgid with
      | .null => none
      | .entry _ | .pastEnd => some rgid.toInt

/-- Region table, free regions, replacement list and free frames are what they were. -/
structure ListsKept (c c' : Caller) : Prop where
  symrgtbl : c'.mm.symrgtbl = c.mm.symrgtbl
  freeRegions : c'.mm.mmap.vmFreergList = c.mm.mmap.vmFreergList ∧ c'.mm.rgHeap = c.mm.rgHeap
  fifoPgn : c'.mm.fifoPgn = c.mm.fifoPgn
  ramFree : c'.mram.freeFpList = c.mram.freeFpList
  swapFree : c'.activeMswp.freeFpList = c.activeMswp.freeFpList

/-- The table is accessed at an index of it, and an identifier that is none is refused. -/
def IdChecked (c : Caller) (rgid : Addr) (op : RegionOp) : Prop :=
  (∀ n ∈ c.symIndex rgid op, 0 ≤ n ∧ n < pagingMaxSymtblSz) ∧
    (¬ IsRegionId rgid → ∃ ret c', c.performRegion rgid op = some (ret, c') ∧ ret ≠ 0 ∧
      c.ListsKept c')

/-- There is no free region, and the growth fails without taking a frame. -/
def AllocFailsKeeping (c : Caller) (size : Addr) : Prop :=
  c.mm.mmap.vmFreergList = none ∧ (c.MayGrow 0#32 →
    growPages (pagingPageAlignsz size) < 0 ∨
      (0 < growPages (pagingPageAlignsz size) ∧ c.mram.freeFpList = []))

/-- The condition under which an operation checks its identifier. -/
def ChecksId (c : Caller) (rgid : Addr) : RegionOp → Prop
  | .liballoc size => IsRegionId rgid ∨ c.AllocFailsKeeping size
  | .libfree | .libread _ _ | .libwrite _ _ => rgid ≠ 30#32

theorem ListsKept.refl (c : Caller) : c.ListsKept c := ⟨rfl, ⟨rfl, rfl⟩, rfl, rfl, rfl⟩

/-! ## Operations that call get_symrg_byid -/

/-- For an operation that refuses a null pointer, and accesses the table otherwise. -/
theorem idChecked_iff_of_sym {c : Caller} {rgid : Addr} {op : RegionOp}
    (hindex : c.symIndex rgid op = match getSymrgByid rgid with
      | .null => none
      | .entry _ | .pastEnd => some rgid.toInt)
    (hnull : getSymrgByid rgid = .null → c.performRegion rgid op = some (-1, c)) :
    c.IdChecked rgid op ↔ rgid ≠ 30#32 := by
  constructor
  · rintro ⟨hin, _⟩ rfl
    -- one past the end
    rw [hindex, getSymrgByid_pastEnd] at hin
    exact absurd (hin _ rfl).2 (by decide)
  · intro hne
    cases hsym : getSymrgByid rgid with
    | null =>
        rw [IdChecked, hindex, hsym]
        exact ⟨nofun, fun _ => ⟨-1, c, hnull hsym, by decide, ListsKept.refl c⟩⟩
    | pastEnd => exact absurd (eq_of_pastEnd hsym) hne
    | entry i =>
        have hid := isRegionId_of_entry hsym
        rw [IdChecked, hindex, hsym]
        refine ⟨fun n hn => ?_, fun hno => absurd hid hno⟩
        obtain rfl : rgid.toInt = n := Option.some.inj hn
        exact hid

/-! ## Allocation -/

/-- A growth fails and keeps the lists exactly if it asks for no frames, or finds none. -/
theorem growth_keeps_iff (c : Caller) (incSz : Addr) :
    ((c.incVmaLimit 0#32 incSz).1 < 0 ∧ c.ListsKept (c.incVmaLimit 0#32 incSz).2) ↔
      (c.MayGrow 0#32 → growPages incSz < 0 ∨
        (0 < growPages incSz ∧ c.mram.freeFpList = [])) := by
  have hgot := c.incVmaLimit_got 0#32 incSz
  generalize c.incVmaLimit 0#32 incSz = r at hgot ⊢
  cases hgot with
  | refused hno =>
      exact iff_of_true ⟨neg_one_lt_zero, rfl, ⟨rfl, rfl⟩, rfl, rfl, rfl⟩
        fun hmay => absurd hmay hno
  | negative _ hneg =>
      exact iff_of_true ⟨neg_one_lt_zero, rfl, ⟨rfl, rfl⟩, rfl, rfl, rfl⟩ fun _ => Or.inl hneg
  | short hmay hshort =>
      -- it has taken what frames there are
      constructor
      · rintro ⟨_, hkept⟩ _
        exact Or.inr ⟨by omega, hkept.ramFree.symm⟩
      · intro hno
        rcases hno hmay with hneg | ⟨_, hnil⟩
        · omega
        · exact ⟨neg_one_lt_zero, rfl, ⟨rfl, rfl⟩, rfl, hnil.symm, rfl⟩
  | enough hmay hpos henough =>
      -- it has succeeded
      refine iff_of_false (fun hboth => absurd hboth.1 (lt_irrefl 0)) fun hno => ?_
      rcases hno hmay with hneg | ⟨hpos', hnil⟩
      · omega
      · rw [hnil, List.length_nil] at henough
        omega

/-- An identifier that is none is refused by `__alloc` only if the growth fails. -/
theorem alloc_checked_iff {c : Caller} {rgid size : Addr} (hbad : ¬ IsRegionId rgid) :
    c.IdChecked rgid (.liballoc size) ↔ c.AllocFailsKeeping size := by
  cases hlist : c.mm.mmap.vmFreergList with
  | some p =>
      refine iff_of_false ?_ fun hkeeps => ?_
      · rintro ⟨_, hrefused⟩
        rcases hrefused hbad with ⟨ret, c', hrun, _, _⟩
        rcases Option.map_eq_some_iff.1 hrun with ⟨⟨addr, c₁⟩, halloc, _⟩
        -- a list that is not empty gives 0, and the entry is written
        have hne : c.mm.mmap.vmFreergList ≠ none := hlist ▸ Option.some_ne_none p
        rcases alloc_listed_cases hne halloc with ⟨i, _, _, hentry, _⟩
        exact hbad (isRegionId_of_entry hentry)
      · rw [hkeeps.1] at hlist
        cases hlist
  | none =>
      have hindex : c.symIndex rgid (.liballoc size) = none := by
        simp [symIndex, Mm.getFreeVmrgArea, hlist]
      have hrun : c.performRegion rgid (.liballoc size) =
          (c.alloc rgid size).map fun r => (if r.1.isSome then 0 else -1, r.2) := rfl
      rw [IdChecked, hindex, hrun, alloc_growth rgid size hlist]
      simp only [AllocFailsKeeping, hlist, true_and]
      rw [← growth_keeps_iff]
      constructor
      · rintro ⟨_, hrefused⟩
        rcases hrefused hbad with ⟨ret, c', heq, hne, hkept⟩
        split at heq
        · rename_i hneg
          obtain ⟨_, rfl⟩ := Prod.mk.inj (Option.some.inj heq)
          exact ⟨hneg, hkept⟩
        · obtain ⟨rfl, _⟩ := Prod.mk.inj (Option.some.inj heq)
          exact absurd rfl hne
      · rintro ⟨hneg, hkept⟩
        refine ⟨fun j hj => absurd hj (Option.not_mem_none j),
          fun _ => ⟨-1, _, ?_, by decide, hkept⟩⟩
        rw [if_pos hneg]
        rfl

/-- For every process, every identifier and every operation: the region table is accessed inside its
bounds and other identifiers are refused exactly under the condition of the operation. -/
theorem idChecked_iff (c : Caller) (rgid : Addr) (op : RegionOp) :
    c.IdChecked rgid op ↔ c.ChecksId rgid op := by
  cases op with
  | liballoc size =>
      by_cases hid : IsRegionId rgid
      · refine iff_of_true ⟨fun n hn => ?_, fun hno => absurd hid hno⟩ (Or.inl hid)
        unfold symIndex at hn
        dsimp only at hn
        split at hn
        · obtain rfl : rgid.toInt = n := Option.some.inj hn
          exact hid
        · cases hn
      · rw [alloc_checked_iff hid]
        simp [ChecksId, hid]
  | libfree =>
      apply idChecked_iff_of_sym rfl
      intro hnull
      simp [performRegion, libfree, free, hnull]
  | libread offset destination =>
      apply idChecked_iff_of_sym rfl
      intro hnull
      simp [performRegion, libread, read, hnull]
  | libwrite data offset =>
      apply idChecked_iff_of_sym rfl
      intro hnull
      simp [performRegion, libwrite, write, hnull]

/-- A new process frees region 30. -/
theorem freeThirty_not_checked :
    ¬ IdChecked ⟨pageSize, Mm.initMm Mm.zeroed, .create 1024 true, .create 1024 true⟩ 30#32
      .libfree := by
  rintro ⟨hin, _⟩
  exact absurd (hin 30 rfl).2 (by decide)

end Caller
end MiniOs
