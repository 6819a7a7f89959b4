import MiniOs.Lib.Run
import MiniOs.Paging.Outcomes

/-!
# Partition — live and free regions of an area

The regions of area 0 are those of the region table that are allocated and those of the free list.
The area starts empty, with one free region of no bytes; the first allocation succeeds all the
same, and records a region outside the area.
-/

namespace MiniOs

namespace Mm

/-! ## The partition -/

/-- The list from `head` on runs through `nodes` and ends. -/
def FreeChain (mm : Mm) : (head : Option RgPtr) → (nodes : List RgPtr) → Prop
  | head, [] => head = none
  | head, p :: nodes => head = some p ∧ ∃ node, mm.rg p = some node ∧ mm.FreeChain node.rgNext nodes

/-- The node `p` holds a region: it is an entry of the region table with a live region, or on the
free list. -/
def IsRegion (live : Fin pagingMaxSymtblSz → Prop) (nodes : List RgPtr) (p : RgPtr) : Prop :=
  (∃ i, p = .sym i ∧ live i) ∨ p ∈ nodes

/-- The byte `a` lies in the region of the node `p`. -/
def Covers (mm : Mm) (p : RgPtr) (a : ULong) : Prop :=
  ∃ node, mm.rg p = some node ∧ node.rgStart ≤ a ∧ a < node.rgEnd

/-- The live regions and the free list divide the area between its start and its break. -/
structure Divides (mm : Mm) (live : Fin pagingMaxSymtblSz → Prop) (nodes : List RgPtr) : Prop where
  chain : mm.FreeChain mm.mmap.vmFreergList nodes
  nodup : nodes.Nodup
  noneShared : ∀ i, live i → .sym i ∉ nodes
  covered : ∀ a, mm.mmap.vmStart ≤ a → a < mm.mmap.sbrk →
    ∃! p, IsRegion live nodes p ∧ mm.Covers p a
  disjoint : ∀ p q a, IsRegion live nodes p → IsRegion live nodes q → mm.Covers p a →
    mm.Covers q a → p = q
  inside : ∀ p, IsRegion live nodes p →
    ∃ node, mm.rg p = some node ∧ mm.mmap.vmStart ≤ node.rgStart ∧ node.rgEnd ≤ mm.mmap.sbrk

/-- The area is divided, its break is not beyond its end, and its pages are mapped. -/
structure Partitioned (mm : Mm) (live : Fin pagingMaxSymtblSz → Prop) : Prop where
  divides : ∃ nodes, mm.Divides live nodes
  sbrk_le : mm.mmap.sbrk ≤ mm.mmap.vmEnd
  mapped : ∀ a, mm.mmap.vmStart ≤ a → a < mm.mmap.vmEnd →
    pagingPagePresent (mm.pgd (pagingPgn (a.setWidth 32))) = true

/-! ## The empty area -/

/-- The area and its one free region have no bytes, and no entry of the region table has any. -/
structure EmptyArea (mm : Mm) : Prop where
  mmap : mm.mmap = ⟨0, 0, 0, some (.heap 0)⟩
  firstRg : mm.rg (.heap 0) = some ⟨0, 0, none⟩
  symrgtbl : ∀ i, (mm.symrgtbl i).rgEnd ≤ (mm.symrgtbl i).rgStart

theorem initMm_emptyArea : (initMm zeroed).EmptyArea :=
  ⟨rfl, rfl, fun _ => BitVec.le_refl _⟩

/-- With no live region, the empty area is partitioned. -/
theorem EmptyArea.partitioned {mm : Mm} (h : mm.EmptyArea) : mm.Partitioned fun _ => False := by
  refine ⟨⟨[.heap 0], ?_⟩, ?_, ?_⟩
  · refine ⟨?_, List.nodup_singleton _, fun i hi => hi.elim, ?_, ?_, ?_⟩
    · rw [h.mmap]
      exact ⟨rfl, _, h.firstRg, rfl⟩
    · -- there is no byte to cover
      intro a _ hlt
      rw [h.mmap] at hlt
      exact absurd hlt BitVec.not_lt_zero
    · -- the only region is the first free one
      rintro p q a (⟨i, _, hi⟩ | hp) (⟨j, _, hj⟩ | hq) _ _
      · exact hi.elim
      · exact hi.elim
      · exact hj.elim
      · rw [List.mem_singleton.1 hp, List.mem_singleton.1 hq]
    · rintro p (⟨i, _, hi⟩ | hp)
      · exact hi.elim
      · obtain rfl := List.mem_singleton.1 hp
        rw [h.mmap]
        exact ⟨_, h.firstRg, BitVec.le_refl _, BitVec.le_refl _⟩
  · rw [h.mmap]
    exact BitVec.le_refl _
  · intro a _ hlt
    rw [h.mmap] at hlt
    exact absurd hlt BitVec.not_lt_zero

/-- What the search for a free region gives in the empty area: no region fits a positive `int`, and
`-1` is given; to a negative one the empty region is given, with its end moved. -/
theorem EmptyArea.getFreeVmrgArea {mm : Mm} (h : mm.EmptyArea) (size : Addr) :
    ∃ mm', mm.getFreeVmrgArea size =
        some (some (if size.toInt ≤ 0 then (0, size.signExtend 64) else (-1, -1)), mm') ∧
      mm'.mmap.sbrk = 0 ∧ (0 < size.toInt → mm' = mm) := by
  have hhead : mm.mmap.vmFreergList = some (.heap 0) := by rw [h.mmap]
  have hsbrk : mm.mmap.sbrk = 0 := by rw [h.mmap]
  have havail : (((0 : ULong) - 0).setWidth 32 : Addr).toInt = 0 := by decide
  simp only [Mm.getFreeVmrgArea, hhead, Mm.findFreeRg, h.firstRg, havail]
  -- 0 bytes are available, compared as an `int`
  by_cases hneg : size.toInt ≤ 0
  · have hend : (0 : ULong) + size.signExtend 64 = size.signExtend 64 := BitVec.zero_add _
    have hle : (0 : ULong) ≤ size.signExtend 64 := Nat.zero_le _
    simp only [hneg, if_true, hend, hle, unlinkRg, freeRg, Option.bind_some, Option.map_some]
    exact ⟨_, rfl, hsbrk, fun hpos => absurd hneg (not_le.2 hpos)⟩
  · simp only [hneg, if_false, Option.map_some]
    exact ⟨_, rfl, hsbrk, fun _ => rfl⟩

end Mm

/-! ## Allocation and release -/

/-- A caller, and the entries of its region table that are live: allocated and not freed. -/
structure AreaState where
  c : Caller
  live : Fin pagingMaxSymtblSz → Bool

namespace AreaState

/-- A loaded process, with the devices it is given. -/
def start (mram activeMswp : Memphy) : AreaState where
  c := ⟨pageSize, Mm.initMm Mm.zeroed, mram, activeMswp⟩
  live := fun _ => false

inductive Op
  | liballoc (size : Addr) (regIndex : Fin pagingMaxSymtblSz)
  | libfree (regIndex : Addr)

/-- The live entries after `libfree` has returned 0. -/
def release (live : Fin pagingMaxSymtblSz → Bool) (regIndex : Addr) :
    Fin pagingMaxSymtblSz → Bool :=
  match getSymrgByid regIndex with
  | .entry i => Function.update live i false
  | _ => live

/-- One call; an allocation is made for a positive size and an entry that is not live. -/
def exec (st : AreaState) : Op → Option AreaState
  | .liballoc size regIndex =>
      if st.live regIndex = false ∧ size ≠ 0 then
        (st.c.liballoc size (BitVec.ofNat 32 regIndex.val)).map fun (ret, c) =>
          ⟨c, if ret = 0 then Function.update st.live regIndex true else st.live⟩
      else none
  | .libfree regIndex =>
      (st.c.libfree regIndex).map fun (ret, c) =>
        ⟨c, if ret = 0 then release st.live regIndex else st.live⟩

def Partitioned (st : AreaState) : Prop := st.c.mm.Partitioned fun i => st.live i = true

/-- The calls of a run: an allocation is for a positive size and an entry that is not live. -/
def Calls (st : AreaState) : Op → Prop
  | .liballoc size regIndex => st.live regIndex = false ∧ size ≠ 0
  | .libfree _ => True

/-- The call is no allocation, and frees nothing behind the table. -/
def NoAlloc (st : AreaState) : Op → Prop
  | .liballoc size regIndex => ¬ st.Calls (.liballoc size regIndex)
  | .libfree regIndex => regIndex ≠ 30#32

/-- The area of a process that holds no region. -/
structure Untouched (st : AreaState) : Prop where
  empty : st.c.mm.EmptyArea
  live : st.live = fun _ => false

theorem Untouched.partitioned {st : AreaState} (h : st.Untouched) : st.Partitioned := by
  simpa [Partitioned, h.live] using h.empty.partitioned

/-! ## Steps -/

/-- In the empty area there is nothing to free. -/
theorem free_empty {c c' : Caller} {rgid : Addr} {ret : Int} (h : c.mm.EmptyArea)
    (hfree : c.free rgid = some (ret, c')) : ret = -1 ∧ c' = c := by
  cases Caller.free_freed hfree with
  | refused => exact ⟨rfl, rfl⟩
  | freed _ hvalid => exact absurd (Or.inr (Or.inr (h.symrgtbl _))) hvalid

/-- An allocation in the empty area succeeds, records a region that does not end at 0, and leaves
the break at 0.  If the size is a positive `int`, the area stays as it is. -/
theorem alloc_empty {c c' : Caller} {size : Addr} {i : Fin pagingMaxSymtblSz}
    {addr : Option Addr} (h : c.mm.EmptyArea) (hsize : size ≠ 0)
    (halloc : c.alloc (BitVec.ofNat 32 i.val) size = some (addr, c')) :
    addr.isSome ∧ (c'.mm.symrgtbl i).rgEnd ≠ 0 ∧ c'.mm.mmap.sbrk = 0 ∧
      (0 < size.toInt → c'.mm.EmptyArea) := by
  have hint := toInt_symId i
  -- the entry is recorded whether a region fits or not
  have hid : 0 ≤ (i.val : Int) ∧ i.val < pagingMaxSymtblSz := ⟨Int.natCast_nonneg _, i.isLt⟩
  rcases h.getFreeVmrgArea size with ⟨mm, hfind, hsbrk, hsame⟩
  simp only [Caller.alloc, hfind, hint, Int.toNat_natCast, dif_pos hid] at halloc
  obtain ⟨rfl, rfl⟩ := Prod.mk.inj (Option.some.inj halloc)
  refine ⟨rfl, ?_, hsbrk, fun hpos => ?_⟩
  · simp only [Mm.setRg, Function.update_self]
    split
    · -- sign extension keeps a number different from 0
      intro hzero
      apply hsize
      apply BitVec.eq_of_toInt_eq
      have hwide := congrArg BitVec.toInt hzero
      rwa [BitVec.toInt_signExtend_of_le (by decide)] at hwide
    · decide
  · obtain rfl := hsame hpos
    refine ⟨h.mmap, h.firstRg, fun j => ?_⟩
    simp only [Mm.setRg, not_le.2 hpos, if_false]
    by_cases hj : j = i
    · subst hj
      rw [Function.update_self]
      exact BitVec.le_refl _
    · rw [Function.update_of_ne hj]
      exact h.symrgtbl j

/-- A call that is no allocation has an outcome. -/
theorem answers_of_noAlloc {st : AreaState} {op : Op} (hok : st.NoAlloc op) :
    Lib.Answers exec Calls st op := by
  intro hcalls
  cases op with
  | liballoc size regIndex => exact absurd hcalls hok
  | libfree regIndex =>
      rw [exec, Option.isSome_map]
      exact (st.c.free_isSome_iff regIndex).2 hok

theorem exec_untouched {st st' : AreaState} {op : Op} (h : st.Untouched)
    (hstep : st.exec op = some st') (hok : st.NoAlloc op) : st'.Untouched := by
  cases op with
  | liballoc size regIndex =>
      have hno : ¬ (st.live regIndex = false ∧ size ≠ 0) := hok
      rw [exec, if_neg hno] at hstep
      cases hstep
  | libfree regIndex =>
      rcases Option.map_eq_some_iff.1 hstep with ⟨⟨ret, c⟩, hfree, rfl⟩
      rcases free_empty h.empty hfree with ⟨rfl, rfl⟩
      exact ⟨h.empty, h.live⟩

/-- Step lemma: the first allocation records a region outside the area. -/
theorem exec_alloc {st : AreaState} {op : Op} (h : st.Untouched)
    (hanswers : Lib.Answers exec Calls st op) (hbad : ¬ st.NoAlloc op) :
    ∃ st', st.exec op = some st' ∧ ¬ st'.Partitioned := by
  cases op with
  | libfree regIndex =>
      -- the entry behind the table: the call has no outcome
      have hsome := hanswers trivial
      rw [exec, Option.isSome_map] at hsome
      exact absurd ((st.c.free_isSome_iff regIndex).1 hsome) hbad
  | liballoc size regIndex =>
      have hcalls : st.live regIndex = false ∧ size ≠ 0 := not_not.1 hbad
      rcases Option.isSome_iff_exists.1 (hanswers hcalls) with ⟨st', hstep⟩
      refine ⟨st', hstep, ?_⟩
      rw [exec, if_pos hcalls] at hstep
      rcases Option.map_eq_some_iff.1 hstep with ⟨⟨ret, c⟩, hcall, rfl⟩
      rcases Option.map_eq_some_iff.1 hcall with ⟨⟨addr, c₁⟩, halloc, heq⟩
      -- the entry is live, and its region ends behind the break
      rcases alloc_empty h.empty hcalls.2 halloc with ⟨haddr, hend, hsbrk, _⟩
      obtain ⟨rfl, rfl⟩ := Prod.mk.inj heq
      rintro ⟨⟨nodes, hdivides⟩, _, _⟩
      have hregion : Mm.IsRegion (fun i => Function.update st.live regIndex true i = true) nodes
          (.sym regIndex) := Or.inl ⟨regIndex, rfl, by simp⟩
      simp only [haddr, if_true] at hdivides
      rcases hdivides.inside _ hregion with ⟨node, hnode, _, hle⟩
      obtain rfl := Option.some.inj hnode
      rw [hsbrk] at hle
      exact hend (BitVec.le_zero_iff.1 hle)

/-- A call with a size that is a positive `int`, if it is an allocation. -/
def PositiveSize : Op → Prop
  | .liballoc size _ => 0 < size.toInt
  | .libfree _ => True

/-- Step lemma: no such call gives the area a byte. -/
theorem exec_empty {st st' : AreaState} {op : Op} (h : st.c.mm.EmptyArea)
    (hstep : st.exec op = some st') (hpos : PositiveSize op) : st'.c.mm.EmptyArea := by
  cases op with
  | libfree regIndex =>
      rcases Option.map_eq_some_iff.1 hstep with ⟨⟨ret, c⟩, hfree, rfl⟩
      rcases free_empty h hfree with ⟨rfl, rfl⟩
      exact h
  | liballoc size regIndex =>
      simp only [exec] at hstep
      split at hstep
      · rename_i hnew
        rcases Option.map_eq_some_iff.1 hstep with ⟨⟨ret, c⟩, hcall, rfl⟩
        rcases Option.map_eq_some_iff.1 hcall with ⟨⟨addr, c₁⟩, halloc, heq⟩
        obtain ⟨_, rfl⟩ := Prod.mk.inj heq
        exact (alloc_empty h hnew.2 halloc).2.2.2 hpos
      · cases hstep

/-! ## Runs -/

/-- Run lemma: however often regions of positive sizes are allocated and freed, the area stays
empty and no region has a byte. -/
theorem area_stays_empty (mram activeMswp : Memphy) {ops : List Op}
    (h : ∀ op ∈ ops, PositiveSize op) :
    Lib.AllStates (fun st => st.c.mm.EmptyArea) (start mram activeMswp)
      (Lib.traceFn exec (start mram activeMswp) ops) := by
  apply Lib.allStates_traceFn (Q := PositiveSize)
  · exact exec_empty
  · exact h
  · exact Mm.initMm_emptyArea

/-- Every call of a run has an outcome and the area is partitioned in every state exactly when the
run allocates nothing, and frees nothing behind the table. -/
theorem partitioned_iff (mram activeMswp : Memphy) (ops : List Op) :
    Lib.AllStates Partitioned (start mram activeMswp)
          (Lib.traceFn exec (start mram activeMswp) ops) ∧
        Lib.Along exec (Lib.Answers exec Calls) (start mram activeMswp) ops ↔
      Lib.Along exec NoAlloc (start mram activeMswp) ops :=
  Lib.exact_along (I := Untouched) Untouched.partitioned (fun _ => answers_of_noAlloc)
    exec_untouched exec_alloc ⟨Mm.initMm_emptyArea, rfl⟩

/-- The first allocation of 300 bytes returns 0 and records the region from -1 to -1. -/
theorem first_alloc_not_inside :
    ¬ Lib.AllStates Partitioned (start (.create 1024 true) (.create 1024 true))
        (Lib.traceFn exec (start (.create 1024 true) (.create 1024 true))
          [.liballoc 300#32 0]) := by
  rintro ⟨_, hall⟩
  have hend : ∃ x ∈ Lib.traceFn exec (start (.create 1024 true) (.create 1024 true))
      [.liballoc 300#32 0], x.2.live 0 = true ∧ x.2.c.mm.symrgtbl 0 = ⟨-1, -1, none⟩ ∧
        x.2.c.mm.mmap.sbrk = 0 := by
    decide
  rcases hend with ⟨x, hmem, hlive, hregion, hsbrk⟩
  rcases (hall x hmem).divides with ⟨nodes, hdivides⟩
  -- -1 is the greatest address, and the break is 0
  rcases hdivides.inside _ (Or.inl ⟨0, rfl, hlive⟩) with ⟨node, hnode, _, hle⟩
  obtain rfl := Option.some.inj hnode
  rw [hregion, hsbrk] at hle
  revert hle
  decide

end AreaState
end MiniOs
