import MiniOs.Mem.Limits

/-!
# Rows — the two-level table never overflows

`add_page_mapping` appends without a test of the bounds.  The rows stay inside both arrays as the
break never hands out a page twice: every page below it has one row, and no other page has any.
-/

namespace MiniOs

/-! ## Lookups and rows -/

theorem findPage_eq_some_iff {s p : Addr} {xs : List TransEntry}
    (hnodup : (xs.map TransEntry.vIndex).Nodup) : findPage s xs = some p ↔ ⟨s, p⟩ ∈ xs := by
  induction xs with
  | nil => simp [findPage]
  | cons x xs ih =>
      rw [List.map_cons, List.nodup_cons] at hnodup
      by_cases hx : x.vIndex = s
      · -- the other rows have other indices
        have hrest : ⟨s, p⟩ ∉ xs := fun hmem =>
          hnodup.1 (hx ▸ List.mem_map_of_mem (f := TransEntry.vIndex) hmem)
        rw [findPage, if_pos hx, List.mem_cons, or_iff_left hrest]
        constructor
        · rintro ⟨⟩
          exact hx ▸ rfl
        · rintro rfl
          rfl
      · have hne : (⟨s, p⟩ : TransEntry) ≠ x := by
          rintro rfl
          exact hx rfl
        rw [findPage, if_neg hx, ih hnodup.2, List.mem_cons, or_iff_right hne]

theorem getTransTable_mem {f : Addr} {t : PageTable} {transTable : List TransEntry}
    (h : getTransTable f t = some transTable) : ⟨f, transTable⟩ ∈ t := by
  induction t with
  | nil => cases h
  | cons row rows ih =>
      by_cases hrow : row.vIndex = f
      · rw [getTransTable, if_pos hrow] at h
        cases h
        exact hrow ▸ List.mem_cons_self ..
      · rw [getTransTable, if_neg hrow] at h
        exact List.mem_cons_of_mem row (ih h)

/-- A lookup finds the rows, and only them. -/
theorem RowsOk.lookup_iff {t : PageTable} (h : RowsOk t) {f s p : Addr} :
    lookup t f s = some p ↔ ∃ row ∈ t, row.vIndex = f ∧ ⟨s, p⟩ ∈ row.nextLv := by
  rw [lookup, Option.bind_eq_some_iff]
  constructor
  · rintro ⟨transTable, hfirst, hsecond⟩
    have hmem := getTransTable_mem hfirst
    exact ⟨_, hmem, rfl, (findPage_eq_some_iff (h.second _ hmem).2).1 hsecond⟩
  · rintro ⟨row, hrow, rfl, hmem⟩
    exact ⟨row.nextLv, h.getTransTable hrow, (findPage_eq_some_iff (h.second row hrow).2).2 hmem⟩

/-! ## Virtual pages -/

/-- The numbers of the virtual pages that have a row. -/
def virtualPages (t : PageTable) : List Nat :=
  t.flatMap fun row => row.nextLv.map fun e => 32 * row.vIndex.toNat + e.vIndex.toNat

/-- Both levels of the table of a process are inside their arrays, and hold the pages from 1 up to
the break, each of them once. -/
structure RowsFit (proc : MemProc) : Prop where
  firstLv_le : proc.pageTable.length ≤ 2 ^ 5
  firstLv_nodup : (proc.pageTable.map PageEntry.vIndex).Nodup
  firstLv_lt : ∀ row ∈ proc.pageTable, row.vIndex.toNat < 32
  secondLv_le : ∀ row ∈ proc.pageTable, row.nextLv.length ≤ 2 ^ 5
  secondLv_nodup : ∀ row ∈ proc.pageTable, (row.nextLv.map TransEntry.vIndex).Nodup
  secondLv_lt : ∀ row ∈ proc.pageTable, ∀ e ∈ row.nextLv, e.vIndex.toNat < 32
  pages : (virtualPages proc.pageTable).Perm (List.range' 1 (proc.bp.toNat / 1024 - 1))

namespace TableOk

variable {memStat : Fin numPages → MemStat} {pid : Addr} {t : PageTable} {top : Nat}

/-- Every row is one of the pages below `top`. -/
theorem row_lt (h : TableOk memStat pid t top) {row : PageEntry} (hrow : row ∈ t) {e : TransEntry}
    (he : e ∈ row.nextLv) : e.vIndex.toNat < 32 ∧
      1 ≤ 32 * row.vIndex.toNat + e.vIndex.toNat ∧
        32 * row.vIndex.toNat + e.vIndex.toNat < top := by
  have hlook : lookup t row.vIndex e.vIndex = some e.pIndex :=
    h.rows.lookup_iff.2 ⟨row, hrow, rfl, he⟩
  exact (h.mapped _ _).1 (hlook ▸ rfl)

theorem mem_virtualPages (h : TableOk memStat pid t top) (htop : top ≤ 1024) (v : Nat) :
    v ∈ virtualPages t ↔ 1 ≤ v ∧ v < top := by
  simp only [virtualPages, List.mem_flatMap, List.mem_map]
  constructor
  · rintro ⟨row, hrow, e, he, rfl⟩
    exact (h.row_lt hrow he).2
  · rintro ⟨hone, hlt⟩
    -- the page is mapped, so it has a row
    have hfirst : (BitVec.ofNat 32 (v / 32)).toNat = v / 32 := by
      rw [BitVec.toNat_ofNat]
      omega
    have hsecond : (BitVec.ofNat 32 (v % 32)).toNat = v % 32 := by
      rw [BitVec.toNat_ofNat]
      omega
    have hmapped := (h.mapped (BitVec.ofNat 32 (v / 32)) (BitVec.ofNat 32 (v % 32))).2 (by omega)
    rcases Option.isSome_iff_exists.1 hmapped with ⟨p, hp⟩
    rcases h.rows.lookup_iff.1 hp with ⟨row, hrow, hf, he⟩
    exact ⟨row, hrow, _, he, by rw [hf, hfirst, hsecond]; omega⟩

theorem virtualPages_nodup (h : TableOk memStat pid t top) : (virtualPages t).Nodup := by
  rw [virtualPages, List.nodup_flatMap]
  constructor
  · intro row hrow
    have hsecond := (h.rows.second row hrow).2
    refine List.Nodup.of_map (fun v => v - 32 * row.vIndex.toNat) ?_
    have hvalues : (row.nextLv.map fun e => 32 * row.vIndex.toNat + e.vIndex.toNat).map
        (fun v => v - 32 * row.vIndex.toNat) =
          (row.nextLv.map TransEntry.vIndex).map BitVec.toNat := by
      simp
    rw [hvalues]
    exact hsecond.map fun x y hxy => BitVec.eq_of_toNat_eq hxy
  · -- rows of different tables differ in the first index
    refine (List.pairwise_map.1 h.rows.first).imp_of_mem fun {row row'} hrow hrow' hne => ?_
    intro v hv hv'
    rcases List.mem_map.1 hv with ⟨e, he, rfl⟩
    rcases List.mem_map.1 hv' with ⟨e', he', heq⟩
    have hlt := (h.row_lt hrow he).1
    have hlt' := (h.row_lt hrow' he').1
    exact hne (BitVec.eq_of_toNat_eq (by omega))

end TableOk

theorem TableOk.rowsFit {memStat : Fin numPages → MemStat} {pid : Addr} {proc : MemProc}
    {top : Nat} (h : TableOk memStat pid proc.pageTable top) (htop : top ≤ 1024)
    (hbp : proc.bp.toNat = top * 1024) : RowsFit proc := by
  have hle := h.rows_le htop
  refine ⟨hle.1, h.rows.first, fun row hrow => ?_, hle.2,
    fun row hrow => (h.rows.second row hrow).2, fun row hrow e he => (h.row_lt hrow he).1, ?_⟩
  · rcases List.exists_mem_of_ne_nil _ (h.rows.second row hrow).1 with ⟨e, he⟩
    have hlt := h.row_lt hrow he
    omega
  · refine (List.perm_ext_iff_of_nodup h.virtualPages_nodup List.nodup_range').2 fun v => ?_
    rw [h.mem_virtualPages htop, List.mem_range'_1]
    omega

/-! ## Rows that are added -/

/-- `add_page_mapping` writes inside both arrays. -/
def AddFits (firstLv : Addr) (t : PageTable) : Prop :=
  match getTransTable firstLv t with
  | none => t.length < 2 ^ 5
  | some transTable => transTable.length < 2 ^ 5

/-- So does every call of the allocation loop. -/
def LoopFits (num : Addr) (retMem : Addr) : List (Fin numPages) → Alloc → Prop
  | [], _ => True
  | i :: is, st =>
      if (st.allocated : Int) < num.toInt then
        if (st.memStat i).proc = 0#32 then
          AddFits (getFirstLv (pageAt retMem st.allocated)) st.proc.pageTable ∧
            LoopFits num retMem is (takePage retMem i st)
        else LoopFits num retMem is st
      else True

/-- So does `alloc_mem`. -/
def AllocFits (m : Mem) (size : Addr) (proc : MemProc) : Prop :=
  let num := pagesFor size
  if ramSize < proc.bp + num * pageSize ∨ freePageCount m < num.toNat then True
  else LoopFits num proc.bp (List.finRange numPages)
    ⟨0, none, m.memStat, { proc with bp := proc.bp + num * pageSize }⟩

theorem addRow_of_none {f s p : Addr} {t : PageTable} (h : getTransTable f t = none) :
    addRow f s p t = t ++ [⟨f, [⟨s, p⟩]⟩] := by
  induction t with
  | nil => rfl
  | cons row rows ih =>
      by_cases hrow : row.vIndex = f
      · rw [getTransTable, if_pos hrow] at h
        cases h
      · rw [getTransTable, if_neg hrow] at h
        rw [addRow, if_neg hrow, ih h, List.cons_append]

theorem addRow_of_some {f s p : Addr} {t : PageTable} {transTable : List TransEntry}
    (h : getTransTable f t = some transTable) :
    ∃ row ∈ addRow f s p t, row.nextLv = transTable ++ [⟨s, p⟩] := by
  induction t with
  | nil => cases h
  | cons row rows ih =>
      by_cases hrow : row.vIndex = f
      · rw [getTransTable, if_pos hrow] at h
        cases h
        rw [addRow, if_pos hrow]
        exact ⟨_, List.mem_cons_self .., rfl⟩
      · rw [getTransTable, if_neg hrow] at h
        rcases ih h with ⟨row', hmem, hnext⟩
        rw [addRow, if_neg hrow]
        exact ⟨row', List.mem_cons_of_mem row hmem, hnext⟩

/-- If the rows fit afterwards, the new one was written inside the arrays. -/
theorem addFits_of_rows_le {f s p : Addr} {t : PageTable} (hfirst : (addRow f s p t).length ≤ 32)
    (hsecond : ∀ row ∈ addRow f s p t, row.nextLv.length ≤ 32) : AddFits f t := by
  unfold AddFits
  cases hfound : getTransTable f t with
  | none =>
      rw [addRow_of_none hfound, List.length_append, List.length_singleton] at hfirst
      exact Nat.lt_of_succ_le hfirst
  | some transTable =>
      rcases addRow_of_some (s := s) (p := p) hfound with ⟨row, hrow, hnext⟩
      have hle := hsecond row hrow
      rw [hnext, List.length_append, List.length_singleton] at hle
      exact Nat.lt_of_succ_le hle

theorem loopFits (num : Addr) {retMem pid : Addr} {top : Nat} (hpid : pid ≠ 0#32) (htop : 1 ≤ top)
    (hret : retMem.toNat = top * 1024) (hnum : top + num.toNat ≤ 1024) :
    ∀ (is : List (Fin numPages)) (st : Alloc), st.proc.pid = pid →
      TableOk st.memStat pid st.proc.pageTable (top + st.allocated) →
      LoopFits num retMem is st := by
  have hint : num.toInt = num.toNat := by
    rw [BitVec.toInt_eq_toNat_of_lt]
    omega
  intro is
  induction is with
  | nil => exact fun _ _ _ => trivial
  | cons i is ih =>
      intro st hproc htable
      rw [LoopFits]
      split
      · rename_i hmore
        split
        · rename_i hfree
          -- the table with the new row holds at most 1024 pages, so it fits
          have htable' := htable.takePage hpid htop hret (by omega) hproc hfree
          have hallocated : (takePage retMem i st).allocated = st.allocated + 1 := rfl
          have hle := htable'.rows_le (by omega)
          exact ⟨addFits_of_rows_le hle.1 hle.2, ih _ hproc htable'⟩
        · exact ih st hproc htable
      · trivial

theorem allocFits {m : Mem} {size : Addr} {proc : MemProc} {top : Nat} (hpid : proc.pid ≠ 0#32)
    (htop : 1 ≤ top) (hmax : top ≤ 1024) (hbp : proc.bp.toNat = top * 1024)
    (htable : TableOk m.memStat proc.pid proc.pageTable top) : AllocFits m size proc := by
  rw [AllocFits]
  split
  · trivial
  · rename_i hpass
    rw [not_or] at hpass
    have hfree := Nat.not_lt.1 hpass.2
    have hnext := newBreak_toNat rfl hbp hmax (hfree.trans (freePageCount_le m))
    have hram : ramSize.toNat = 1048576 := rfl
    have hroom := BitVec.le_def.1 (BitVec.not_lt.1 hpass.1)
    rw [hnext, hram] at hroom
    -- for any list of pages, so that the elaborator does not unfold the loop
    generalize List.finRange numPages = is
    exact loopFits (pagesFor size) hpid htop hbp (by omega) is _ rfl htable

/-! ## The system -/

namespace MemSys

variable {ι : Type} [DecidableEq ι]

/-- In every state reached from `init_mem`, and in every call of `alloc_mem` from there on. -/
theorem rows_fit (procs : Processes ι) (cs : List (MemCall ι)) :
    (∀ i, RowsFit (((init procs).calls cs).proc i)) ∧
      ∀ i size, AllocFits ((init procs).calls cs).mem size (((init procs).calls cs).proc i) := by
  rcases (inv_init procs).calls cs with ⟨top, h⟩
  refine ⟨fun i => (h.table i).rowsFit (h.top_le i) (h.bp i), fun i size => ?_⟩
  exact allocFits (h.pid_ne_zero i) (h.top_pos i) (h.top_le i) (h.bp i) (h.ownTable i)

end MemSys
end MiniOs
