import MiniOs.Mem.Tables

/-!
# Taken — the pages that the allocation loop takes

The loop of `alloc_mem` takes the first free pages, as many as are needed (`allocLoop_eq`).  It
links them in `_mem_stat` in their order (`Linked`) and maps them there (`takePages_mapped`).
-/

namespace MiniOs

/-- The pages of a list that are free. -/
def freeOf (memStat : Fin numPages → MemStat) (is : List (Fin numPages)) : List (Fin numPages) :=
  is.filter fun k => (memStat k).proc = 0#32

/-- The first `n` free pages. -/
def nextFree (memStat : Fin numPages → MemStat) (n : Nat) : List (Fin numPages) :=
  (freeOf memStat (List.finRange numPages)).take n

/-- The body of the loop, for the pages of a list. -/
def takePages (retMem : Addr) (pages : List (Fin numPages)) (st : Alloc) : Alloc :=
  pages.foldl (fun st i => takePage retMem i st) st

theorem freeOf_takePage (retMem : Addr) {i : Fin numPages} {is : List (Fin numPages)} (st : Alloc)
    (hi : i ∉ is) : freeOf (takePage retMem i st).memStat is = freeOf st.memStat is := by
  refine List.filter_congr fun k hk => ?_
  have hki : k ≠ i := by
    rintro rfl
    exact hi hk
  rw [takePage_stat_of_ne retMem st hki]

/-- The loop takes the first free pages until it has `num`. -/
theorem allocLoop_eq (num : Addr) (retMem : Addr) :
    ∀ (is : List (Fin numPages)) (st : Alloc), is.Nodup → allocLoop num retMem is st =
      takePages retMem ((freeOf st.memStat is).take (num.toInt.toNat - st.allocated)) st := by
  intro is
  induction is with
  | nil =>
      intro st _
      simp [allocLoop, freeOf, takePages]
  | cons i is ih =>
      intro st hnodup
      rw [List.nodup_cons] at hnodup
      by_cases hmore : (st.allocated : Int) < num.toInt
      · by_cases hfree : (st.memStat i).proc = 0#32
        · -- `i` is the first free page, and one page less is needed
          have hneed : num.toInt.toNat - st.allocated =
              num.toInt.toNat - (takePage retMem i st).allocated + 1 := by
            simp only [takePage]
            omega
          have hhead : freeOf st.memStat (i :: is) = i :: freeOf st.memStat is := by
            simp [freeOf, hfree]
          rw [allocLoop, if_pos hmore, if_pos hfree, ih _ hnodup.2, freeOf_takePage _ _ hnodup.1,
            hhead, hneed, List.take_succ_cons]
          rfl
        · have hskip : freeOf st.memStat (i :: is) = freeOf st.memStat is := by
            simp [freeOf, hfree]
          rw [allocLoop, if_pos hmore, if_neg hfree, ih _ hnodup.2, hskip]
      · have hnone : num.toInt.toNat - st.allocated = 0 := by omega
        rw [allocLoop, if_neg hmore, hnone, List.take_zero]
        rfl

theorem mem_nextFree {memStat : Fin numPages → MemStat} {n : Nat} {k : Fin numPages}
    (h : k ∈ nextFree memStat n) : (memStat k).proc = 0#32 := by
  simpa using (List.mem_filter.1 (List.mem_of_mem_take h)).2

theorem nextFree_nodup (memStat : Fin numPages → MemStat) (n : Nat) :
    (nextFree memStat n).Nodup :=
  (List.take_sublist n _).nodup ((List.nodup_finRange _).filter _)

theorem nextFree_length {m : Mem} {n : Nat} (h : n ≤ freePageCount m) :
    (nextFree m.memStat n).length = n := by
  rw [nextFree, List.length_take, freeOf, ← List.countP_eq_length_filter]
  exact Nat.min_eq_left h

/-! ## Links -/

/-- The `next` field in front of a page, -1 if there is none. -/
def pageNumber : Option (Fin numPages) → Int
  | none => -1
  | some k => k.val

/-- What the loop has written when it has taken the pages `taken`. -/
structure Linked (st₀ : Alloc) (taken : List (Fin numPages)) (st : Alloc) : Prop where
  allocated : st.allocated = taken.length
  prevPage : st.prevPage = taken.getLast?
  pid : st.proc.pid = st₀.proc.pid
  nodup : taken.Nodup
  stat : ∀ k (h : k < taken.length),
    st.memStat taken[k] = ⟨st₀.proc.pid, k, pageNumber taken[k + 1]?⟩
  others : ∀ k, k ∉ taken → st.memStat k = st₀.memStat k

theorem linked_start {st : Alloc} (hnone : st.prevPage = none) (hzero : st.allocated = 0) :
    Linked st [] st :=
  ⟨hzero, hnone, rfl, List.nodup_nil, fun k h => absurd h (Nat.not_lt_zero k), fun _ _ => rfl⟩

theorem linkPrev_of_ne {memStat : Fin numPages → MemStat} {prev : Option (Fin numPages)}
    {k : Fin numPages} (i : Fin numPages) (h : prev ≠ some k) :
    linkPrev memStat prev i k = memStat k := by
  cases prev with
  | none => rfl
  | some j =>
      have hk : k ≠ j := fun heq => h (congrArg some heq.symm)
      exact Function.update_of_ne hk _ _

/-- Step lemma: the page behind the taken ones becomes the last one of the chain. -/
theorem Linked.takePage {st₀ st : Alloc} {taken : List (Fin numPages)} (h : Linked st₀ taken st)
    (retMem : Addr) {i : Fin numPages} (hi : i ∉ taken) :
    Linked st₀ (taken ++ [i]) (takePage retMem i st) := by
  -- the page before is the last one taken
  have hprev : ∀ k (hk : k < taken.length), st.prevPage = some taken[k] ↔ k + 1 = taken.length := by
    intro k hk
    rw [h.prevPage, List.getLast?_eq_getElem?, List.getElem?_eq_some_iff]
    constructor
    · rintro ⟨hlast, heq⟩
      have hsame := (h.nodup.getElem_inj_iff).1 heq
      omega
    · intro hlast
      have hindex : taken.length - 1 = k := by omega
      exact ⟨by omega, by simp only [hindex]⟩
  have hne : ∀ k (hk : k < taken.length), taken[k] ≠ i := by
    rintro k hk rfl
    exact hi (List.getElem_mem hk)
  refine ⟨by simp [MiniOs.takePage, h.allocated], by simp [MiniOs.takePage], h.pid, ?_,
    fun k hk => ?_, fun k hk => ?_⟩
  · rw [List.nodup_append]
    refine ⟨h.nodup, List.nodup_singleton i, fun x hx y hy hxy => ?_⟩
    obtain rfl := List.mem_singleton.1 hy
    exact hi (hxy ▸ hx)
  · by_cases hold : k < taken.length
    · rw [List.getElem_append_left hold]
      by_cases hlast : k + 1 = taken.length
      · -- it gets its successor
        have hnext : (taken ++ [i])[k + 1]? = some i := by
          rw [hlast]
          simp
        rw [hnext]
        simp only [MiniOs.takePage, (hprev k hold).2 hlast, linkPrev, Function.update_self,
          Function.update_of_ne (hne k hold), h.stat k hold, pageNumber]
      · have hnext : (taken ++ [i])[k + 1]? = taken[k + 1]? := by
          rw [List.getElem?_append_left (by omega)]
        rw [hnext]
        simp only [MiniOs.takePage]
        rw [linkPrev_of_ne _ fun heq => hlast ((hprev k hold).1 heq),
          Function.update_of_ne (hne k hold), h.stat k hold]
    · obtain rfl : k = taken.length := by
        simp only [List.length_append, List.length_singleton] at hk
        omega
      have hnew : (taken ++ [i])[taken.length] = i := by simp
      have hend : (taken ++ [i])[taken.length + 1]? = none := by simp
      have hnone : st.prevPage ≠ some i := by
        rw [h.prevPage]
        exact fun heq => hi (List.mem_of_getLast? heq)
      rw [hnew, hend]
      simp only [MiniOs.takePage]
      rw [linkPrev_of_ne _ hnone, Function.update_self, h.pid, h.allocated]
      rfl
  · simp only [List.mem_append, List.mem_singleton, not_or] at hk
    have hnone : st.prevPage ≠ some k := by
      rw [h.prevPage]
      exact fun heq => hk.1 (List.mem_of_getLast? heq)
    simp only [MiniOs.takePage]
    rw [linkPrev_of_ne _ hnone, Function.update_of_ne hk.2, h.others k hk.1]

/-- Run lemma: the pages of a list become a chain behind the ones already taken. -/
theorem Linked.takePages {st₀ : Alloc} (retMem : Addr) {pages : List (Fin numPages)} :
    ∀ {taken : List (Fin numPages)} {st : Alloc}, Linked st₀ taken st → (taken ++ pages).Nodup →
      Linked st₀ (taken ++ pages) (takePages retMem pages st) := by
  induction pages with
  | nil =>
      intro taken st h _
      simpa [MiniOs.takePages] using h
  | cons i pages ih =>
      intro taken st h hnodup
      have hi : i ∉ taken := fun hmem =>
        (List.nodup_append.1 hnodup).2.2 i hmem i (List.mem_cons_self ..) rfl
      have hsplit : taken ++ i :: pages = taken ++ [i] ++ pages := by simp
      rw [hsplit] at hnodup ⊢
      exact ih (h.takePage retMem hi) hnodup

/-! ## Mappings -/

/-- The virtual page that the loop maps when it has taken `n` pages. -/
def pageAt (retMem : Addr) (n : Nat) : Addr := retMem + BitVec.ofNat 32 n * pageSize

theorem takePage_lookup {memStat : Fin numPages → MemStat} {pid retMem : Addr} {top : Nat}
    {st : Alloc} (htable : TableOk memStat pid st.proc.pageTable (top + st.allocated))
    (hret : retMem.toNat = top * 1024) (hroom : top + st.allocated < 4194304) (i : Fin numPages) :
    lookup (takePage retMem i st).proc.pageTable (getFirstLv (pageAt retMem st.allocated))
      (getSecondLv (pageAt retMem st.allocated)) = some (BitVec.ofNat 32 i.val) := by
  have hnat := next_toNat hret hroom
  have hfirst := getFirstLv_toNat (pageAt retMem st.allocated)
  have hsecond := getSecondLv_toNat (pageAt retMem st.allocated)
  rw [pageAt] at *
  -- the page is the first one that is not mapped yet
  have hnew : lookup st.proc.pageTable
      (getFirstLv (retMem + BitVec.ofNat 32 st.allocated * pageSize))
      (getSecondLv (retMem + BitVec.ofNat 32 st.allocated * pageSize)) = none := by
    by_contra hsome
    have hmap := (htable.mapped _ _).1 (Option.isSome_iff_ne_none.2 hsome)
    omega
  simp [takePage, addPageMapping, lookup_addRow, hnew]

/-- Run lemma: the pages of a list get the next virtual pages in their order. -/
theorem takePages_mapped {pid retMem : Addr} {top : Nat} (hpid : pid ≠ 0#32) (htop : 1 ≤ top)
    (hret : retMem.toNat = top * 1024) {pages : List (Fin numPages)} :
    ∀ {st : Alloc}, pages.Nodup → (∀ k ∈ pages, (st.memStat k).proc = 0#32) →
      st.proc.pid = pid → top + st.allocated + pages.length ≤ 1024 →
      TableOk st.memStat pid st.proc.pageTable (top + st.allocated) →
      Grows st (takePages retMem pages st) ∧
        TableOk (takePages retMem pages st).memStat pid (takePages retMem pages st).proc.pageTable
          (top + st.allocated + pages.length) ∧
        ∀ k (h : k < pages.length), lookup (takePages retMem pages st).proc.pageTable
          (getFirstLv (pageAt retMem (st.allocated + k)))
          (getSecondLv (pageAt retMem (st.allocated + k))) =
            some (BitVec.ofNat 32 pages[k].val) := by
  induction pages with
  | nil =>
      intro st _ _ _ _ htable
      exact ⟨Grows.refl st, htable, fun k h => absurd h (Nat.not_lt_zero k)⟩
  | cons i pages ih =>
      intro st hnodup hfree hproc hroom htable
      rw [List.nodup_cons] at hnodup
      rw [List.length_cons] at hroom
      have hi := hfree i (List.mem_cons_self ..)
      have htable' := htable.takePage hpid htop hret (by omega) hproc hi
      have hfree' : ∀ k ∈ pages, ((takePage retMem i st).memStat k).proc = 0#32 := by
        intro k hk
        have hki : k ≠ i := by
          rintro rfl
          exact hnodup.1 hk
        rw [takePage_stat_of_ne retMem st hki]
        exact hfree k (List.mem_cons_of_mem i hk)
      have hallocated : (takePage retMem i st).allocated = st.allocated + 1 := rfl
      rcases ih hnodup.2 hfree' hproc (by omega) htable' with ⟨hgrows, hdone, hmapped⟩
      have hrun : takePages retMem (i :: pages) st =
          takePages retMem pages (takePage retMem i st) := rfl
      rw [hrun]
      refine ⟨(takePage_grows retMem hi).trans hgrows, ?_, fun k hk => ?_⟩
      · rw [hallocated] at hdone
        have hlen : top + st.allocated + (i :: pages).length =
            top + (st.allocated + 1) + pages.length := by
          rw [List.length_cons]
          omega
        rw [hlen]
        exact hdone
      · cases k with
        | zero => exact hgrows.keeps _ _ _ (takePage_lookup htable hret (by omega) i)
        | succ k =>
            have hstep := hmapped k (by simpa using hk)
            rw [hallocated, Nat.add_assoc, Nat.add_comm 1] at hstep
            exact hstep

/-! ## The two outcomes -/

/-- The loop of a successful `alloc_mem`, from its start. -/
def allocDone (m : Mem) (size : Addr) (proc : MemProc) : Alloc :=
  takePages proc.bp (nextFree m.memStat (pagesFor size).toNat)
    ⟨0, none, m.memStat, { proc with bp := proc.bp + pagesFor size * pageSize }⟩

theorem freePageCount_le (m : Mem) : freePageCount m ≤ 1024 := by
  have hlen := List.countP_le_length (p := fun i => decide ((m.memStat i).proc = 0#32))
    (l := List.finRange numPages)
  simpa [freePageCount] using hlen

/-- Where the second test fails, the sum of the first one does not wrap around. -/
theorem newBreak_toNat {proc : MemProc} {top n : Nat} {num : Addr} (hnum : num.toNat = n)
    (hbp : proc.bp.toNat = top * 1024) (hmax : top ≤ 1024) (hn : n ≤ 1024) :
    (proc.bp + num * pageSize).toNat = (top + n) * 1024 := by
  have hcast : num = BitVec.ofNat 32 n := by
    rw [← hnum]
    simp
  rw [hcast]
  exact next_toNat hbp (by omega)

theorem allocMem_fails {m : Mem} {size : Addr} {proc : MemProc} {top : Nat}
    (hbp : proc.bp.toNat = top * 1024) (hmax : top ≤ 1024)
    (h : ¬ ((pagesFor size).toNat ≤ freePageCount m ∧ top + (pagesFor size).toNat ≤ 1024)) :
    allocMem m size proc = (0, m, proc) := by
  have hcount := freePageCount_le m
  have hfail : ramSize < proc.bp + pagesFor size * pageSize ∨
      freePageCount m < (pagesFor size).toNat := by
    by_cases hfree : (pagesFor size).toNat ≤ freePageCount m
    · left
      have hnext := newBreak_toNat rfl hbp hmax (hfree.trans hcount)
      have hram : ramSize.toNat = 1048576 := rfl
      rw [BitVec.lt_def, hnext, hram]
      omega
    · exact Or.inr (not_le.1 hfree)
  rw [allocMem, if_pos hfail]

theorem allocMem_takes {m : Mem} {size : Addr} {proc : MemProc} {top : Nat}
    (hbp : proc.bp.toNat = top * 1024) (hmax : top ≤ 1024)
    (hfree : (pagesFor size).toNat ≤ freePageCount m) (hroom : top + (pagesFor size).toNat ≤ 1024) :
    allocMem m size proc =
      (proc.bp, ⟨m.ram, (allocDone m size proc).memStat⟩, (allocDone m size proc).proc) := by
  have hnext := newBreak_toNat rfl hbp hmax (hfree.trans (freePageCount_le m))
  have hram : ramSize.toNat = 1048576 := rfl
  have hpass : ¬ (ramSize < proc.bp + pagesFor size * pageSize ∨
      freePageCount m < (pagesFor size).toNat) := by
    rw [BitVec.lt_def, hnext, hram]
    omega
  -- `(int)num_pages` is not negative
  have hint : (pagesFor size).toInt.toNat = (pagesFor size).toNat := by
    rw [BitVec.toInt_eq_toNat_of_lt (by omega), Int.toNat_natCast]
  have hloop := allocLoop_eq (pagesFor size) proc.bp (List.finRange numPages)
    ⟨0, none, m.memStat, { proc with bp := proc.bp + pagesFor size * pageSize }⟩
    (List.nodup_finRange _)
  simp only [hint, Nat.sub_zero] at hloop
  simp only [allocMem, if_neg hpass, hloop]
  rfl

/-- A successful allocation links its pages and maps them behind the break. -/
theorem allocDone_spec {m : Mem} {size : Addr} {proc : MemProc} {top : Nat}
    (hpid : proc.pid ≠ 0#32) (htop : 1 ≤ top) (hbp : proc.bp.toNat = top * 1024)
    (htable : TableOk m.memStat proc.pid proc.pageTable top)
    (hfree : (pagesFor size).toNat ≤ freePageCount m) (hroom : top + (pagesFor size).toNat ≤ 1024) :
    Linked ⟨0, none, m.memStat, { proc with bp := proc.bp + pagesFor size * pageSize }⟩
        (nextFree m.memStat (pagesFor size).toNat) (allocDone m size proc) ∧
      Grows ⟨0, none, m.memStat, { proc with bp := proc.bp + pagesFor size * pageSize }⟩
        (allocDone m size proc) ∧
      TableOk (allocDone m size proc).memStat proc.pid (allocDone m size proc).proc.pageTable
        (top + (pagesFor size).toNat) ∧
      ∀ k (h : k < (nextFree m.memStat (pagesFor size).toNat).length),
        lookup (allocDone m size proc).proc.pageTable (getFirstLv (pageAt proc.bp k))
          (getSecondLv (pageAt proc.bp k)) =
            some (BitVec.ofNat 32 (nextFree m.memStat (pagesFor size).toNat)[k].val) := by
  have hnodup := nextFree_nodup m.memStat (pagesFor size).toNat
  have hlen := nextFree_length hfree
  refine ⟨(linked_start rfl rfl).takePages proc.bp hnodup, ?_⟩
  let start : Alloc :=
    ⟨0, none, m.memStat, { proc with bp := proc.bp + pagesFor size * pageSize }⟩
  have hstart :
      top + start.allocated + (nextFree m.memStat (pagesFor size).toNat).length ≤ 1024 := by
    simpa [hlen, start] using hroom
  have hmapped := @takePages_mapped proc.pid proc.bp top hpid htop hbp _ start hnodup
    (fun k hk => mem_nextFree hk) rfl hstart htable
  simp only [hlen, start, Nat.zero_add, Nat.add_zero] at hmapped
  refine ⟨hmapped.1, hmapped.2.1, fun k hk => hmapped.2.2 k ?_⟩
  rwa [hlen] at hk

/-- `alloc_mem` of a process with `top - 1` pages fails and changes nothing, or it gives the
process `num` more pages, free ones before. -/
theorem allocMem_spec {m : Mem} {proc : MemProc} (size : Addr) {top : Nat}
    (hpid : proc.pid ≠ 0#32) (htop : 1 ≤ top) (hmax : top ≤ 1024)
    (hbp : proc.bp.toNat = top * 1024) (htable : TableOk m.memStat proc.pid proc.pageTable top) :
    allocMem m size proc = (0, m, proc) ∨
      ∃ (st : Alloc) (top' : Nat), allocMem m size proc = (proc.bp, ⟨m.ram, st.memStat⟩, st.proc) ∧
        top ≤ top' ∧ top' ≤ 1024 ∧ st.proc.bp.toNat = top' * 1024 ∧
        TableOk st.memStat proc.pid st.proc.pageTable top' ∧
        Grows ⟨0, none, m.memStat, { proc with bp := st.proc.bp }⟩ st := by
  by_cases h : (pagesFor size).toNat ≤ freePageCount m ∧ top + (pagesFor size).toNat ≤ 1024
  · obtain ⟨hfree, hroom⟩ := h
    have hok := allocMem_takes hbp hmax hfree hroom
    rcases allocDone_spec hpid htop hbp htable hfree hroom with ⟨_, hgrows, hdone, _⟩
    have hnext := newBreak_toNat rfl hbp hmax (hfree.trans (freePageCount_le m))
    have hbp' : (allocDone m size proc).proc.bp = proc.bp + pagesFor size * pageSize := hgrows.bp
    refine Or.inr ⟨_, top + (pagesFor size).toNat, hok, by omega, hroom, ?_, hdone, ?_⟩
    · rw [hbp', hnext]
    · rw [hbp']
      exact hgrows
  · exact Or.inl (allocMem_fails hbp hmax h)

end MiniOs
