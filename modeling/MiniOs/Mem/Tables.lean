import Mathlib.Data.BitVec
import MiniOs.Lib.Count
import MiniOs.Mem.Mem

/-!
# Tables — what the page tables of `mem.c` translate

`TableOk` describes one page table: it maps the pages from 1 up to a bound and no other, to
physical pages of its owner, no two to the same one.  `takePage` extends the bound by one page
(`TableOk.takePage`).
-/

namespace MiniOs

/-! ## Indices -/

theorem getOffset_toNat (a : Addr) : (getOffset a).toNat = a.toNat % 1024 := by
  have hmask : ~~~((~~~0#32) <<< 10) = (1023#32) := by decide
  rw [getOffset, hmask, BitVec.toNat_and]
  exact Nat.and_two_pow_sub_one_eq_mod a.toNat 10

theorem getFirstLv_toNat (a : Addr) : (getFirstLv a).toNat = a.toNat / 32768 := by
  simp [getFirstLv, BitVec.toNat_ushiftRight, Nat.shiftRight_eq_div_pow]

theorem getSecondLv_toNat (a : Addr) : (getSecondLv a).toNat = a.toNat / 1024 % 32 := by
  have ha := a.isLt
  have hfirst := getFirstLv_toNat a
  simp only [getSecondLv, BitVec.toNat_sub, BitVec.toNat_shiftLeft, BitVec.toNat_ushiftRight,
    Nat.shiftRight_eq_div_pow, Nat.shiftLeft_eq, hfirst]
  omega

/-- The physical address of an offset in page `k`. -/
theorem physical_toNat {k : Nat} (hk : k < 1024) (a : Addr) :
    ((BitVec.ofNat 32 k <<< 10) ||| getOffset a).toNat = k * 1024 + a.toNat % 1024 := by
  have hoff : a.toNat % 1024 < 2 ^ 10 := Nat.mod_lt _ (by decide)
  have hk' : k % 2 ^ 32 = k := Nat.mod_eq_of_lt (by omega)
  -- the page number is small enough for the shift not to lose bits
  have hshift : (BitVec.ofNat 32 k <<< 10).toNat = k <<< 10 := by
    rw [BitVec.toNat_shiftLeft, BitVec.toNat_ofNat, hk', Nat.mod_eq_of_lt]
    rw [Nat.shiftLeft_eq]
    omega
  -- page and offset have no bit in common, so `|` is `+`
  calc
    ((BitVec.ofNat 32 k <<< 10) ||| getOffset a).toNat = k <<< 10 ||| a.toNat % 1024 := by
      rw [BitVec.toNat_or, hshift, getOffset_toNat]
    _ = k <<< 10 + a.toNat % 1024 := (Nat.shiftLeft_add_eq_or_of_lt hoff k).symm
    _ = k * 1024 + a.toNat % 1024 := by rw [Nat.shiftLeft_eq]

/-- The two indices and the offset determine the address. -/
theorem addr_ext {a b : Addr} (hfirst : getFirstLv a = getFirstLv b)
    (hsecond : getSecondLv a = getSecondLv b) (hoff : a.toNat % 1024 = b.toNat % 1024) : a = b := by
  have h₁ := congrArg BitVec.toNat hfirst
  have h₂ := congrArg BitVec.toNat hsecond
  rw [getFirstLv_toNat, getFirstLv_toNat] at h₁
  rw [getSecondLv_toNat, getSecondLv_toNat] at h₂
  apply BitVec.eq_of_toNat_eq
  omega

/-! ## Lookup -/

/-- The physical page that the two levels hold for a pair of indices. -/
def lookup (t : PageTable) (firstLv secondLv : Addr) : Option Addr :=
  (getTransTable firstLv t).bind (findPage secondLv)

theorem translate_eq (a : Addr) (proc : MemProc) :
    translate a proc = (lookup proc.pageTable (getFirstLv a) (getSecondLv a)).map
      fun pIndex : Addr => (pIndex <<< 10) ||| getOffset a := by
  unfold translate lookup
  split
  · rename_i hnone
    simp [hnone]
  · rename_i transTable hsome
    simp only [hsome, Option.bind_some]
    split
    · rename_i hpage
      simp [hpage]
    · rename_i pIndex hpage
      simp [hpage]

theorem findPage_append (s : Addr) (xs ys : List TransEntry) :
    findPage s (xs ++ ys) = (findPage s xs).or (findPage s ys) := by
  induction xs with
  | nil => simp [findPage]
  | cons x xs ih =>
      by_cases hx : x.vIndex = s
      · simp [findPage, hx]
      · simp [findPage, hx, ih]

/-- A new row is found by its own indices, and an older one first. -/
theorem lookup_addRow (t : PageTable) (f s p f' s' : Addr) :
    lookup (addRow f s p t) f' s' =
      (lookup t f' s').or (if f = f' ∧ s = s' then some p else none) := by
  induction t with
  | nil =>
      by_cases hf : f = f'
      · simp [lookup, addRow, getTransTable, findPage, hf]
      · simp [lookup, addRow, getTransTable, hf]
  | cons row rows ih =>
      -- the row goes into the first table of its index, which is also the one that is searched
      by_cases hrow : row.vIndex = f
      · by_cases hf : f = f'
        · simp [lookup, addRow, getTransTable, hrow, hf, findPage_append, findPage]
        · have hrow' : row.vIndex ≠ f' := hrow ▸ hf
          simp [lookup, addRow, getTransTable, hrow, hf]
      · by_cases hf : row.vIndex = f'
        · have hne : f ≠ f' := fun heq => hrow (hf.trans heq.symm)
          simp [lookup, addRow, getTransTable, hf, hne, hne.symm]
        · have hstep : lookup (row :: rows) f' s' = lookup rows f' s' := by
            simp [lookup, getTransTable, hf]
          have hstep' : lookup (addRow f s p (row :: rows)) f' s' =
              lookup (addRow f s p rows) f' s' := by
            simp [lookup, addRow, getTransTable, hrow, hf]
          rw [hstep, hstep', ih]

theorem lookup_addRow_cases {t : PageTable} {f s p f' s' q : Addr}
    (h : lookup (addRow f s p t) f' s' = some q) :
    lookup t f' s' = some q ∨ (q = p ∧ f = f' ∧ s = s') := by
  rw [lookup_addRow] at h
  cases hlook : lookup t f' s' with
  | some r => exact Or.inl (by simpa [hlook] using h)
  | none =>
      simp only [hlook, Option.none_or] at h
      split at h
      · rename_i heq
        exact Or.inr ⟨(Option.some.inj h).symm, heq⟩
      · cases h

/-! ## Rows -/

/-- No index occurs twice in a table, and no second-level table is empty. -/
structure RowsOk (t : PageTable) : Prop where
  first : (t.map PageEntry.vIndex).Nodup
  second : ∀ row ∈ t, row.nextLv ≠ [] ∧ (row.nextLv.map TransEntry.vIndex).Nodup

theorem findPage_eq_none_iff {s : Addr} {xs : List TransEntry} :
    findPage s xs = none ↔ s ∉ xs.map TransEntry.vIndex := by
  induction xs with
  | nil => simp [findPage]
  | cons x xs ih =>
      by_cases hx : x.vIndex = s
      · simp [findPage, hx]
      · have hx' : ¬ s = x.vIndex := fun heq => hx heq.symm
        simp [findPage, hx, hx', ih]

theorem mem_addRow {f s p x : Addr} {t : PageTable}
    (h : x ∈ (addRow f s p t).map PageEntry.vIndex) : x = f ∨ x ∈ t.map PageEntry.vIndex := by
  induction t with
  | nil => simpa [addRow] using h
  | cons row rows ih =>
      by_cases hrow : row.vIndex = f
      · simp only [addRow, hrow, if_true, List.map_cons, List.mem_cons] at h ⊢
        tauto
      · simp only [addRow, hrow, if_false, List.map_cons, List.mem_cons] at h ⊢
        rcases h with h | h
        · exact Or.inr (Or.inl h)
        · rcases ih h with h | h
          · exact Or.inl h
          · exact Or.inr (Or.inr h)

theorem RowsOk.addRow {f s p : Addr} {t : PageTable} (h : RowsOk t) (hnew : lookup t f s = none) :
    RowsOk (addRow f s p t) := by
  induction t with
  | nil => exact ⟨by simp [MiniOs.addRow], by simp [MiniOs.addRow]⟩
  | cons row rows ih =>
      have hfirst := List.nodup_cons.1 (List.map_cons ▸ h.first)
      have hrows : RowsOk rows :=
        ⟨hfirst.2, fun r hr => h.second r (List.mem_cons_of_mem row hr)⟩
      by_cases hrow : row.vIndex = f
      · -- the table exists: its new row has an index that no other row has
        have hpage : findPage s row.nextLv = none := by
          simpa [lookup, getTransTable, hrow] using hnew
        have hfresh := findPage_eq_none_iff.1 hpage
        simp only [MiniOs.addRow, hrow, if_true]
        refine ⟨by simpa [hrow] using h.first, fun r hr => ?_⟩
        rcases List.mem_cons.1 hr with rfl | hr
        · have hsecond := (h.second row (List.mem_cons_self ..)).2
          refine ⟨by simp, ?_⟩
          rw [List.map_append, List.map_singleton, List.nodup_append]
          refine ⟨hsecond, List.nodup_singleton _, fun x hx y hy hxy => ?_⟩
          obtain rfl := List.mem_singleton.1 hy
          exact hfresh (hxy ▸ hx)
        · exact hrows.second r hr
      · -- the table is further down, or is made at the end
        have hrest : lookup rows f s = none := by
          simpa [lookup, getTransTable, hrow] using hnew
        have hrec := ih hrows hrest
        simp only [MiniOs.addRow, hrow, if_false]
        refine ⟨?_, fun r hr => ?_⟩
        · rw [List.map_cons, List.nodup_cons]
          refine ⟨fun hmem => ?_, hrec.first⟩
          rcases mem_addRow hmem with heq | hold
          · exact hrow heq
          · exact hfirst.1 hold
        · rcases List.mem_cons.1 hr with rfl | hr
          · exact h.second r (List.mem_cons_self ..)
          · exact hrec.second r hr

theorem RowsOk.getTransTable {t : PageTable} (h : RowsOk t) {row : PageEntry} (hrow : row ∈ t) :
    getTransTable row.vIndex t = some row.nextLv := by
  induction t with
  | nil => cases hrow
  | cons r rows ih =>
      have hfirst := List.nodup_cons.1 (List.map_cons ▸ h.first)
      rcases List.mem_cons.1 hrow with rfl | hmem
      · simp [MiniOs.getTransTable]
      · have hne : r.vIndex ≠ row.vIndex := by
          intro heq
          exact hfirst.1 (heq ▸ List.mem_map_of_mem hmem)
        simpa [MiniOs.getTransTable, hne] using
          ih ⟨hfirst.2, fun r' hr' => h.second r' (List.mem_cons_of_mem r hr')⟩ hmem

theorem length_le_of_lt {l : List Addr} (hnodup : l.Nodup) (h : ∀ x ∈ l, x.toNat < 32) :
    l.length ≤ 32 := by
  have hmap : (l.map BitVec.toNat).Nodup :=
    hnodup.map fun x y hxy => BitVec.eq_of_toNat_eq hxy
  have hlen := Lib.length_le_of_nodup hmap fun n hn => by
    rcases List.mem_map.1 hn with ⟨x, hx, rfl⟩
    exact h x hx
  simpa using hlen

/-! ## Page tables -/

/-- The page table `t` of process `pid` maps the pages `1, …, top - 1`. -/
structure TableOk (memStat : Fin numPages → MemStat) (pid : Addr) (t : PageTable)
    (top : Nat) : Prop where
  mapped : ∀ f s, (lookup t f s).isSome ↔
    s.toNat < 32 ∧ 1 ≤ 32 * f.toNat + s.toNat ∧ 32 * f.toNat + s.toNat < top
  owned : ∀ f s p, lookup t f s = some p →
    ∃ k : Fin numPages, p = BitVec.ofNat 32 k.val ∧ (memStat k).proc = pid
  injective : ∀ f s f' s' p, lookup t f s = some p → lookup t f' s' = some p →
    f = f' ∧ s = s'
  rows : RowsOk t

theorem tableOk_nil (memStat : Fin numPages → MemStat) (pid : Addr) :
    TableOk memStat pid [] 1 := by
  refine ⟨fun f s => ?_, fun f s p h => ?_, fun f s f' s' p h => ?_, ⟨List.nodup_nil, by simp⟩⟩
  · simp only [lookup, getTransTable, Option.bind_none, Option.isSome_none]
    constructor
    · intro h
      cases h
    · omega
  · cases h
  · cases h

theorem ofNat_fin_injective {i j : Fin numPages}
    (h : BitVec.ofNat 32 i.val = BitVec.ofNat 32 j.val) : i = j := by
  have hnat := congrArg BitVec.toNat h
  have hi : i.val < 1024 := i.isLt
  have hj : j.val < 1024 := j.isLt
  simp only [BitVec.toNat_ofNat] at hnat
  apply Fin.ext
  omega

/-- The pages of the other processes are not free. -/
theorem TableOk.of_stat {memStat memStat' : Fin numPages → MemStat} {pid : Addr} {t : PageTable}
    {top : Nat} (h : TableOk memStat pid t top) (hpid : pid ≠ 0#32)
    (hstat : ∀ k, (memStat k).proc ≠ 0#32 → (memStat' k).proc = (memStat k).proc) :
    TableOk memStat' pid t top := by
  refine ⟨h.mapped, fun f s p hp => ?_, h.injective, h.rows⟩
  -- an owned page has a nonzero owner, so it keeps it
  rcases h.owned f s p hp with ⟨k, rfl, hk⟩
  exact ⟨k, rfl, (hstat k (hk ▸ hpid)).trans hk⟩

/-- Page number `top` has one pair of indices, that of its address. -/
theorem indices_of_page {a f s : Addr} {top : Nat} (ha : a.toNat = top * 1024)
    (hs : s.toNat < 32) (heq : 32 * f.toNat + s.toNat = top) :
    getFirstLv a = f ∧ getSecondLv a = s := by
  have hfirst := getFirstLv_toNat a
  have hsecond := getSecondLv_toNat a
  constructor
  · apply BitVec.eq_of_toNat_eq
    omega
  · apply BitVec.eq_of_toNat_eq
    omega

/-- The step of the allocation loop: the next virtual page gets a free physical page. -/
theorem TableOk.addRow {memStat memStat' : Fin numPages → MemStat} {pid a : Addr}
    {t : PageTable} {top : Nat} {i : Fin numPages} (h : TableOk memStat pid t top)
    (hpid : pid ≠ 0#32) (htop : 1 ≤ top) (ha : a.toNat = top * 1024)
    (hfree : (memStat i).proc = 0#32)
    (hi : (memStat' i).proc = pid) (hstat : ∀ k, k ≠ i → (memStat' k).proc = (memStat k).proc) :
    TableOk memStat' pid (addRow (getFirstLv a) (getSecondLv a) (BitVec.ofNat 32 i.val) t)
      (top + 1) := by
  have hfirst := getFirstLv_toNat a
  have hsecond := getSecondLv_toNat a
  -- a page of the table is not the free one
  have hold : ∀ f s, lookup t f s ≠ some (BitVec.ofNat 32 i.val) := by
    intro f s hp
    rcases h.owned f s _ hp with ⟨k, hk, hproc⟩
    obtain rfl := ofNat_fin_injective hk
    exact hpid (hproc ▸ hfree)
  -- the pages of the table end before `top`
  have hnew : lookup t (getFirstLv a) (getSecondLv a) = none := by
    by_contra hsome
    have hmap := (h.mapped _ _).1 (Option.isSome_iff_ne_none.2 hsome)
    omega
  refine ⟨fun f s => ?_, fun f s p hp => ?_, fun f s f' s' p hp hp' => ?_, h.rows.addRow hnew⟩
  · rw [lookup_addRow, Option.isSome_or, Bool.or_eq_true, h.mapped f s]
    constructor
    · rintro (hmap | hnew)
      · omega
      · split at hnew
        · rename_i heq
          rw [← heq.1, ← heq.2]
          omega
        · cases hnew
    · rintro ⟨hs, hone, hlt⟩
      rcases Nat.lt_succ_iff_lt_or_eq.1 hlt with hlt | heq
      · exact Or.inl ⟨hs, hone, hlt⟩
      · exact Or.inr (by simp [indices_of_page ha hs heq])
  · rcases lookup_addRow_cases hp with hp | ⟨rfl, _⟩
    · rcases h.owned f s p hp with ⟨k, rfl, hk⟩
      have hki : k ≠ i := by
        rintro rfl
        exact hpid (hk ▸ hfree)
      exact ⟨k, rfl, (hstat k hki).trans hk⟩
    · exact ⟨i, rfl, hi⟩
  · rcases lookup_addRow_cases hp with hq | ⟨rfl, rfl, rfl⟩
    · rcases lookup_addRow_cases hp' with hq' | ⟨rfl, _⟩
      · exact h.injective f s f' s' p hq hq'
      · exact absurd hq (hold f s)
    · rcases lookup_addRow_cases hp' with hq' | ⟨_, hf, hs⟩
      · exact absurd hq' (hold f' s')
      · exact ⟨hf, hs⟩

/-- With at most 1024 pages, neither level has more than 32 rows, the size of both arrays. -/
theorem TableOk.rows_le {memStat : Fin numPages → MemStat} {pid : Addr} {t : PageTable}
    {top : Nat} (h : TableOk memStat pid t top) (htop : top ≤ 1024) :
    t.length ≤ 32 ∧ ∀ row ∈ t, row.nextLv.length ≤ 32 := by
  -- every row translates a page below 1024, so both of its indices are below 32
  have hentry : ∀ row ∈ t, ∀ s ∈ row.nextLv.map TransEntry.vIndex,
      (lookup t row.vIndex s).isSome := by
    intro row hrow s hs
    rw [lookup, h.rows.getTransTable hrow, Option.bind_some, Option.isSome_iff_ne_none]
    exact fun hnone => findPage_eq_none_iff.1 hnone hs
  constructor
  · have hlen := length_le_of_lt h.rows.first fun x hx => ?_
    · simpa using hlen
    · rcases List.mem_map.1 hx with ⟨row, hrow, rfl⟩
      rcases List.exists_mem_of_ne_nil _ (h.rows.second row hrow).1 with ⟨e, he⟩
      have hmap := (h.mapped _ _).1 (hentry row hrow e.vIndex (List.mem_map_of_mem he))
      omega
  · intro row hrow
    have hlen := length_le_of_lt (h.rows.second row hrow).2 fun s hs =>
      ((h.mapped _ _).1 (hentry row hrow s hs)).1
    simpa using hlen

/-! ## The allocation loop -/

@[simp] theorem linkPrev_proc (memStat : Fin numPages → MemStat) (prev : Option (Fin numPages))
    (i k : Fin numPages) : (linkPrev memStat prev i k).proc = (memStat k).proc := by
  cases prev with
  | none => rfl
  | some j =>
      by_cases hk : k = j
      · simp [linkPrev, hk]
      · simp [linkPrev, Function.update_of_ne hk]

/-- What the loop may change: free pages become pages of the process, the page table keeps its
entries and gets new ones for such pages only. -/
structure Grows (st st' : Alloc) : Prop where
  pid : st'.proc.pid = st.proc.pid
  bp : st'.proc.bp = st.proc.bp
  keeps : ∀ f s p, lookup st.proc.pageTable f s = some p → lookup st'.proc.pageTable f s = some p
  fresh : ∀ f s p, lookup st'.proc.pageTable f s = some p →
    lookup st.proc.pageTable f s = some p ∨
      ∃ k : Fin numPages, p = BitVec.ofNat 32 k.val ∧ (st.memStat k).proc = 0#32
  stat : ∀ k, (st'.memStat k).proc = (st.memStat k).proc ∨
    ((st.memStat k).proc = 0#32 ∧ (st'.memStat k).proc = st.proc.pid)

theorem Grows.refl (st : Alloc) : Grows st st :=
  ⟨rfl, rfl, fun _ _ _ h => h, fun _ _ _ h => Or.inl h, fun _ => Or.inl rfl⟩

theorem Grows.trans {st₁ st₂ st₃ : Alloc} (h : Grows st₁ st₂) (h' : Grows st₂ st₃) :
    Grows st₁ st₃ := by
  refine ⟨h'.pid.trans h.pid, h'.bp.trans h.bp, fun f s p hp => h'.keeps f s p (h.keeps f s p hp),
    fun f s p hp => ?_, fun k => ?_⟩
  · rcases h'.fresh f s p hp with hp | ⟨k, hk, hfree⟩
    · exact h.fresh f s p hp
    · refine Or.inr ⟨k, hk, ?_⟩
      rcases h.stat k with heq | ⟨hzero, _⟩
      · exact heq ▸ hfree
      · exact hzero
  · rcases h.stat k with heq | ⟨hzero, hpid⟩
    · rcases h'.stat k with heq' | ⟨hzero', hpid'⟩
      · exact Or.inl (heq'.trans heq)
      · exact Or.inr ⟨heq ▸ hzero', hpid'.trans h.pid⟩
    · rcases h'.stat k with heq' | ⟨_, hpid'⟩
      · exact Or.inr ⟨hzero, heq'.trans hpid⟩
      · exact Or.inr ⟨hzero, hpid'.trans h.pid⟩

theorem takePage_stat_self (retMem : Addr) (i : Fin numPages) (st : Alloc) :
    ((takePage retMem i st).memStat i).proc = st.proc.pid := by
  simp [takePage]

theorem takePage_stat_of_ne (retMem : Addr) {i k : Fin numPages} (st : Alloc) (h : k ≠ i) :
    ((takePage retMem i st).memStat k).proc = (st.memStat k).proc := by
  simp [takePage, Function.update_of_ne h]

theorem takePage_grows (retMem : Addr) {i : Fin numPages} {st : Alloc}
    (hfree : (st.memStat i).proc = 0#32) : Grows st (takePage retMem i st) := by
  refine ⟨rfl, rfl, fun f s p hp => ?_, fun f s p hp => ?_, fun k => ?_⟩
  · simp only [takePage, addPageMapping, lookup_addRow, hp, Option.some_or]
  · simp only [takePage, addPageMapping, lookup_addRow] at hp
    cases hlook : lookup st.proc.pageTable f s with
    | some q => exact Or.inl (by simpa [hlook] using hp)
    | none =>
        simp only [hlook, Option.none_or] at hp
        split at hp
        · exact Or.inr ⟨i, (Option.some.inj hp).symm, hfree⟩
        · cases hp
  · by_cases hk : k = i
    · subst hk
      exact Or.inr ⟨hfree, takePage_stat_self retMem k st⟩
    · exact Or.inl (takePage_stat_of_ne retMem st hk)

/-- The address that the loop maps next. -/
theorem next_toNat {retMem : Addr} {top n : Nat} (hret : retMem.toNat = top * 1024)
    (hroom : top + n < 4194304) :
    (retMem + BitVec.ofNat 32 n * pageSize).toNat = (top + n) * 1024 := by
  have hsize : pageSize.toNat = 1024 := rfl
  rw [BitVec.toNat_add, BitVec.toNat_mul, BitVec.toNat_ofNat, hret, hsize]
  -- nothing wraps around below 2^32
  have hn : n % 2 ^ 32 = n := Nat.mod_eq_of_lt (by omega)
  rw [hn]
  omega

/-- Step lemma for the loop: the table gets the page behind its last one. -/
theorem TableOk.takePage {retMem pid : Addr} {top : Nat} {st : Alloc}
    (h : TableOk st.memStat pid st.proc.pageTable (top + st.allocated)) (hpid : pid ≠ 0#32)
    (htop : 1 ≤ top) (hret : retMem.toNat = top * 1024) (hroom : top + st.allocated < 1024)
    (hproc : st.proc.pid = pid) {i : Fin numPages} (hfree : (st.memStat i).proc = 0#32) :
    TableOk (takePage retMem i st).memStat pid (takePage retMem i st).proc.pageTable
      (top + (takePage retMem i st).allocated) := by
  refine h.addRow hpid (by omega) (next_toNat hret (by omega)) hfree ?_ ?_
  · exact (takePage_stat_self retMem i st).trans hproc
  · exact fun k hk => takePage_stat_of_ne retMem st hk

end MiniOs
