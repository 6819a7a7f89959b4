import MiniOs.Paging.FreeList
import MiniOs.Paging.Frames

/-!
# Allocation — when `__alloc` does what it returns

A return value of 0 promises a region of the requested size: entered in the region table, inside
the area, apart from the other regions in use, on mapped pages.  A free region is handed out without
regard to the last three, a list without a fit is taken for a success, and a growth never enters its
region anywhere.
-/

namespace MiniOs

open Lib

/-! ## Regions in use -/

/-- The region is one that `__free` accepts. -/
def InUse (r : Span) : Prop := r.start < r.stop ∧ r.stop ≠ 2 ^ 64 - 1

/-- A region for entry `i`: inside the area, apart from the other entries in use, on pages that
there are. -/
structure Suits (lo hi : ℕ) (entries : Fin pagingMaxSymtblSz → Span)
    (has : Fin pagingMaxPgn → Prop) (i : Fin pagingMaxSymtblSz) (r : Span) : Prop where
  inside : lo ≤ r.start ∧ r.stop ≤ hi
  apart : ∀ j, j ≠ i → InUse (entries j) → r.Apart (entries j)
  mapped : ∀ a, r.start ≤ a → a < r.stop → has (pagingPgn (BitVec.ofNat 32 a))

theorem Suits.congr {lo hi : ℕ} {entries entries' : Fin pagingMaxSymtblSz → Span}
    {has has' : Fin pagingMaxPgn → Prop} {i : Fin pagingMaxSymtblSz} {r : Span}
    (hentries : ∀ j, j ≠ i → entries' j = entries j) (hhas : ∀ pgn, has' pgn ↔ has pgn) :
    Suits lo hi entries' has' i r ↔ Suits lo hi entries has i r := by
  constructor
  · rintro ⟨hin, hap, hmap⟩
    exact ⟨hin, fun j hj huse => hentries j hj ▸ hap j hj ((hentries j hj).symm ▸ huse),
      fun a hlo hhi => (hhas _).1 (hmap a hlo hhi)⟩
  · rintro ⟨hin, hap, hmap⟩
    exact ⟨hin, fun j hj huse => (hentries j hj).symm ▸ hap j hj (hentries j hj ▸ huse),
      fun a hlo hhi => (hhas _).2 (hmap a hlo hhi)⟩

namespace Mm

/-- The regions of the table. -/
def entries (mm : Mm) (j : Fin pagingMaxSymtblSz) : Span := (mm.symrgtbl j).span

def Present (mm : Mm) (pgn : Fin pagingMaxPgn) : Prop := pagingPagePresent (mm.pgd pgn) = true

/-! ## What the front of a region leaves -/

section

variable {mm mm' : Mm} {size : Addr} {prev : Option RgPtr} {p : RgPtr} {rg : VmRg}
  {bounds : ULong × ULong}

theorem entries_setRg_of_span {q : RgPtr} {node node' : VmRg} (h : mm.rg q = some node)
    (hspan : node'.span = node.span) : (mm.setRg q node').entries = mm.entries := by
  funext j
  cases q with
  | heap n => rfl
  | sym k =>
      obtain rfl : mm.symrgtbl k = node := Option.some.inj h
      by_cases hj : j = k
      · subst hj
        simp [entries, setRg, hspan]
      · simp [entries, setRg, Function.update_of_ne hj]

theorem unlinkRg_entries {next : Option RgPtr} (h : mm.unlinkRg prev next = some mm') :
    mm'.entries = mm.entries := by
  cases prev with
  | none =>
      obtain rfl := Option.some.inj h
      rfl
  | some q =>
      rcases Option.map_eq_some_iff.1 h with ⟨node, hnode, rfl⟩
      exact entries_setRg_of_span hnode rfl

theorem freeRg_entries (h : mm.freeRg p = some mm') : mm'.entries = mm.entries := by
  cases p with
  | sym i => cases h
  | heap n =>
      obtain rfl := Option.some.inj h
      rfl

/-- The region gets a new start; but for that the table stays. -/
theorem giveFront_entries (h : mm.giveFront size prev p rg = some (bounds, mm')) :
    mm'.entries =
      (mm.setRg p { rg with rgStart := rg.rgStart + size.signExtend 64 }).entries := by
  rcases (giveFront_cases h).2 with rfl | ⟨mm₁, hunlink, hfree⟩
  · rfl
  · exact (freeRg_entries hfree).trans (unlinkRg_entries hunlink)

end

/-! ## What a growth maps -/

/-- After the loop a page is present if it was before, or belongs to the range. -/
theorem mapFrames_present_iff (addr : Addr) (pgnum : ℤ) (pgn : Fin pagingMaxPgn) :
    ∀ (frames : List ℕ) (i : ℕ) (pgd : Fin pagingMaxPgn → Addr),
      ((i + frames.length : ℕ) : ℤ) ≤ pgnum →
      (pagingPagePresent (mapFrames addr pgnum i frames pgd pgn) = true ↔
        pagingPagePresent (pgd pgn) = true ∨ ∃ k, i ≤ k ∧ k < i + frames.length ∧
          pagingPgn (addr + BitVec.ofNat 32 k * pagingPagesz) = pgn) := by
  intro frames
  induction frames with
  | nil =>
      intro i pgd _
      constructor
      · exact fun h => Or.inl h
      · rintro (h | ⟨k, hik, hk, _⟩)
        · exact h
        · exact absurd hk (not_lt.2 hik)
  | cons f frames ih =>
      intro i pgd hnum
      simp only [List.length_cons] at hnum
      have hi : (i : ℤ) < pgnum := by omega
      simp only [mapFrames, hi, if_true]
      rw [ih (i + 1) _ (by omega), List.length_cons]
      -- the entry set in this round is present
      by_cases hpgn : pagingPgn (addr + BitVec.ofNat 32 i * pagingPagesz) = pgn
      · subst hpgn
        simp only [Function.update_self, pagingPagePresent_pteSetFpn, true_or, true_iff]
        exact Or.inr ⟨i, Nat.le_refl i, by omega, rfl⟩
      · rw [Function.update_of_ne (Ne.symm hpgn)]
        refine or_congr_right ⟨?_, ?_⟩
        · rintro ⟨k, hik, hk, heq⟩
          exact ⟨k, by omega, by omega, heq⟩
        · rintro ⟨k, hik, hk, heq⟩
          have hne : i ≠ k := by
            rintro rfl
            exact hpgn heq
          exact ⟨k, by omega, by omega, heq⟩

end Mm

namespace Caller

/-! ## The promise -/

/-- A region of `size` bytes at the address `a` is entered as region `i`, and suits it. -/
structure Allocated (c : Caller) (i : Fin pagingMaxSymtblSz) (size a : Addr) : Prop where
  start : ((c.mm.symrgtbl i).rgStart.toNat : ℤ) = a.toInt
  stop : (c.mm.symrgtbl i).rgEnd.toNat = (c.mm.symrgtbl i).rgStart.toNat + size.toNat
  suits : Suits c.mm.mmap.vmStart.toNat c.mm.mmap.vmEnd.toNat c.mm.entries c.mm.Present i
    (c.mm.symrgtbl i).span

/-- Region table, free list and break are what they were. -/
structure Refused (c c' : Caller) : Prop where
  symrgtbl : c'.mm.symrgtbl = c.mm.symrgtbl
  freeList : c'.mm.mmap.vmFreergList = c.mm.mmap.vmFreergList ∧ c'.mm.rgHeap = c.mm.rgHeap
  sbrk : c'.mm.mmap.sbrk = c.mm.mmap.sbrk

/-- `__alloc` returns, and does what its return value says. -/
def AllocMeets (c : Caller) (i : Fin pagingMaxSymtblSz) (size : Addr) : Prop :=
  ∃ addr c', c.alloc (BitVec.ofNat 32 i.val) size = some (addr, c') ∧
    match addr with
    | some a => c'.Allocated i size a
    | none => c.Refused c'

/-- The first free region with room suits entry `i`, and may be freed if it is used up. -/
def ReuseSuits (c : Caller) (i : Fin pagingMaxSymtblSz) (size : Addr) : Prop :=
  ∃ prev p rg, c.mm.found size = some (some (prev, p, rg)) ∧
    (rg.rgEnd ≤ rg.rgStart + size.signExtend 64 → ∃ n, p = .heap n) ∧
    rg.rgStart.toNat < 2 ^ 31 ∧ 0 ≤ size.toInt ∧
    Suits c.mm.mmap.vmStart.toNat c.mm.mmap.vmEnd.toNat
      (c.mm.setRg p { rg with rgStart := rg.rgStart + size.signExtend 64 }).entries c.mm.Present i
      ⟨rg.rgStart.toNat, rg.rgStart.toNat + size.toNat⟩

/-- The entry, which a growth does not set, is the region at the break already, and suits. -/
def GrowthSuits (c : Caller) (i : Fin pagingMaxSymtblSz) (size : Addr) : Prop :=
  ((c.mm.symrgtbl i).rgStart.toNat : ℤ) = (c.mm.mmap.sbrk.setWidth 32 : Addr).toInt ∧
  (c.mm.symrgtbl i).rgEnd.toNat = (c.mm.symrgtbl i).rgStart.toNat + size.toNat ∧
  Suits c.mm.mmap.vmStart.toNat (c.bp + pagingPageAlignsz (pagingPageAlignsz size)).toNat
    c.mm.entries
    (fun pgn => c.mm.Present pgn ∨
      ∃ k < (growPages (pagingPageAlignsz size)).toNat, c.growPgn k = pgn)
    i (c.mm.symrgtbl i).span

/-- A free region is found that suits; or the list is empty, and the area cannot grow, or grows and
the entry happens to be right. -/
def AllocRight (c : Caller) (i : Fin pagingMaxSymtblSz) (size : Addr) : Prop :=
  c.ReuseSuits i size ∨
    (c.mm.mmap.vmFreergList = none ∧
      (c.Grows 0#32 (pagingPageAlignsz size) → c.GrowthSuits i size))

/-! ## Reuse -/

theorem toInt_setWidth_eq_iff (x : ULong) :
    (x.toNat : ℤ) = (x.setWidth 32 : Addr).toInt ↔ x.toNat < 2 ^ 31 := by
  have hlt := x.isLt
  rw [BitVec.toInt_eq_toNat_cond, BitVec.toNat_setWidth]
  split <;> omega

theorem found_nil {c : Caller} (size : Addr) (h : c.mm.mmap.vmFreergList = none) :
    c.mm.found size = some none := by
  rw [Mm.found, h]
  rfl

/-- `__alloc` on a list that is not empty, for an entry of the table. -/
theorem alloc_reuse {c : Caller} (i : Fin pagingMaxSymtblSz) (size : Addr)
    (h : c.mm.mmap.vmFreergList ≠ none) :
    c.alloc (BitVec.ofNat 32 i.val) size =
      (c.mm.probed size).map fun r => (some (r.1.1.setWidth 32), c.enter r.2 i r.1) := by
  have hid : 0 ≤ (i.val : ℤ) ∧ i.val < pagingMaxSymtblSz := ⟨Int.natCast_nonneg _, i.isLt⟩
  rw [alloc_listed _ size h]
  simp only [toInt_symId, Int.toNat_natCast, dif_pos hid]

theorem enter_allocated_iff {c : Caller} {mm : Mm} {i : Fin pagingMaxSymtblSz}
    {newrg : ULong × ULong} {size : Addr} :
    (c.enter mm i newrg).Allocated i size (newrg.1.setWidth 32) ↔
      newrg.1.toNat < 2 ^ 31 ∧ newrg.2.toNat = newrg.1.toNat + size.toNat ∧
        Suits mm.mmap.vmStart.toNat mm.mmap.vmEnd.toNat mm.entries mm.Present i
          ⟨newrg.1.toNat, newrg.2.toNat⟩ := by
  have hentry := c.enter_symrgtbl mm i newrg
  have hothers : ∀ j, j ≠ i → (c.enter mm i newrg).mm.entries j = mm.entries j := by
    intro j hj
    simp [enter, Mm.entries, Mm.setRg, Function.update_of_ne hj]
  have hsuits : ∀ r, Suits mm.mmap.vmStart.toNat mm.mmap.vmEnd.toNat
      (c.enter mm i newrg).mm.entries (c.enter mm i newrg).mm.Present i r ↔
        Suits mm.mmap.vmStart.toNat mm.mmap.vmEnd.toNat mm.entries mm.Present i r :=
    fun r => Suits.congr hothers fun _ => Iff.rfl
  constructor
  · rintro ⟨hstart, hstop, hsuit⟩
    rw [hentry] at hstart hstop hsuit
    exact ⟨(toInt_setWidth_eq_iff _).1 hstart, hstop, (hsuits _).1 hsuit⟩
  · rintro ⟨hstart, hstop, hsuit⟩
    refine ⟨?_, ?_, ?_⟩
    · rw [hentry]
      exact (toInt_setWidth_eq_iff _).2 hstart
    · rw [hentry]
      exact hstop
    · rw [hentry]
      exact (hsuits _).2 hsuit

/-- What a region has to suit, before its front is given away and after it. -/
theorem reuse_step {c : Caller} {mm : Mm} {size : Addr} {prev : Option RgPtr} {p : RgPtr}
    {rg : VmRg} {bounds : ULong × ULong} {i : Fin pagingMaxSymtblSz}
    (h : c.mm.giveFront size prev p rg = some (bounds, mm)) :
    (∀ r, Suits mm.mmap.vmStart.toNat mm.mmap.vmEnd.toNat mm.entries mm.Present i r ↔
      Suits c.mm.mmap.vmStart.toNat c.mm.mmap.vmEnd.toNat
        (c.mm.setRg p { rg with rgStart := rg.rgStart + size.signExtend 64 }).entries
        c.mm.Present i r) ∧
      (rg.rgStart, rg.rgStart + size.signExtend 64) = bounds := by
  rcases Mm.giveFront_sameButNodes h with ⟨hpgd, hmmap⟩
  refine ⟨fun r => ?_, (Mm.giveFront_cases h).1.symm⟩
  rw [Mm.giveFront_entries h, hmmap]
  apply Suits.congr
  · exact fun _ _ => rfl
  · exact fun pgn => by rw [Mm.Present, Mm.Present, hpgd]

theorem reuse_iff {c : Caller} (i : Fin pagingMaxSymtblSz) (size : Addr)
    (h : c.mm.mmap.vmFreergList ≠ none) : c.AllocMeets i size ↔ c.ReuseSuits i size := by
  have halloc := c.alloc_reuse i size h
  unfold AllocMeets ReuseSuits
  rw [halloc, Mm.probed]
  cases hfound : c.mm.found size with
  | none => simp
  | some found =>
      cases found with
      | none =>
          -- the bounds -1 are no region
          simp only [Option.bind_some, Option.map_some, Option.some.injEq, reduceCtorEq,
            false_and, exists_false, iff_false]
          rintro ⟨addr, c', heq, hmeets⟩
          obtain ⟨rfl, rfl⟩ := Prod.mk.inj heq
          exact absurd (enter_allocated_iff.1 hmeets).1 (by decide)
      | some r =>
          rcases r with ⟨prev, p, rg⟩
          rcases Mm.search_visited _ hfound with ⟨hrg, hprev⟩
          have hsome : (c.mm.giveFront size prev p rg).isSome ↔ _ :=
            Mm.giveFront_isSome_iff hrg hprev
          simp only [Option.bind_some]
          constructor
          · rintro ⟨addr, c', heq, hmeets⟩
            rcases Option.map_eq_some_iff.1 heq with ⟨⟨bounds, mm⟩, hgive, hpair⟩
            obtain ⟨rfl, rfl⟩ := Prod.mk.inj hpair
            rw [hgive] at hsome
            rcases reuse_step hgive with ⟨hsuits, rfl⟩
            rcases enter_allocated_iff.1 hmeets with ⟨hstart, hstop, hsuit⟩
            rw [add_signExtend_toNat_eq_iff] at hstop
            rw [(add_signExtend_toNat_eq_iff _ _).2 hstop] at hsuit
            exact ⟨prev, p, rg, rfl, hsome.1 rfl, hstart, hstop.1, (hsuits _).1 hsuit⟩
          · rintro ⟨prev', p', rg', heq, hheap, hstart, hpos, hsuit⟩
            obtain ⟨rfl, rfl, rfl⟩ : prev = prev' ∧ p = p' ∧ rg = rg' := by simpa using heq
            rcases Option.isSome_iff_exists.1 (hsome.2 hheap) with ⟨⟨bounds, mm⟩, hgive⟩
            rcases reuse_step hgive with ⟨hsuits, rfl⟩
            refine ⟨_, _, by rw [hgive, Option.map_some], enter_allocated_iff.2 ?_⟩
            have hsize := size.isLt
            have hstop := (add_signExtend_toNat_eq_iff rg.rgStart size).2 ⟨hpos, by omega⟩
            refine ⟨hstart, hstop, (hsuits _).2 ?_⟩
            rw [hstop]
            exact hsuit

/-! ## Growth -/

/-- Whatever becomes of a growth, only the end of the area and the directory change. -/
theorem incVmaLimit_refused_fields (c : Caller) (vmaid incSz : Addr) :
    c.Refused (c.incVmaLimit vmaid incSz).2 ∧
      (c.incVmaLimit vmaid incSz).2.mm.mmap.vmStart = c.mm.mmap.vmStart := by
  have hgot := c.incVmaLimit_got vmaid incSz
  generalize c.incVmaLimit vmaid incSz = r at hgot ⊢
  cases hgot <;> exact ⟨⟨rfl, ⟨rfl, rfl⟩, rfl⟩, rfl⟩

/-- A growth that succeeds moves the end of the area and maps the pages behind the old one. -/
theorem incVmaLimit_maps {c : Caller} {vmaid incSz : Addr} (h : c.Grows vmaid incSz) :
    (c.incVmaLimit vmaid incSz).2.mm.mmap.vmEnd.toNat =
        (c.bp + pagingPageAlignsz incSz).toNat ∧
      ∀ pgn, (c.incVmaLimit vmaid incSz).2.mm.Present pgn ↔
        c.mm.Present pgn ∨ ∃ k < (growPages incSz).toNat, c.growPgn k = pgn := by
  rcases h with ⟨hmay, hpos, henough⟩
  have hlen : (c.mram.freeFpList.take (growPages incSz).toNat).length =
      (growPages incSz).toNat := List.length_take_of_le henough
  rw [incVmaLimit_enough hmay hpos henough]
  refine ⟨?_, fun pgn => ?_⟩
  · have hlt := (c.bp + pagingPageAlignsz incSz).isLt
    show ((c.bp + pagingPageAlignsz incSz).setWidth 64).toNat = _
    rw [BitVec.toNat_setWidth]
    omega
  · have hmap := Mm.mapFrames_present_iff (c.mm.mmap.vmEnd.setWidth 32) (growPages incSz) pgn
      (c.mram.freeFpList.take (growPages incSz).toNat) 0 c.mm.pgd (by omega)
    rw [hlen] at hmap
    refine hmap.trans (or_congr_right ⟨?_, ?_⟩)
    · rintro ⟨k, _, hk, heq⟩
      exact ⟨k, by omega, heq⟩
    · rintro ⟨k, hk, heq⟩
      exact ⟨k, Nat.zero_le k, by omega, heq⟩

/-- The break of the area does not matter to a region. -/
theorem allocated_sbrk_iff {c : Caller} {sbrk : ULong} {i : Fin pagingMaxSymtblSz}
    {size a : Addr} :
    Allocated { c with mm := { c.mm with mmap := { c.mm.mmap with sbrk := sbrk } } } i size a ↔
      Allocated c i size a :=
  ⟨fun h => ⟨h.start, h.stop, h.suits⟩, fun h => ⟨h.start, h.stop, h.suits⟩⟩

theorem growth_iff {c : Caller} (i : Fin pagingMaxSymtblSz) (size : Addr)
    (h : c.mm.mmap.vmFreergList = none) :
    c.AllocMeets i size ↔ (c.Grows 0#32 (pagingPageAlignsz size) → c.GrowthSuits i size) := by
  have hzero := c.incVmaLimit_zero_iff 0#32 (pagingPageAlignsz size)
  rcases c.incVmaLimit_refused_fields 0#32 (pagingPageAlignsz size) with ⟨hsame, hstart⟩
  unfold AllocMeets
  rw [alloc_growth _ size h]
  rcases c.incVmaLimit_ret_cases 0#32 (pagingPageAlignsz size) with hret | hret
  · have hgrows := hzero.1 hret
    rcases incVmaLimit_maps hgrows with ⟨hend, hpresent⟩
    rw [hret, if_neg (lt_irrefl 0)]
    simp only [hgrows, true_imp_iff]
    generalize (c.incVmaLimit 0#32 (pagingPageAlignsz size)).2 = c₁ at hsame hstart hend hpresent
    have hentries : c₁.mm.entries = c.mm.entries := by
      funext j
      rw [Mm.entries, hsame.symrgtbl, Mm.entries]
    have hsuits : ∀ r, Suits c₁.mm.mmap.vmStart.toNat c₁.mm.mmap.vmEnd.toNat c₁.mm.entries
        c₁.mm.Present i r ↔ Suits c.mm.mmap.vmStart.toNat
          (c.bp + pagingPageAlignsz (pagingPageAlignsz size)).toNat c.mm.entries
          (fun pgn => c.mm.Present pgn ∨
            ∃ k < (growPages (pagingPageAlignsz size)).toNat, c.growPgn k = pgn) i r := by
      intro r
      rw [hstart, hend, hentries]
      exact Suits.congr (fun _ _ => rfl) hpresent
    -- the entry is the old one, whatever the growth has mapped
    constructor
    · rintro ⟨addr, c', heq, hmeets⟩
      obtain ⟨rfl, rfl⟩ := Prod.mk.inj (Option.some.inj heq)
      rcases allocated_sbrk_iff.1 hmeets with ⟨hbegin, hstop, hsuit⟩
      rw [hsame.symrgtbl] at hbegin hstop hsuit
      exact ⟨hbegin, hstop, (hsuits _).1 hsuit⟩
    · rintro ⟨hbegin, hstop, hsuit⟩
      rw [← hsame.symrgtbl] at hbegin hstop hsuit
      exact ⟨_, _, rfl, allocated_sbrk_iff.2 ⟨hbegin, hstop, (hsuits _).2 hsuit⟩⟩
  · -- refused, and nothing that counts has changed
    have hno : ¬ c.Grows 0#32 (pagingPageAlignsz size) := by
      rw [← hzero, hret]
      decide
    rw [hret, if_pos (by decide)]
    simp only [hno, false_imp_iff, iff_true]
    exact ⟨none, _, rfl, hsame⟩

/-- For every caller, every entry of the region table and every size, `__alloc` does what it returns
exactly when it may be trusted to. -/
theorem allocMeets_iff_right (c : Caller) (i : Fin pagingMaxSymtblSz) (size : Addr) :
    c.AllocMeets i size ↔ c.AllocRight i size := by
  unfold AllocRight
  by_cases hlist : c.mm.mmap.vmFreergList = none
  · have hno : ¬ c.ReuseSuits i size := by
      rintro ⟨prev, p, rg, hfound, _⟩
      rw [found_nil size hlist] at hfound
      cases hfound
    rw [growth_iff i size hlist]
    simp [hno, hlist]
  · rw [reuse_iff i size hlist]
    simp [hlist]

/-- In the empty area of a new process no ALLOC of a positive `int` is right, and it stays so. -/
theorem emptyArea_not_right {c : Caller} (h : c.mm.EmptyArea) (i : Fin pagingMaxSymtblSz)
    {size : Addr} (hpos : 0 < size.toInt) : ¬ c.AllocRight i size := by
  have hlist : c.mm.mmap.vmFreergList = some (.heap 0) := by rw [h.mmap]
  have hno : ¬ VmRg.Fits ⟨0, 0, none⟩ size := by
    have hzero : (((0 : ULong) - 0).setWidth 32 : Addr).toInt = 0 := by decide
    rw [VmRg.Fits, hzero]
    exact not_le.2 hpos
  have hfound : c.mm.found size = some none := by
    simp only [Mm.found, hlist, Mm.search, h.firstRg, Option.bind_some, hno, if_false]
  rintro (⟨prev, p, rg, hsome, _⟩ | ⟨hnone, _⟩)
  · rw [hfound] at hsome
    cases hsome
  · rw [hlist] at hnone
    cases hnone

/-! ## Runs -/

/-- One instruction of a process. -/
def execInst (c : Caller) (ins : Inst) : Option Caller := (c.runInst ins).map Prod.snd

/-- `prop` holds of the allocation, if the instruction is one for an entry of the region table. -/
def EachAlloc (prop : Caller → Fin pagingMaxSymtblSz → Addr → Prop) (c : Caller)
    (ins : Inst) : Prop :=
  ins.opcode = .alloc → ∀ i, ins.arg1 = BitVec.ofNat 32 i.val → prop c i ins.arg0

/-- For every process and every sequence of instructions: each ALLOC on the way does what it returns
exactly if each of them is right. -/
theorem allocs_meet_iff (c : Caller) (insts : List Inst) :
    Along execInst (EachAlloc AllocMeets) c insts ↔
      Along execInst (EachAlloc AllocRight) c insts := by
  apply along_iff (I := fun _ : Caller => True)
  · intro c ins _
    exact forall_congr' fun _ => forall_congr' fun i => forall_congr' fun _ =>
      allocMeets_iff_right c i ins.arg0
  · exact fun _ _ => trivial
  · trivial

/-- A loaded process. -/
def loadedCaller : Caller := ⟨pageSize, Mm.initMm Mm.zeroed, .create 1024 true, .create 1024 true⟩

/-- Its first ALLOC, of 300 bytes as region 0, returns 0 and records a region from -1 to -1. -/
theorem loadedCaller_not_meets :
    ¬ Along execInst (EachAlloc AllocMeets) loadedCaller [⟨.alloc, 300, 0, 0, 0⟩] := by
  rintro ⟨hfirst, _⟩
  rcases hfirst rfl 0 rfl with ⟨addr, c', halloc, hmeets⟩
  have hbad : ∃ c₁, loadedCaller.alloc 0#32 300#32 = some (some (-1), c₁) ∧
      (c₁.mm.symrgtbl 0).rgStart = -1 := ⟨_, rfl, by decide⟩
  rcases hbad with ⟨c₁, halloc₁, hstart⟩
  obtain ⟨rfl, rfl⟩ : some (-1) = addr ∧ c₁ = c' := by
    have heq := halloc₁.symm.trans halloc
    simpa using heq
  have hbegin := hmeets.start
  rw [hstart] at hbegin
  exact absurd hbegin (by decide)

end Caller
end MiniOs
