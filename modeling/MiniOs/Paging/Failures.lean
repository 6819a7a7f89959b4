import MiniOs.Paging.Access

/-!
# Failures — what a failed call leaves behind

`inc_vma_limit` moves the break pointer before it makes any test, and `pg_getpage` unlinks its
victim before it asks for a swap frame; neither takes anything back.  So a failed growth leaves the
caller as it was only if it asked for no bytes, and a failed page fault only if it found no victim
either.
-/

namespace MiniOs
namespace Caller

/-! ## A failed growth -/

/-- What `inc_vma_limit` works on is as it was. -/
structure GrowthUndone (c c' : Caller) : Prop where
  bp : c'.bp = c.bp
  vmEnd : c'.mm.mmap.vmEnd = c.mm.mmap.vmEnd
  pgd : c'.mm.pgd = c.mm.pgd
  fifoPgn : c'.mm.fifoPgn = c.mm.fifoPgn
  freeFpList : c'.mram.freeFpList = c.mram.freeFpList

/-- If `inc_vma_limit` returns -1, everything is as before the call. -/
def GrowthFailsCleanly (c : Caller) (vmaid incSz : Addr) : Prop :=
  (c.incVmaLimit vmaid incSz).1 = -1 → c.GrowthUndone (c.incVmaLimit vmaid incSz).2

/-- The growth is allowed and finds all the frames it asks for. -/
def Grows (c : Caller) (vmaid incSz : Addr) : Prop :=
  c.MayGrow vmaid ∧ 0 ≤ growPages incSz ∧ (growPages incSz).toNat ≤ c.mram.freeFpList.length

/-- Whatever becomes of the growth, the break pointer has moved. -/
theorem incVmaLimit_bp (c : Caller) (vmaid incSz : Addr) :
    (c.incVmaLimit vmaid incSz).2.bp = c.bp + pagingPageAlignsz incSz := by
  have hgot := c.incVmaLimit_got vmaid incSz
  generalize c.incVmaLimit vmaid incSz = r at hgot ⊢
  cases hgot <;> rfl

/-- `inc_vma_limit` returns 0 or -1, and 0 exactly when the area grows. -/
theorem incVmaLimit_zero_iff (c : Caller) (vmaid incSz : Addr) :
    (c.incVmaLimit vmaid incSz).1 = 0 ↔ c.Grows vmaid incSz := by
  have hgot := c.incVmaLimit_got vmaid incSz
  generalize c.incVmaLimit vmaid incSz = r at hgot ⊢
  cases hgot with
  | refused hno => exact iff_of_false (neg_ne_zero.2 one_ne_zero) fun hgrows => hno hgrows.1
  | negative _ hneg =>
      exact iff_of_false (neg_ne_zero.2 one_ne_zero) fun hgrows => absurd hgrows.2.1 (not_le.2 hneg)
  | short _ hshort =>
      exact iff_of_false (neg_ne_zero.2 one_ne_zero)
        fun hgrows => absurd hgrows.2.2 (not_le.2 hshort)
  | enough hmay hpos henough => exact iff_of_true rfl ⟨hmay, hpos, henough⟩

theorem incVmaLimit_ret_cases (c : Caller) (vmaid incSz : Addr) :
    (c.incVmaLimit vmaid incSz).1 = 0 ∨ (c.incVmaLimit vmaid incSz).1 = -1 := by
  have hgot := c.incVmaLimit_got vmaid incSz
  generalize c.incVmaLimit vmaid incSz = r at hgot ⊢
  cases hgot with
  | enough _ _ _ => exact Or.inl rfl
  | _ => exact Or.inr rfl

theorem growPages_of_alignsz {incSz : Addr} (h : pagingPageAlignsz incSz = 0#32) :
    growPages incSz = 0 := by
  rw [growPages, h]
  decide

/-- For every caller and every request: a failed growth leaves everything as it was exactly when
the request is rounded to no bytes at all, or does not fail. -/
theorem growthFailsCleanly_iff (c : Caller) (vmaid incSz : Addr) :
    c.GrowthFailsCleanly vmaid incSz ↔
      pagingPageAlignsz incSz = 0#32 ∨ c.Grows vmaid incSz := by
  constructor
  · intro hclean
    by_cases hgrows : c.Grows vmaid incSz
    · exact Or.inr hgrows
    · -- it fails, and the break pointer tells
      have hfails : (c.incVmaLimit vmaid incSz).1 = -1 := by
        rcases incVmaLimit_ret_cases c vmaid incSz with hzero | hfails
        · exact absurd ((incVmaLimit_zero_iff c vmaid incSz).1 hzero) hgrows
        · exact hfails
      have hbp : c.bp + pagingPageAlignsz incSz = c.bp := by
        rw [← incVmaLimit_bp c vmaid incSz]
        exact (hclean hfails).bp
      exact Or.inl (by simpa using hbp)
  · intro hcond hfails
    -- in the second case there is no failure
    have hnot : ¬ c.Grows vmaid incSz := by
      intro hgrows
      have hzero := (incVmaLimit_zero_iff c vmaid incSz).2 hgrows
      rw [hzero] at hfails
      cases hfails
    have hsz : pagingPageAlignsz incSz = 0#32 := hcond.resolve_right hnot
    have hrefused : ¬ c.MayGrow vmaid := by
      intro hmay
      refine hnot ⟨hmay, ?_⟩
      simp [growPages_of_alignsz hsz]
    rw [incVmaLimit_refused hrefused, hsz]
    exact ⟨by simp, rfl, rfl, rfl, rfl⟩

/-- A process that asks for three pages when there are two frames. -/
def tooFew : Caller := ⟨pageSize, Mm.initMm Mm.zeroed, .create 512 true, .create 512 true⟩

/-- Its break pointer is past memory it never got, and the two frames are gone. -/
theorem tooFew_not_undone : ¬ tooFew.GrowthFailsCleanly 0#32 768#32 := by
  intro hclean
  have hundone := hclean (by decide)
  have hfree : (tooFew.incVmaLimit 0#32 768#32).2.mram.freeFpList = tooFew.mram.freeFpList :=
    hundone.freeFpList
  revert hfree
  decide

/-! ## A failed page fault -/

/-- What a page fault works on is as it was. -/
structure FaultUndone (c c' : Caller) : Prop where
  fifoPgn : c'.mm.fifoPgn = c.mm.fifoPgn
  pgd : c'.mm.pgd = c.mm.pgd
  ram : c'.mram.storage = c.mram.storage
  swap : c'.activeMswp.storage = c.activeMswp.storage
  ramFree : c'.mram.freeFpList = c.mram.freeFpList
  swapFree : c'.activeMswp.freeFpList = c.activeMswp.freeFpList

/-- If `pg_getpage` returns -1, everything is as before the call. -/
def FaultFailsCleanly (c : Caller) (pgn : Fin pagingMaxPgn) : Prop :=
  ∀ c', c.pgGetpage pgn = some (none, c') → c.FaultUndone c'

/-- For every process and every page: a failed page fault leaves everything as it was exactly when
the page is present, there is no victim, or there is a swap frame (so that it does not fail). -/
theorem faultFailsCleanly_iff (c : Caller) (pgn : Fin pagingMaxPgn) :
    c.FaultFailsCleanly pgn ↔
      pagingPagePresent (c.mm.pgd pgn) = true ∨ c.mm.fifoPgn = [] ∨
        c.activeMswp.freeFpList ≠ [] := by
  constructor
  · intro hclean
    by_contra hno
    simp only [not_or, Bool.not_eq_true, not_not] at hno
    rcases hno with ⟨habsent, hvictim, hfree⟩
    -- the victim is missing from the list afterwards
    rcases List.exists_cons_of_ne_nil hvictim with ⟨vicpgn, rest, hfifo⟩
    have hundone := hclean _ (pgGetpage_noFrame habsent hfifo hfree)
    have hlist : rest = vicpgn :: rest := hundone.fifoPgn.trans hfifo
    exact absurd (congrArg List.length hlist) (by simp)
  · intro hcond c' hget
    -- a failure has found no victim, or no swap frame for it
    cases pgGetpage_got hget with
    | noVictim _ _ => exact ⟨rfl, rfl, rfl, rfl, rfl, rfl⟩
    | noFrame habsent hfifo hfree => simp [habsent, hfifo, hfree] at hcond

/-- A process with one page in RAM, on a machine without swap. -/
def noSwap : Caller :=
  (Caller.incVmaLimit ⟨pageSize, Mm.initMm Mm.zeroed, .create 512 true, .create 0 true⟩
    0#32 256#32).2

/-- A look at its second page takes the first one off the list of victims for good. -/
theorem noSwap_not_undone : ¬ noSwap.FaultFailsCleanly ⟨1, by decide⟩ := by
  intro hclean
  have habsent : pagingPagePresent (noSwap.mm.pgd ⟨1, by decide⟩) = false := by decide
  have hget := pgGetpage_noFrame habsent
    (show noSwap.mm.fifoPgn = [⟨0, by decide⟩] by decide) (by decide)
  have hlist : [] = noSwap.mm.fifoPgn := (hclean _ hget).fifoPgn
  revert hlist
  decide

end Caller
end MiniOs
