import MiniOs.Lib.Count
import MiniOs.Paging.Contents

/-!
# TearDown — the frames that `free_pcb_memph` gives back

An entry that was never mapped owns no frame, one set by `pte_set_fpn` a frame of RAM and one set by
`pte_set_swap` a swap frame.  `free_pcb_memph` tests the present bit with the branches the wrong way
round: it gives a frame of RAM back for every page that has none, and reads the swap fields of the
entries that hold a frame of RAM.
-/

namespace MiniOs

open Lib

/-! ## Entries -/

/-- The entry is as it was at first, or was set by one of the two functions. -/
def WellSet (pte : Addr) : Prop :=
  pte = 0#32 ∨ (∃ old fpn, pte = pteSetFpn old fpn) ∨
    ∃ old swptyp swpoff, pte = pteSetSwap old swptyp swpoff

theorem WellSet.swapped {pte : Addr} (h : WellSet pte) (hswapped : pageSwapped pte = true) :
    pagingPagePresent pte = true := by
  rcases h with rfl | ⟨old, fpn, rfl⟩ | ⟨old, swptyp, swpoff, rfl⟩
  · revert hswapped
    decide
  · exact pagingPagePresent_pteSetFpn old fpn
  · exact (setSwapped_pteSetSwap old swptyp swpoff).1

/-- The frames that the entries of a page directory own, in the order of the pages. -/
def ownedFrames (frame : Addr → Option ℕ) (pgd : Fin pagingMaxPgn → Addr) : List ℕ :=
  (List.finRange pagingMaxPgn).filterMap fun pgn => frame (pgd pgn)

namespace Caller

/-- Both free lists have got the frames that the process owned, each once. -/
structure ReturnsFrames (c c' : Caller) : Prop where
  ram : c'.mram.freeFpList.Perm
    (ownedFrames PagingSys.onlineFrame c.mm.pgd ++ c.mram.freeFpList)
  swap : c'.activeMswp.freeFpList.Perm
    (ownedFrames PagingSys.swapFrame c.mm.pgd ++ c.activeMswp.freeFpList)

/-! ## What is put back -/

/-- What the loop puts on the list of RAM for an entry. -/
def ramPut (pte : Addr) : Option ℕ :=
  if pagingPagePresent pte then none else some (pagingFpn pte).toNat

/-- What it puts on the list of the swap device. -/
def swapPut (pte : Addr) : Option ℕ :=
  if pagingPagePresent pte then some (pagingSwp pte).toNat else none

/-- Run lemma for the loop: each list has got what its rounds put there. -/
theorem foldl_freePcbPage (pages : List (Fin pagingMaxPgn)) (c : Caller) :
    (pages.foldl freePcbPage c).mram.freeFpList.Perm
        ((pages.filterMap fun pgn => ramPut (c.mm.pgd pgn)) ++ c.mram.freeFpList) ∧
      (pages.foldl freePcbPage c).activeMswp.freeFpList.Perm
        ((pages.filterMap fun pgn => swapPut (c.mm.pgd pgn)) ++ c.activeMswp.freeFpList) := by
  induction pages generalizing c with
  | nil => exact ⟨List.Perm.refl _, List.Perm.refl _⟩
  | cons pgn pages ih =>
      -- one of the two lists gets a frame, and the directory is not changed
      have hpgd : (c.freePcbPage pgn).mm.pgd = c.mm.pgd := by
        unfold freePcbPage
        dsimp only
        split <;> rfl
      rcases ih (c.freePcbPage pgn) with ⟨hram, hswap⟩
      rw [hpgd] at hram hswap
      rw [List.foldl_cons]
      cases hpresent : pagingPagePresent (c.mm.pgd pgn) with
      | true =>
          have hput : c.freePcbPage pgn = { c with
              activeMswp := c.activeMswp.putFreefp (pagingSwp (c.mm.pgd pgn)).toNat } := by
            simp [freePcbPage, hpresent]
          rw [hput] at hram hswap ⊢
          simp only [List.filterMap_cons, ramPut, swapPut, hpresent, if_true]
          exact ⟨hram, hswap.trans List.perm_middle⟩
      | false =>
          have hput : c.freePcbPage pgn = { c with
              mram := c.mram.putFreefp (pagingFpn (c.mm.pgd pgn)).toNat } := by
            simp [freePcbPage, hpresent]
          rw [hput] at hram hswap ⊢
          simp only [List.filterMap_cons, ramPut, swapPut, hpresent, Bool.false_eq_true, if_false]
          exact ⟨hram.trans List.perm_middle, hswap⟩

/-- Both lists behind `free_pcb_memph`. -/
theorem freePcbMemph_puts (c : Caller) :
    c.freePcbMemph.mram.freeFpList.Perm (ownedFrames ramPut c.mm.pgd ++ c.mram.freeFpList) ∧
      c.freePcbMemph.activeMswp.freeFpList.Perm
        (ownedFrames swapPut c.mm.pgd ++ c.activeMswp.freeFpList) := by
  unfold freePcbMemph ownedFrames
  exact foldl_freePcbPage (List.finRange pagingMaxPgn) c

theorem ownedFrames_congr {frame frame' : Addr → Option ℕ} {pgd : Fin pagingMaxPgn → Addr}
    (h : ∀ pgn, frame (pgd pgn) = frame' (pgd pgn)) :
    ownedFrames frame pgd = ownedFrames frame' pgd := by
  unfold ownedFrames
  simp only [h]

theorem ownedFrames_eq_nil_iff {frame : Addr → Option ℕ} {pgd : Fin pagingMaxPgn → Addr} :
    ownedFrames frame pgd = [] ↔ ∀ pgn, frame (pgd pgn) = none := by
  unfold ownedFrames
  simp

theorem length_ownedFrames (frame : Addr → Option ℕ) (pgd : Fin pagingMaxPgn → Addr) :
    (ownedFrames frame pgd).length =
      (List.finRange pagingMaxPgn).countP fun pgn => (frame (pgd pgn)).isSome := by
  unfold ownedFrames
  exact List.length_filterMap_eq_countP

/-- An entry of which nothing goes back to RAM is present. -/
theorem ramPut_eq_none {pte : Addr} (h : ramPut pte = none) : pagingPagePresent pte = true := by
  cases hpresent : pagingPagePresent pte with
  | true => rfl
  | false => simp [ramPut, hpresent] at h

/-! ## The condition -/

/-- For every page directory with entries of the three kinds: the frames that go back are those the
process owned exactly when every page is swapped out. -/
theorem returnsFrames_iff {c : Caller} (h : ∀ pgn, WellSet (c.mm.pgd pgn)) :
    c.ReturnsFrames c.freePcbMemph ↔ ∀ pgn, pageSwapped (c.mm.pgd pgn) = true := by
  rcases c.freePcbMemph_puts with ⟨hram, hswap⟩
  constructor
  · intro hreturns
    -- as many entries are swapped out as are present, so all that are present are swapped out
    have hput := ((List.perm_append_right_iff _).1 (hswap.symm.trans hreturns.swap)).length_eq
    rw [length_ownedFrames, length_ownedFrames] at hput
    have hswapped : ∀ pgn, pagingPagePresent (c.mm.pgd pgn) = true →
        pageSwapped (c.mm.pgd pgn) = true := by
      intro pgn hpresent
      refine forall_of_countP_eq (fun pgn hs => (h pgn).swapped hs) ?_ pgn (List.mem_finRange pgn)
        hpresent
      simpa [swapPut, PagingSys.swapFrame, apply_ite] using hput.symm
    -- none is online, and nothing goes back to RAM
    have hnone : ownedFrames PagingSys.onlineFrame c.mm.pgd = [] := by
      apply ownedFrames_eq_nil_iff.2
      intro pgn
      cases hpresent : pagingPagePresent (c.mm.pgd pgn) with
      | false => simp [PagingSys.onlineFrame, pageOnline, hpresent]
      | true => simp [PagingSys.onlineFrame, pageOnline, hswapped pgn hpresent]
    have hback := (List.perm_append_right_iff _).1 (hram.symm.trans hreturns.ram)
    rw [hnone, List.perm_nil] at hback
    intro pgn
    apply hswapped
    apply ramPut_eq_none
    exact ownedFrames_eq_nil_iff.1 hback pgn
  · intro hall
    have hpresent : ∀ pgn, pagingPagePresent (c.mm.pgd pgn) = true :=
      fun pgn => (h pgn).swapped (hall pgn)
    -- for a page that is swapped out, the loop does what it should
    have hrams : ownedFrames ramPut c.mm.pgd = ownedFrames PagingSys.onlineFrame c.mm.pgd := by
      apply ownedFrames_congr
      intro pgn
      simp [ramPut, PagingSys.onlineFrame, pageOnline, hpresent pgn, hall pgn]
    have hswaps : ownedFrames swapPut c.mm.pgd = ownedFrames PagingSys.swapFrame c.mm.pgd := by
      apply ownedFrames_congr
      intro pgn
      simp [swapPut, PagingSys.swapFrame, hpresent pgn, hall pgn]
    exact ⟨hrams ▸ hram, hswaps ▸ hswap⟩

/-- A process whose page `pgn` is in swap frame `pgn`. -/
def allSwapped : Caller :=
  ⟨pageSize, { Mm.initMm Mm.zeroed with pgd := fun pgn => pteSetSwap 0#32 0#32 (.ofNat 32 pgn) },
    .create 512 true, .create 512 true⟩

theorem allSwapped_returns : allSwapped.ReturnsFrames allSwapped.freePcbMemph :=
  (returnsFrames_iff fun _ => Or.inr (Or.inr ⟨_, _, _, rfl⟩)).2 fun _ =>
    (setSwapped_pteSetSwap _ _ _).2

/-- A process that never mapped a page. -/
def neverMapped : Caller := ⟨pageSize, Mm.initMm Mm.zeroed, .create 512 true, .create 512 true⟩

/-- Frame 0 goes back to RAM 16384 times. -/
theorem neverMapped_not_returns : ¬ neverMapped.ReturnsFrames neverMapped.freePcbMemph := by
  intro hreturns
  have hback := (List.perm_append_right_iff _).1
    (neverMapped.freePcbMemph_puts.1.symm.trans hreturns.ram)
  have hnone : PagingSys.onlineFrame 0#32 = none := by decide
  have honline : ownedFrames PagingSys.onlineFrame neverMapped.mm.pgd = [] :=
    ownedFrames_eq_nil_iff.2 fun _ => hnone
  rw [honline, List.perm_nil] at hback
  -- the number of an entry that is 0 goes back
  have hzero : ramPut 0#32 = none := ownedFrames_eq_nil_iff.1 hback ⟨0, by decide⟩
  revert hzero
  decide

end Caller
end MiniOs
