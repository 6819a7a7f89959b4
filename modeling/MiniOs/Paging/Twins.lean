import MiniOs.Paging.PrivateBytes

/-!
# Twins — what a call does apart from the numbers of the frames

The calls of a process look at its page directory for two things only: whether a page is present,
and which frame it is in.  Two processes that differ in the frames, and in nothing else, do the same
as long as neither runs out of frames and no page fault takes a swap frame.
-/

namespace MiniOs

open Lib

/-! ## Regions -/

namespace Mm

/-- The same memory map with another page directory. -/
def withPgd (mm : Mm) (pgd : Fin pagingMaxPgn → Addr) : Mm := { mm with pgd := pgd }

variable {mm : Mm} {pgd : Fin pagingMaxPgn → Addr}

@[simp] theorem withPgd_pgd : (mm.withPgd pgd).pgd = pgd := rfl
@[simp] theorem withPgd_mmap : (mm.withPgd pgd).mmap = mm.mmap := rfl
@[simp] theorem withPgd_symrgtbl : (mm.withPgd pgd).symrgtbl = mm.symrgtbl := rfl
@[simp] theorem withPgd_fifoPgn : (mm.withPgd pgd).fifoPgn = mm.fifoPgn := rfl
@[simp] theorem withPgd_rgHeap : (mm.withPgd pgd).rgHeap = mm.rgHeap := rfl

/-- Memory maps that differ in the page directory alone. -/
theorem eq_withPgd {mm' : Mm} (hmmap : mm'.mmap = mm.mmap) (hheap : mm'.rgHeap = mm.rgHeap)
    (hsym : mm'.symrgtbl = mm.symrgtbl) (hfifo : mm'.fifoPgn = mm.fifoPgn) :
    mm' = mm.withPgd mm'.pgd := by
  rw [withPgd, ← hmmap, ← hheap, ← hsym, ← hfifo]

@[simp] theorem withPgd_rg (p : RgPtr) : (mm.withPgd pgd).rg p = mm.rg p := by
  cases p with
  | heap n => rfl
  | sym i => rfl

@[simp] theorem withPgd_setRg (p : RgPtr) (rg : VmRg) :
    (mm.withPgd pgd).setRg p rg = (mm.setRg p rg).withPgd pgd := by
  cases p with
  | heap n => rfl
  | sym i => rfl

theorem withPgd_freeRg (p : RgPtr) :
    (mm.withPgd pgd).freeRg p = (mm.freeRg p).map (·.withPgd pgd) := by
  cases p with
  | heap n => rfl
  | sym i => rfl

theorem withPgd_unlinkRg (prev rgNext : Option RgPtr) :
    (mm.withPgd pgd).unlinkRg prev rgNext = (mm.unlinkRg prev rgNext).map (·.withPgd pgd) := by
  cases prev with
  | none => rfl
  | some q => simp [unlinkRg, Function.comp_def]

theorem withPgd_findFreeRg (size : Addr) : ∀ (fuel : Nat) (prev rgit : Option RgPtr),
    (mm.withPgd pgd).findFreeRg size fuel prev rgit =
      (mm.findFreeRg size fuel prev rgit).map fun r => (r.1, r.2.withPgd pgd) := by
  intro fuel
  induction fuel with
  | zero => exact fun _ _ => rfl
  | succ fuel ih =>
      intro prev rgit
      cases rgit with
      | none => rfl
      | some p =>
          simp only [findFreeRg, withPgd_rg, withPgd_setRg, withPgd_unlinkRg, ih]
          cases mm.rg p with
          | none => rfl
          | some rg =>
              dsimp only
              split
              · split
                · -- the node is unlinked and freed, in both or in none
                  rw [Option.map_bind, Option.bind_map]
                  congr 1
                  funext mm'
                  simp [withPgd_freeRg, Function.comp_def]
                · rfl
              · rfl

theorem withPgd_getFreeVmrgArea (size : Addr) :
    (mm.withPgd pgd).getFreeVmrgArea size =
      (mm.getFreeVmrgArea size).map fun r => (r.1, r.2.withPgd pgd) := by
  unfold getFreeVmrgArea
  rw [withPgd_mmap, withPgd_rgHeap]
  cases mm.mmap.vmFreergList with
  | none => rfl
  | some p => simp [withPgd_findFreeRg, Function.comp_def]

theorem withPgd_freedEntry (i : Fin pagingMaxSymtblSz) :
    (mm.withPgd pgd).freedEntry i = (mm.freedEntry i).withPgd pgd := rfl

/-- Pages are present behind the mapping loop in both directories or in none. -/
theorem mapFrames_present (addr : Addr) (pgnum : ℤ) :
    ∀ (frames frames' : List ℕ) (i : ℕ) (pgd pgd' : Fin pagingMaxPgn → Addr),
      frames'.length = frames.length →
      (∀ pgn, pagingPagePresent (pgd' pgn) = pagingPagePresent (pgd pgn)) →
      ∀ pgn, pagingPagePresent (mapFrames addr pgnum i frames' pgd' pgn) =
        pagingPagePresent (mapFrames addr pgnum i frames pgd pgn) := by
  intro frames
  induction frames with
  | nil =>
      intro frames' i pgd pgd' hlen h
      obtain rfl := List.length_eq_zero_iff.1 hlen
      exact h
  | cons f frames ih =>
      intro frames' i pgd pgd' hlen h
      rcases List.exists_cons_of_length_eq_add_one hlen with ⟨f', frames', rfl⟩
      simp only [mapFrames]
      split
      · refine ih frames' (i + 1) _ _ (by simpa using hlen) fun pgn => ?_
        by_cases hpgn : pgn = pagingPgn (addr + BitVec.ofNat 32 i * pagingPagesz)
        · subst hpgn
          simp only [Function.update_self, pagingPagePresent_pteSetFpn]
        · simpa only [Function.update_of_ne hpgn] using h pgn
      · exact h

end Mm

/-! ## Calls -/

namespace Caller

/-- The same process with other frames: `d` has as many of them left as `c`, or more. -/
structure Twin (c d : Caller) : Prop where
  bp : d.bp = c.bp
  mm : d.mm = c.mm.withPgd d.mm.pgd
  present : ∀ pgn, pagingPagePresent (d.mm.pgd pgn) = pagingPagePresent (c.mm.pgd pgn)
  swap : d.activeMswp.freeFpList = c.activeMswp.freeFpList
  frames : c.mram.freeFpList.length ≤ d.mram.freeFpList.length

/-- A growth, if there is one, finds its frames. -/
def HasFrames (c : Caller) (vmaid incSz : Addr) : Prop :=
  c.MayGrow vmaid → (growPages incSz).toNat ≤ c.mram.freeFpList.length

/-- An allocation that grows the area finds its frames. -/
def AllocHasFrames (c : Caller) (size : Addr) : Prop :=
  c.mm.mmap.vmFreergList = none → c.HasFrames 0 (pagingPageAlignsz size)

variable {c d : Caller}

namespace Twin

theorem mmap (h : Twin c d) : d.mm.mmap = c.mm.mmap := by rw [h.mm, Mm.withPgd_mmap]

theorem symrgtbl (h : Twin c d) : d.mm.symrgtbl = c.mm.symrgtbl := by
  rw [h.mm, Mm.withPgd_symrgtbl]

theorem fifoPgn (h : Twin c d) : d.mm.fifoPgn = c.mm.fifoPgn := by rw [h.mm, Mm.withPgd_fifoPgn]

theorem rgHeap (h : Twin c d) : d.mm.rgHeap = c.mm.rgHeap := by rw [h.mm, Mm.withPgd_rgHeap]

theorem rgAddr (h : Twin c d) (i : Fin pagingMaxSymtblSz) (offset : Addr) :
    d.rgAddr i offset = c.rgAddr i offset := by
  rw [Caller.rgAddr, Caller.rgAddr, h.symrgtbl]

theorem mayGrow_iff (h : Twin c d) (vmaid : Addr) : d.MayGrow vmaid ↔ c.MayGrow vmaid := by
  rw [MayGrow, MayGrow, h.bp, h.mmap]

theorem growPgn (h : Twin c d) (i : ℕ) : d.growPgn i = c.growPgn i := by
  rw [Caller.growPgn, Caller.growPgn, h.mmap]

theorem needsNoSwap (h : Twin c d) {pgn : Fin pagingMaxPgn} (hno : c.NeedsNoSwap pgn) :
    d.NeedsNoSwap pgn := by
  rw [NeedsNoSwap, h.present, h.fifoPgn, h.swap]
  exact hno

/-- The same memory map, apart from the directory. -/
theorem setMm (h : Twin c d) (mm : Mm) (hpgd : mm.pgd = c.mm.pgd) :
    Twin { c with mm := mm } { d with mm := mm.withPgd d.mm.pgd } :=
  ⟨h.bp, rfl, fun pgn => (h.present pgn).trans (by rw [hpgd]), h.swap, h.frames⟩

theorem moveEnd (h : Twin c d) (incSz : Addr) : Twin (c.moveEnd incSz) (d.moveEnd incSz) := by
  refine ⟨?_, Mm.eq_withPgd ?_ h.rgHeap h.symrgtbl h.fifoPgn, h.present, h.swap, h.frames⟩
  · simp only [Caller.moveEnd, h.bp]
  · simp only [Caller.moveEnd, h.bp, h.mmap]

/-- `inc_vma_limit` returns the same and maps the same pages. -/
theorem inc (h : Twin c d) {vmaid incSz : Addr} (hframes : c.HasFrames vmaid incSz) :
    (d.incVmaLimit vmaid incSz).1 = (c.incVmaLimit vmaid incSz).1 ∧
      Twin (c.incVmaLimit vmaid incSz).2 (d.incVmaLimit vmaid incSz).2 := by
  have hmoved := h.moveEnd incSz
  have hgot := c.incVmaLimit_got vmaid incSz
  generalize c.incVmaLimit vmaid incSz = r at hgot ⊢
  cases hgot with
  | refused hno =>
      rw [incVmaLimit_refused fun hmay => hno ((h.mayGrow_iff vmaid).1 hmay)]
      exact ⟨rfl, by rw [h.bp], h.mm, h.present, h.swap, h.frames⟩
  | negative hmay hneg =>
      rw [incVmaLimit_negative ((h.mayGrow_iff vmaid).2 hmay) hneg]
      exact ⟨rfl, hmoved⟩
  | short hmay hshort => exact absurd (hframes hmay) (not_le.2 hshort)
  | enough hmay hpos henough =>
      have henough' := henough.trans h.frames
      rw [incVmaLimit_enough ((h.mayGrow_iff vmaid).2 hmay) hpos henough', h.mmap]
      have hfifo : ∀ pgn, pgn :: d.mm.fifoPgn = pgn :: c.mm.fifoPgn := fun pgn => by rw [h.fifoPgn]
      refine ⟨rfl, hmoved.bp, Mm.eq_withPgd hmoved.mmap h.rgHeap h.symrgtbl (hfifo _), ?_, h.swap,
        ?_⟩
      · -- as many frames, so as many pages
        refine Mm.mapFrames_present _ _ _ _ 0 _ _ ?_ h.present
        rw [List.length_take_of_le henough, List.length_take_of_le henough']
      · simp only [List.length_drop]
        exact Nat.sub_le_sub_right h.frames _

/-! ## Allocation -/

theorem alloc (h : Twin c d) (rgid : Addr) {size : Addr} (hframes : AllocHasFrames c size) :
    SameStep Twin (c.alloc rgid size) (d.alloc rgid size) := by
  by_cases hlist : c.mm.mmap.vmFreergList = none
  · have hlist' : d.mm.mmap.vmFreergList = none := by rw [h.mmap, hlist]
    rcases h.inc (hframes hlist) with ⟨hret, htwin⟩
    rw [alloc_growth rgid size hlist, alloc_growth rgid size hlist']
    simp only [BitVec.ofNat_eq_ofNat] at hret htwin ⊢
    rw [hret, h.mmap]
    split
    · exact .defined _ htwin
    · refine .defined _ ⟨htwin.bp, Mm.eq_withPgd ?_ htwin.rgHeap htwin.symrgtbl htwin.fifoPgn,
        htwin.present, htwin.swap, htwin.frames⟩
      simp only [htwin.mmap]
  · have hget : d.mm.getFreeVmrgArea size =
        (c.mm.getFreeVmrgArea size).map fun r => (r.1, r.2.withPgd d.mm.pgd) := by
      rw [← Mm.withPgd_getFreeVmrgArea, ← h.mm]
    unfold Caller.alloc
    rw [hget, c.mm.getFreeVmrgArea_listed size hlist]
    cases hprobed : c.mm.probed size with
    | none => exact .undefined
    | some r =>
        rcases r with ⟨bounds, mm⟩
        simp only [Option.map_some]
        split
        · have hpgd := (Mm.probed_sameButNodes hprobed).pgd
          rw [Mm.withPgd_symrgtbl, Mm.withPgd_setRg]
          exact .defined _ (h.setMm _ ((Mm.setRg_pgd mm _ _).trans hpgd))
        · exact .undefined

theorem validEntry_iff (h : Twin c d) (i : Fin pagingMaxSymtblSz) :
    d.ValidEntry i ↔ c.ValidEntry i := by
  rw [ValidEntry, ValidEntry, h.symrgtbl]

theorem free (h : Twin c d) (rgid : Addr) : SameStep Twin (c.free rgid) (d.free rgid) := by
  cases hentry : getSymrgByid rgid with
  | null =>
      simp only [Caller.free, hentry]
      exact .defined _ h
  | pastEnd =>
      simp only [Caller.free, hentry]
      exact .undefined
  | entry i =>
      by_cases hvalid : c.ValidEntry i
      · rw [free_valid hentry hvalid, free_valid hentry ((h.validEntry_iff i).2 hvalid)]
        have hfreed : d.mm.freedEntry i = (c.mm.freedEntry i).withPgd d.mm.pgd := by
          rw [← Mm.withPgd_freedEntry, ← h.mm]
        rw [hfreed]
        exact .defined _ (h.setMm _ rfl)
      · rw [free_invalid hentry hvalid,
          free_invalid hentry fun hvalid' => hvalid ((h.validEntry_iff i).1 hvalid')]
        exact .defined _ h

/-! ## Accesses -/

/-- A page that is not present, and for which no swap frame is taken. -/
theorem getpage_absent (h : Twin c d) {pgn : Fin pagingMaxPgn} (hno : c.NeedsNoSwap pgn)
    (habsent : pagingPagePresent (c.mm.pgd pgn) = false) :
    ∃ c' d', c.pgGetpage pgn = some (none, c') ∧ d.pgGetpage pgn = some (none, d') ∧
      Twin c' d' := by
  have habsent' : pagingPagePresent (d.mm.pgd pgn) = false := (h.present pgn).trans habsent
  cases hfifo : c.mm.fifoPgn with
  | nil =>
      have hfifo' : d.mm.fifoPgn = [] := h.fifoPgn.trans hfifo
      exact ⟨c, d, pgGetpage_noVictim habsent hfifo, pgGetpage_noVictim habsent' hfifo', h⟩
  | cons vicpgn rest =>
      have hfifo' : d.mm.fifoPgn = vicpgn :: rest := h.fifoPgn.trans hfifo
      have hfree : c.activeMswp.freeFpList = [] := by simpa [NeedsNoSwap, habsent, hfifo] using hno
      have hfree' : d.activeMswp.freeFpList = [] := h.swap.trans hfree
      exact ⟨_, _, pgGetpage_noFrame habsent hfifo hfree, pgGetpage_noFrame habsent' hfifo' hfree',
        h.bp, Mm.eq_withPgd h.mmap h.rgHeap h.symrgtbl rfl, h.present, h.swap, h.frames⟩

variable {rgid offset : Addr} {i : Fin pagingMaxSymtblSz}

theorem read_absent (h : Twin c d) (hentry : getSymrgByid rgid = .entry i)
    (hno : c.NeedsNoSwap (pagingPgn (c.rgAddr i offset)))
    (habsent : pagingPagePresent (c.mm.pgd (pagingPgn (c.rgAddr i offset))) = false) :
    SameStep Twin (c.read rgid offset) (d.read rgid offset) := by
  rcases h.getpage_absent hno habsent with ⟨c', d', hc, hd, htwin⟩
  simp only [Caller.read, hentry, pgGetval, h.rgAddr, hc, hd, Option.map_some]
  exact .defined _ htwin

theorem write_absent (h : Twin c d) (hentry : getSymrgByid rgid = .entry i)
    (hno : c.NeedsNoSwap (pagingPgn (c.rgAddr i offset)))
    (habsent : pagingPagePresent (c.mm.pgd (pagingPgn (c.rgAddr i offset))) = false)
    (value : Byte) : SameStep Twin (c.write rgid offset value) (d.write rgid offset value) := by
  rcases h.getpage_absent hno habsent with ⟨c', d', hc, hd, htwin⟩
  simp only [Caller.write, hentry, pgSetval, h.rgAddr, hc, hd, Option.map_some]
  exact .defined _ htwin

end Twin
end Caller
end MiniOs
