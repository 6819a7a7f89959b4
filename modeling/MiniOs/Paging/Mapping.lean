import MiniOs.Paging.Effects

/-!
# Mapping — the pages of a range and the frames they get

`vm_map_ram` takes frames off the list of RAM in one loop and enters them into the page directory in
another.  Both run in the order of the list, so the page at distance `i` from the first gets the
frame at position `i`.
-/

namespace MiniOs
namespace Mm

/-! ## The pages of a range -/

theorem rangePage_toNat {addr : Addr} {i : ℕ} (h : addr.toNat + i * 256 < 2 ^ 32) :
    (addr + BitVec.ofNat 32 i * pagingPagesz).toNat = addr.toNat + i * 256 := by
  have hsize : pagingPagesz.toNat = 256 := rfl
  simp only [BitVec.toNat_add, BitVec.toNat_mul, BitVec.toNat_ofNat, hsize]
  omega

/-- Inside the address space the pages of a range follow each other. -/
theorem rangePage_val {addr : Addr} {n i : ℕ} (h : addr.toNat + n * 256 ≤ 2 ^ 22) (hi : i < n) :
    (pagingPgn (addr + BitVec.ofNat 32 i * pagingPagesz)).val = addr.toNat / 256 + i := by
  rw [pagingPgn_val, rangePage_toNat (by omega)]
  omega

/-! ## The loop -/

/-- Run lemma for the loop of `vmap_page_range`: if its pages are different, each is set once, to
its own frame, and no other entry is set. -/
theorem mapFrames_apply (addr : Addr) (pgnum : ℤ) :
    ∀ (frames : List ℕ) (i : ℕ) (pgd : Fin pagingMaxPgn → Addr),
      ((i + frames.length : ℕ) : ℤ) ≤ pgnum →
      (∀ j k, i ≤ j → j < k → k < i + frames.length →
        pagingPgn (addr + BitVec.ofNat 32 j * pagingPagesz) ≠
          pagingPgn (addr + BitVec.ofNat 32 k * pagingPagesz)) →
      (∀ j (hj : j < frames.length), ∃ old,
        mapFrames addr pgnum i frames pgd
            (pagingPgn (addr + BitVec.ofNat 32 (i + j) * pagingPagesz)) =
          pteSetFpn old (BitVec.ofNat 32 frames[j])) ∧
      ∀ pgn, (∀ j, i ≤ j → j < i + frames.length →
          pgn ≠ pagingPgn (addr + BitVec.ofNat 32 j * pagingPagesz)) →
        mapFrames addr pgnum i frames pgd pgn = pgd pgn := by
  intro frames
  induction frames with
  | nil =>
      intro i pgd _ _
      exact ⟨fun j hj => absurd hj (Nat.not_lt_zero j), fun _ _ => rfl⟩
  | cons f frames ih =>
      intro i pgd hnum hne
      simp only [List.length_cons] at hnum hne
      have hi : (i : ℤ) < pgnum := by omega
      simp only [mapFrames, hi, if_true]
      rcases ih (i + 1) (Function.update pgd (pagingPgn (addr + BitVec.ofNat 32 i * pagingPagesz))
          (pteSetFpn (pgd (pagingPgn (addr + BitVec.ofNat 32 i * pagingPagesz)))
            (BitVec.ofNat 32 f))) (by omega)
        (fun j k hij hjk hk => hne j k (by omega) hjk (by omega)) with ⟨hset, hother⟩
      refine ⟨fun j hj => ?_, fun pgn hpgn => ?_⟩
      · cases j with
        | zero =>
            -- the first page is set now, and by no later round
            have hfirst := hother _ fun k hik hk => hne i k (Nat.le_refl i) hik (by omega)
            rw [Function.update_self] at hfirst
            exact ⟨_, hfirst⟩
        | succ j =>
            have hlater := hset j (by simpa using hj)
            rwa [Nat.add_right_comm, Nat.add_assoc] at hlater
      · rw [hother pgn fun j hij hj => hpgn j (by omega) (by simp; omega)]
        exact Function.update_of_ne (hpgn i (Nat.le_refl i) (by simp)) _ _

/-! ## vm_map_ram -/

/-- The pages from `mapstart` on are online in the frames, in this order, and no other entry has
changed. -/
structure Mapped (mm mm' : Mm) (mapstart : Addr) (frames : List ℕ) : Prop where
  online : ∀ i (hi : i < frames.length) (pgn : Fin pagingMaxPgn),
    pgn.val = mapstart.toNat / 256 + i →
      pagingPagePresent (mm'.pgd pgn) = true ∧ pageSwapped (mm'.pgd pgn) = false ∧
        (pagingFpn (mm'.pgd pgn)).toNat = frames[i]
  others : ∀ pgn : Fin pagingMaxPgn,
    (∀ i < frames.length, pgn.val ≠ mapstart.toNat / 256 + i) → mm'.pgd pgn = mm.pgd pgn

theorem vmapPageRange_mapped (mm : Mm) {mapstart pgnum : Addr} {frames : List ℕ}
    (hnum : (frames.length : ℤ) = pgnum.toInt)
    (hend : mapstart.toNat + frames.length * 256 ≤ 2 ^ 22) (hsmall : ∀ f ∈ frames, f < 8192) :
    Mapped mm (mm.vmapPageRange mapstart pgnum frames).2 mapstart frames := by
  have hpage : ∀ i < frames.length,
      (pagingPgn (mapstart + BitVec.ofNat 32 i * pagingPagesz)).val = mapstart.toNat / 256 + i :=
    fun i hi => rangePage_val hend hi
  rcases mapFrames_apply mapstart pgnum.toInt frames 0 mm.pgd (by omega)
    (fun j k _ hjk hk heq => by
      have hval := congrArg Fin.val heq
      rw [hpage j (by omega), hpage k (by omega)] at hval
      omega) with ⟨hset, hother⟩
  refine ⟨fun i hi pgn hpgn => ?_, fun pgn hpgn => ?_⟩
  · obtain rfl : pgn = pagingPgn (mapstart + BitVec.ofNat 32 i * pagingPagesz) :=
      Fin.ext (hpgn.trans (hpage i hi).symm)
    rcases hset i hi with ⟨old, heq⟩
    rw [Nat.zero_add] at heq
    have hpte : (mm.vmapPageRange mapstart pgnum frames).2.pgd
        (pagingPgn (mapstart + BitVec.ofNat 32 i * pagingPagesz)) =
          pteSetFpn old (BitVec.ofNat 32 frames[i]) := heq
    have hlt := hsmall frames[i] (List.getElem_mem hi)
    have hfpn := pagingFpn_pteSetFpn old (BitVec.ofNat 32 frames[i])
    rw [BitVec.toNat_ofNat] at hfpn
    rw [hpte]
    exact ⟨pagingPagePresent_pteSetFpn _ _, pageSwapped_pteSetFpn _ _, by omega⟩
  · refine hother pgn fun j _ hj heq => ?_
    have hj' : j < frames.length := by omega
    exact hpgn j hj' ((congrArg Fin.val heq).trans (hpage j hj'))

/-- For every page directory, every free list of frame numbers below 8192 and every range inside the
address space: with enough frames, the pages of the range get the first of them in order, and
with too few nothing is mapped. -/
theorem vmMapRam_mapped (mm : Mm) {mram : Memphy} {mapstart incpgnum : Addr}
    (hpos : 0 ≤ incpgnum.toInt) (hend : mapstart.toNat + incpgnum.toNat * 256 ≤ 2 ^ 22)
    (hsmall : ∀ f ∈ mram.freeFpList, f < 8192) :
    (incpgnum.toNat ≤ mram.freeFpList.length →
      ∃ (rgStart rgEnd : ULong) (mm' : Mm),
        mm.vmMapRam mram mapstart incpgnum = (some (rgStart, rgEnd), mm',
          { mram with freeFpList := mram.freeFpList.drop incpgnum.toNat }) ∧
        Mapped mm mm' mapstart (mram.freeFpList.take incpgnum.toNat) ∧
        rgStart.toNat = mapstart.toNat ∧
        rgEnd.toNat = mapstart.toNat + incpgnum.toNat * 256) ∧
    (mram.freeFpList.length < incpgnum.toNat →
      ∃ mm' mram', mm.vmMapRam mram mapstart incpgnum = (none, mm', mram') ∧
        mm'.pgd = mm.pgd) := by
  have hnum : incpgnum.toInt = incpgnum.toNat := by
    rw [BitVec.toInt_eq_toNat_of_lt]
    omega
  have hcount : incpgnum.toInt.toNat = incpgnum.toNat := by omega
  refine ⟨fun henough => ?_, fun hshort => ?_⟩
  · have hlen : (mram.freeFpList.take incpgnum.toNat).length = incpgnum.toNat :=
      List.length_take_of_le henough
    have hmap : mm.vmMapRam mram mapstart incpgnum =
        (some (mm.vmapPageRange mapstart incpgnum (mram.freeFpList.take incpgnum.toNat)).1,
          (mm.vmapPageRange mapstart incpgnum (mram.freeFpList.take incpgnum.toNat)).2,
          { mram with freeFpList := mram.freeFpList.drop incpgnum.toNat }) := by
      simp only [vmMapRam, allocPagesRange, takeFrames_eq, hcount, henough, if_true,
        not_lt.2 hpos, if_false]
    refine ⟨_, _, _, hmap, ?_, ?_, ?_⟩
    · apply vmapPageRange_mapped
      · rw [hlen, hnum]
      · rw [hlen]
        exact hend
      · exact fun f hf => hsmall f (List.mem_of_mem_take hf)
    · exact toNat_signExtend_of_lt (by omega)
    · have hsize : pagingPagesz.toNat = 256 := rfl
      have hsum : (mapstart + incpgnum * pagingPagesz).toNat =
          mapstart.toNat + incpgnum.toNat * 256 := by
        rw [BitVec.toNat_add, BitVec.toNat_mul, hsize]
        omega
      rw [← hsum]
      exact toNat_signExtend_of_lt (by omega)
  · have hmap : mm.vmMapRam mram mapstart incpgnum =
        (none, mm, { mram with freeFpList := [] }) := by
      simp only [vmMapRam, allocPagesRange, takeFrames_eq, hcount, not_le.2 hshort, if_false]
    exact ⟨_, _, hmap, rfl⟩

/-- Two pages at the end of the first one, on a device of four frames. -/
theorem twoPages_mapped : ∃ (rgStart rgEnd : ULong) (mm' : Mm),
    zeroed.vmMapRam (.create 1024 true) 256#32 2#32 = (some (rgStart, rgEnd), mm',
      { Memphy.create 1024 true with freeFpList := (Memphy.create 1024 true).freeFpList.drop 2 }) ∧
    Mapped zeroed mm' 256#32 ((Memphy.create 1024 true).freeFpList.take 2) ∧
    rgStart.toNat = 256 ∧ rgEnd.toNat = 768 :=
  (vmMapRam_mapped zeroed (by decide) (by decide) (by decide)).1 (by decide)

end Mm
end MiniOs
