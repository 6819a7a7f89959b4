import MiniOs.Paging.Contents

/-!
# PteUpdates — an entry decodes to what was stored last

The frame number and the two swap fields share bits, so each update leaves some of the bits of the
other encoding behind.  None of them is in a field that the last update has set.
-/

namespace MiniOs

/-! ## Fields -/

/-- A value that fits into its field is read back. -/
theorem getval_setval_of_lt {value mask : Addr} {offst n : Nat}
    (hmask : ∀ i < 32 - offst, mask.getLsbD (offst + i) = decide (i < n)) (hn : offst + n ≤ 32)
    (hlt : value.toNat < 2 ^ n) (v : Addr) :
    getval (setval v value mask offst) mask offst = value := by
  rw [getval_setval]
  apply BitVec.eq_of_getLsbD_eq
  intro i hi
  have hvalue : n ≤ i → value.getLsbD i = false := fun hle =>
    Nat.testBit_lt_two_pow (Nat.lt_of_lt_of_le hlt (Nat.pow_le_pow_right (by decide) hle))
  rw [BitVec.getLsbD_ushiftRight, BitVec.getLsbD_and, BitVec.getLsbD_shiftLeft]
  -- the field has the bits below `n`, and the value has no others
  by_cases hin : i < n
  · have hfield := hmask i (by omega)
    have hsum : offst + i < 32 := by omega
    simp [hfield, hin, hsum]
  · rw [hvalue (Nat.not_lt.1 hin)]
    by_cases hsum : offst + i < 32
    · have hfield := hmask i (by omega)
      simp [hfield, hin]
    · simp [hsum]

/-- Storing one field leaves a field without common bits alone. -/
theorem getval_setval_of_disjoint {mask mask' : Addr} (h : mask' &&& mask = 0#32)
    (v value : Addr) (offst offst' : Nat) :
    getval (setval v value mask' offst') mask offst = getval v mask offst := by
  have hand : setval v value mask' offst' &&& mask = v &&& mask := by
    apply BitVec.eq_of_getElem_eq
    intro i hi
    have hbit : (mask'[i] && mask[i]) = false := by
      rw [← BitVec.getElem_and, h]
      simp
    cases hm : mask[i] with
    | false => simp [hm]
    | true =>
        rw [hm, Bool.and_true] at hbit
        simp [setval, hm, hbit]
  rw [getval, getval, hand]

/-- The swap type. -/
def pagingSwptyp (pte : Addr) : Addr := getval pte pagingPteSwptypMask 0

theorem pagingSwptyp_pteSetSwap (pte swpoff : Addr) {swptyp : Addr} (h : swptyp.toNat < 2 ^ 5) :
    pagingSwptyp (pteSetSwap pte swptyp swpoff) = swptyp := by
  rw [pagingSwptyp, pteSetSwap, getval_setval_of_disjoint (by decide)]
  exact getval_setval_of_lt (n := 5) (by decide) (by decide) h _

theorem pagingSwp_pteSetSwap (pte swptyp : Addr) {swpoff : Addr} (h : swpoff.toNat < 2 ^ 21) :
    pagingSwp (pteSetSwap pte swptyp swpoff) = swpoff :=
  getval_setval_of_lt (n := 21) (by decide) (by decide) h _

/-! ## Updates -/

inductive PteUpdate
  | setFpn (fpn : Addr)
  | setSwap (swptyp swpoff : Addr)

namespace PteUpdate

def apply (pte : Addr) : PteUpdate → Addr
  | .setFpn fpn => pteSetFpn pte fpn
  | .setSwap swptyp swpoff => pteSetSwap pte swptyp swpoff

def applyAll (pte : Addr) (us : List PteUpdate) : Addr := us.foldl apply pte

/-- The arguments fit into their fields. -/
def InRange : PteUpdate → Prop
  | .setFpn fpn => fpn.toNat < 2 ^ 13
  | .setSwap swptyp swpoff => swptyp.toNat < 2 ^ 5 ∧ swpoff.toNat < 2 ^ 21

/-- The entry shows what the update has stored. -/
def Shows (pte : Addr) : PteUpdate → Prop
  | .setFpn fpn => pagingPagePresent pte = true ∧ pageSwapped pte = false ∧ pagingFpn pte = fpn
  | .setSwap swptyp swpoff =>
      pageSwapped pte = true ∧ pagingSwptyp pte = swptyp ∧ pagingSwp pte = swpoff

theorem shows_apply (pte : Addr) {u : PteUpdate} (h : u.InRange) : Shows (u.apply pte) u := by
  cases u with
  | setFpn fpn =>
      refine ⟨pagingPagePresent_pteSetFpn pte fpn, pageSwapped_pteSetFpn pte fpn, ?_⟩
      apply BitVec.eq_of_toNat_eq
      exact (pagingFpn_pteSetFpn pte fpn).trans (Nat.mod_eq_of_lt h)
  | setSwap swptyp swpoff =>
      exact ⟨(setSwapped_pteSetSwap pte swptyp swpoff).2, pagingSwptyp_pteSetSwap pte swpoff h.1,
        pagingSwp_pteSetSwap pte swptyp h.2⟩

/-- Bits 26 to 29 belong to no field. -/
theorem getElem_apply (pte : Addr) (u : PteUpdate) {i : Nat} (hi : i < 32) (hlow : 26 ≤ i)
    (hhigh : i ≤ 29) : (u.apply pte)[i] = pte[i] := by
  have hbits : ∀ j (hj : j < 32), 26 ≤ j → j ≤ 29 →
      pagingPtePresentMask[j] = false ∧ pagingPteSwappedMask[j] = false ∧
        pagingPteFpnMask[j] = false ∧ pagingPteSwptypMask[j] = false ∧
          pagingPteSwpoffMask[j] = false := by decide
  rcases hbits i hi hlow hhigh with ⟨hpres, hswap, hfpn, htyp, hoff⟩
  cases u with
  | setFpn fpn =>
      rw [apply, pteSetFpn, getElem_setval hi hfpn]
      simp [hpres, hswap]
  | setSwap swptyp swpoff =>
      rw [apply, pteSetSwap, getElem_setval hi hoff, getElem_setval hi htyp]
      simp [hpres, hswap]

theorem getElem_applyAll (us : List PteUpdate) {i : Nat} (hi : i < 32) (hlow : 26 ≤ i)
    (hhigh : i ≤ 29) : ∀ pte : Addr, (applyAll pte us)[i] = pte[i] := by
  induction us with
  | nil => exact fun _ => rfl
  | cons u us ih => exact fun pte => (ih (u.apply pte)).trans (getElem_apply pte u hi hlow hhigh)

/-- For every entry and every sequence of updates with arguments in range. -/
theorem applyAll_shows (pte : Addr) {us : List PteUpdate} (h : ∀ u ∈ us, u.InRange) :
    (∀ u, us.getLast? = some u → Shows (applyAll pte us) u) ∧
      ∀ i (hi : i < 32), 26 ≤ i → i ≤ 29 → (applyAll pte us)[i] = pte[i] := by
  refine ⟨fun u hlast => ?_, fun i hi hlow hhigh => getElem_applyAll us hi hlow hhigh pte⟩
  -- the last update is applied to the entry that the others have left
  rcases List.getLast?_eq_some_iff.1 hlast with ⟨before, rfl⟩
  have hu := h u (by simp)
  rw [applyAll, List.foldl_append]
  exact shows_apply _ hu

/-- A page that is swapped out over its old frame number. -/
theorem applyAll_shows_swapped :
    Shows (applyAll 0x3C001234 [.setFpn 0x1ABC, .setSwap 3 0x155555]) (.setSwap 3 0x155555) ∧
      ∀ i (hi : i < 32), 26 ≤ i → i ≤ 29 →
        (applyAll 0x3C001234 [.setFpn 0x1ABC, .setSwap 3 0x155555])[i] =
          (0x3C001234 : Addr)[i] := by
  have hrange : ∀ u ∈ [setFpn 0x1ABC, setSwap 3 0x155555], u.InRange := by
    intro u hu
    rcases List.mem_pair.1 hu with rfl | rfl
    · exact (by decide : (0x1ABC : Addr).toNat < 2 ^ 13)
    · exact ⟨by decide, by decide⟩
  have h := applyAll_shows 0x3C001234 hrange
  exact ⟨h.1 _ rfl, h.2⟩

end PteUpdate
end MiniOs
