import Mathlib.Data.BitVec
import MiniOs.Common

/-!
# Pte — addresses and page table entries (`bitops.h`, `mm.h`, `mm.c`)

A 22-bit address is a page number of 14 bits and an offset of 8.  A page table entry holds the
present bit (31), the swapped bit (30), and in its low bits either a frame number (bits 0 to 12)
or a swap type and offset (bits 0 to 4 and 5 to 25).
-/

namespace MiniOs

/-! ## Bit operations -/

/-- `BIT(nr)` -/
def bit (nr : Nat) : Addr := 1#32 <<< nr

/-- `GENMASK(h, l)`, with the `BITS_PER_LONG` of a build without `CONFIG_64BIT`. -/
def genmask (h l : Nat) : Addr := (~~~0#32 <<< l) &&& (~~~0#32 >>> (32 - h - 1))

/-- `NBITS(n)` for an `unsigned int`: the number of its highest bit. -/
def nbits (n : Nat) : Nat :=
  let nbits2 n := if n &&& 2 ≠ 0 then 1 else 0
  let nbits4 n := if n &&& 0xC ≠ 0 then 2 + nbits2 (n >>> 2) else nbits2 n
  let nbits8 n := if n &&& 0xF0 ≠ 0 then 4 + nbits4 (n >>> 4) else nbits4 n
  let nbits16 n := if n &&& 0xFF00 ≠ 0 then 8 + nbits8 (n >>> 8) else nbits8 n
  let nbits32 n := if n &&& 0xFFFF0000 ≠ 0 then 16 + nbits16 (n >>> 16) else nbits16 n
  if n = 0 then 0 else nbits32 n

/-- `SETVAL(v, value, mask, offst)` -/
def setval (v value mask : Addr) (offst : Nat) : Addr :=
  (v &&& ~~~mask) ||| ((value <<< offst) &&& mask)

/-- `GETVAL(v, mask, offst)` -/
def getval (v mask : Addr) (offst : Nat) : Addr := (v &&& mask) >>> offst

/-- An `int` that is not negative is the same number as an `unsigned long`. -/
theorem toNat_signExtend_of_lt {x : Addr} (h : x.toNat < 2 ^ 31) :
    (x.signExtend 64).toNat = x.toNat := by
  have hmsb : x.msb = false := BitVec.msb_eq_false_iff_two_mul_lt.2 (by omega)
  rw [BitVec.signExtend_eq_setWidth_of_msb_false hmsb, BitVec.toNat_setWidth]
  omega

theorem toInt_nonneg_iff (x : Addr) : 0 ≤ x.toInt ↔ x.toNat < 2 ^ 31 := by
  have hlt := x.isLt
  rw [BitVec.toInt_eq_toNat_cond]
  split <;> omega

/-- An `int` that is not negative, as a number. -/
theorem toInt_eq_toNat {x : Addr} (h : 0 ≤ x.toInt) : x.toInt = x.toNat :=
  BitVec.toInt_eq_toNat_of_lt (by have := (toInt_nonneg_iff x).1 h; omega)

/-- `PAGING_PAGESZ` -/
def pagingPagesz : Addr := 256#32

/-- `PAGING_PAGE_ALIGNSZ(sz)` on an `int`; the division truncates towards zero. -/
def pagingPageAlignsz (sz : Addr) : Addr :=
  (sz + pagingPagesz - 1#32).sdiv pagingPagesz * pagingPagesz

/-- `PAGING_MAX_PGN` -/
abbrev pagingMaxPgn : Nat := 16384

/-! ## Addresses -/

/-- `PAGING_OFFST(x)` -/
def pagingOffst (x : Addr) : Addr := getval x (genmask 7 0) 0

theorem pgn_lt (x : Addr) : (getval x (genmask 21 8) 8).toNat < pagingMaxPgn := by
  have hmask : (genmask 21 8).toNat = 4194048 := by decide
  have hand : (x &&& genmask 21 8).toNat ≤ 4194048 := by
    rw [BitVec.toNat_and, hmask]
    exact Nat.and_le_right
  have hlt : (x &&& genmask 21 8).toNat / 2 ^ 8 < 16384 := by omega
  simpa [getval, BitVec.toNat_ushiftRight, Nat.shiftRight_eq_div_pow] using hlt

/-- `PAGING_PGN(x)`; it never exceeds `PAGING_MAX_PGN`. -/
def pagingPgn (x : Addr) : Fin pagingMaxPgn := ⟨(getval x (genmask 21 8) 8).toNat, pgn_lt x⟩

/-- Both fields of an address are given by the page size and the width of the bus. -/
theorem addressFields (x : Addr) :
    pagingOffst x = getval x (genmask (nbits 256 - 1) 0) 0 ∧
      (pagingPgn x).val = (getval x (genmask (22 - 1) (nbits 256)) (nbits 256)).toNat :=
  ⟨rfl, rfl⟩

theorem pagingPgn_val (x : Addr) : (pagingPgn x).val = x.toNat / 256 % 16384 := by
  -- the mask is shifted with the word, and becomes fourteen ones
  have hshift : getval x (genmask 21 8) 8 = (x >>> 8) &&& (genmask 21 8 >>> 8) :=
    BitVec.ushiftRight_and_distrib x _ 8
  have hmask : (genmask 21 8 >>> 8).toNat = 2 ^ 14 - 1 := by decide
  have hdiv : (x >>> 8).toNat = x.toNat / 2 ^ 8 := by
    rw [BitVec.toNat_ushiftRight, Nat.shiftRight_eq_div_pow]
  calc
    (pagingPgn x).val = (getval x (genmask 21 8) 8).toNat := rfl
    _ = ((x >>> 8) &&& (genmask 21 8 >>> 8)).toNat := by rw [hshift]
    _ = (x >>> 8).toNat &&& (2 ^ 14 - 1) := by rw [BitVec.toNat_and, hmask]
    _ = (x >>> 8).toNat % 2 ^ 14 := Nat.and_two_pow_sub_one_eq_mod _ 14
    _ = x.toNat / 256 % 16384 := congrArg (· % 16384) hdiv

theorem pagingOffst_toNat (x : Addr) : (pagingOffst x).toNat = x.toNat % 256 := by
  have hmask : (genmask 7 0).toNat = 2 ^ 8 - 1 := by decide
  have hand : (x &&& genmask 7 0).toNat = x.toNat % 2 ^ 8 := by
    rw [BitVec.toNat_and, hmask]
    exact Nat.and_two_pow_sub_one_eq_mod x.toNat 8
  simpa [pagingOffst, getval, BitVec.toNat_ushiftRight] using hand

/-! ## Page table entries -/

def pagingPtePresentMask : Addr := bit 31
def pagingPteSwappedMask : Addr := bit 30
def pagingPteFpnMask : Addr := genmask 12 0
def pagingPteSwptypMask : Addr := genmask 4 0
def pagingPteSwpoffMask : Addr := genmask 25 5

/-- `PAGING_PAGE_PRESENT(pte)` as a truth value. -/
def pagingPagePresent (pte : Addr) : Bool := (pte &&& pagingPtePresentMask) != 0#32

/-- The swapped bit as a truth value. -/
def pageSwapped (pte : Addr) : Bool := (pte &&& pagingPteSwappedMask) != 0#32

/-- `PAGING_FPN(pte)` -/
def pagingFpn (pte : Addr) : Addr := getval pte pagingPteFpnMask 0

/-- `PAGING_SWP(pte)` -/
def pagingSwp (pte : Addr) : Addr := (pte &&& pagingPteSwpoffMask) >>> 5

/-- `pte_set_swap` -/
def pteSetSwap (pte swptyp swpoff : Addr) : Addr :=
  let pte := pte ||| pagingPtePresentMask
  let pte := pte ||| pagingPteSwappedMask
  let pte := setval pte swptyp pagingPteSwptypMask 0
  setval pte swpoff pagingPteSwpoffMask 5

/-- `pte_set_fpn` -/
def pteSetFpn (pte fpn : Addr) : Addr :=
  let pte := pte ||| pagingPtePresentMask
  let pte := pte &&& ~~~pagingPteSwappedMask
  setval pte fpn pagingPteFpnMask 0

/-- The entry that `pg_getpage` stores for a page it has brought in. -/
def ptePresent (pte vicpgn : Addr) : Addr :=
  (pte &&& ~~~pagingPteFpnMask) ||| vicpgn ||| pagingPtePresentMask

/-- The page is in RAM: present and not marked as swapped out. -/
def pageOnline (pte : Addr) : Bool := pagingPagePresent pte && !pageSwapped pte

/-! ## Fields -/

theorem and_bit_ne_zero (pte : Addr) {i : Nat} (hi : i < 32) :
    ((pte &&& bit i) != 0#32) = pte[i] := by
  have hbit : bit i = BitVec.twoPow 32 i := (BitVec.twoPow_eq 32 i).symm
  have hpow : BitVec.twoPow 32 i ≠ 0#32 := by
    intro heq
    -- bit `i` of the power of two is set
    have hget := congrArg (fun x => BitVec.getLsbD x i) heq
    simp [hi] at hget
  rw [hbit, BitVec.and_twoPow, BitVec.getLsbD_eq_getElem hi]
  -- the mask leaves bit `i` alone
  cases hpte : pte[i] with
  | false => simp
  | true => simpa using hpow

theorem pagingPagePresent_eq (pte : Addr) : pagingPagePresent pte = pte[31] :=
  and_bit_ne_zero pte (by decide)

theorem pageSwapped_eq (pte : Addr) : pageSwapped pte = pte[30] :=
  and_bit_ne_zero pte (by decide)

/-- Storing a field leaves the bits outside its mask alone. -/
theorem getElem_setval {v value mask : Addr} {offst i : Nat} (hi : i < 32)
    (h : mask[i] = false) : (setval v value mask offst)[i] = v[i] := by
  simp [setval, h]

/-- A field is read back as it was stored, cut to its mask. -/
theorem getval_setval (v value mask : Addr) (offst : Nat) :
    getval (setval v value mask offst) mask offst = ((value <<< offst) &&& mask) >>> offst := by
  have hmask : setval v value mask offst &&& mask = (value <<< offst) &&& mask := by
    -- inside the mask the old bits are cleared first
    apply BitVec.eq_of_getElem_eq
    intro i hi
    cases hm : mask[i] <;> simp [setval, hm]
  rw [getval, hmask]

theorem pagingPagePresent_pteSetFpn (pte fpn : Addr) :
    pagingPagePresent (pteSetFpn pte fpn) = true := by
  have hmask : pagingPteFpnMask[31] = false := by decide
  have hswap : pagingPteSwappedMask[31] = false := by decide
  have hpres : pagingPtePresentMask[31] = true := by decide
  -- bit 31 is outside the frame number, and was set before
  rw [pagingPagePresent_eq, pteSetFpn, getElem_setval (by decide) hmask]
  simp [hswap, hpres]

theorem pagingPagePresent_ptePresent (pte vicpgn : Addr) :
    pagingPagePresent (ptePresent pte vicpgn) = true := by
  have hpres : pagingPtePresentMask[31] = true := by decide
  rw [pagingPagePresent_eq]
  simp [ptePresent, hpres]

theorem pageSwapped_pteSetFpn (pte fpn : Addr) : pageSwapped (pteSetFpn pte fpn) = false := by
  have hmask : pagingPteFpnMask[30] = false := by decide
  have hswap : pagingPteSwappedMask[30] = true := by decide
  -- bit 30 is outside the frame number, and was cleared before
  rw [pageSwapped_eq, pteSetFpn, getElem_setval (by decide) hmask]
  simp [hswap]

theorem pageOnline_pteSetFpn (pte fpn : Addr) : pageOnline (pteSetFpn pte fpn) = true := by
  simp [pageOnline, pagingPagePresent_pteSetFpn, pageSwapped_pteSetFpn]

theorem and_fpnMask_toNat (x : Addr) : (x &&& pagingPteFpnMask).toNat = x.toNat % 8192 := by
  have hmask : pagingPteFpnMask.toNat = 2 ^ 13 - 1 := by decide
  rw [BitVec.toNat_and, hmask]
  exact Nat.and_two_pow_sub_one_eq_mod x.toNat 13

theorem pagingFpn_toNat (pte : Addr) : (pagingFpn pte).toNat = pte.toNat % 8192 := by
  simpa [pagingFpn, getval, BitVec.toNat_ushiftRight] using and_fpnMask_toNat pte

theorem pagingFpn_lt (pte : Addr) : (pagingFpn pte).toNat < 8192 := by
  rw [pagingFpn_toNat]
  exact Nat.mod_lt _ (by decide)

/-- Only the low thirteen bits of a frame number fit into an entry. -/
theorem pagingFpn_pteSetFpn (pte fpn : Addr) :
    (pagingFpn (pteSetFpn pte fpn)).toNat = fpn.toNat % 8192 := by
  rw [pagingFpn, pteSetFpn, getval_setval]
  simpa [BitVec.toNat_ushiftRight] using and_fpnMask_toNat fpn

theorem pagingFpn_ptePresent (pte vicpgn : Addr) :
    (pagingFpn (ptePresent pte vicpgn)).toNat = vicpgn.toNat % 8192 := by
  have hmask : ptePresent pte vicpgn &&& pagingPteFpnMask = vicpgn &&& pagingPteFpnMask := by
    have hzero : pagingPtePresentMask &&& pagingPteFpnMask = 0#32 := by decide
    apply BitVec.eq_of_getElem_eq
    intro i hi
    have hpres : (pagingPtePresentMask[i] && pagingPteFpnMask[i]) = false := by
      rw [← BitVec.getElem_and, hzero]
      simp
    cases hm : pagingPteFpnMask[i] with
    | false => simp [hm]
    | true =>
        rw [hm, Bool.and_true] at hpres
        simp [ptePresent, hm, hpres]
  rw [pagingFpn, getval, hmask]
  simpa [BitVec.toNat_ushiftRight] using and_fpnMask_toNat vicpgn

/-- Bringing a page in does not mark it as swapped out. -/
theorem pageSwapped_ptePresent (pte : Addr) (vicpgn : Fin pagingMaxPgn) :
    pageSwapped (ptePresent pte (BitVec.ofNat 32 vicpgn.val)) = pageSwapped pte := by
  have hmask : pagingPteFpnMask[30] = false := by decide
  have hpres : pagingPtePresentMask[30] = false := by decide
  -- a page number has fourteen bits
  have hvic : (BitVec.ofNat 32 vicpgn.val)[30] = false := by
    have hlt : vicpgn.val < 16384 := vicpgn.isLt
    rw [← BitVec.getLsbD_eq_getElem, BitVec.getLsbD_ofNat]
    simp only [Nat.reduceLT, decide_true, Bool.true_and]
    exact Nat.testBit_lt_two_pow (by omega)
  rw [pageSwapped_eq, pageSwapped_eq]
  simp [ptePresent, hmask, hpres, hvic]

end MiniOs
