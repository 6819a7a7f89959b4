import MiniOs.Lib.Rounding
import MiniOs.Paging.Allocation

/-!
# Breaks — the three counters of an area

`bp`, `vm_end` and `sbrk` are moved by sizes that are rounded to pages in `int` arithmetic.  They
only grow, and stay inside the address space, as long as no size is read as a negative number and no
growth leads beyond the last page; the code tests neither.  An ALLOC that is served from the list of
free regions moves none of them, but it has an outcome only if what it writes is in the region
table.
-/

namespace MiniOs

open Lib

/-! ## Rounding -/

/-- The rounding of the code, as long as its sum is no negative `int`. -/
theorem pagingPageAlignsz_toNat {size : Addr} (h : size.toNat + 255 < 2 ^ 31) :
    (pagingPageAlignsz size).toNat = roundUp 256 size.toNat := by
  have hsize : pagingPagesz.toNat = 256 := rfl
  have hsum : (size + pagingPagesz - 1#32).toNat = size.toNat + 255 := by
    have hone : (1#32 : Addr).toNat = 1 := rfl
    rw [BitVec.toNat_sub, BitVec.toNat_add, hsize, hone]
    omega
  have hmsb : (size + pagingPagesz - 1#32).msb = false :=
    BitVec.msb_eq_false_iff_two_mul_lt.2 (by omega)
  have hpage : pagingPagesz.msb = false := by decide
  -- both signs are plus, so the division is the one of natural numbers
  have hdiv :
      ((size + pagingPagesz - 1#32).sdiv pagingPagesz).toNat = (size.toNat + 255) / 256 := by
    rw [BitVec.sdiv_eq, hmsb, hpage]
    simp only [BitVec.udiv_eq, BitVec.toNat_udiv, hsum, hsize]
  rw [pagingPageAlignsz, BitVec.toNat_mul, hdiv, hsize, roundUp]
  omega

namespace Caller

/-! ## Calls -/

/-- ALLOC, and SYSCALL 17 with `SYSMEM_INC_OP`. -/
inductive BreakOp
  | alloc (size rgid : Addr)
  | incOp (vmaid size : Addr)

def BreakOp.size : BreakOp → Addr
  | .alloc size _ => size
  | .incOp _ size => size

/-- The area whose limit is increased. -/
def BreakOp.vmaid : BreakOp → Addr
  | .alloc _ _ => 0#32
  | .incOp vmaid _ => vmaid

def performBreak (c : Caller) : BreakOp → Option (Int × Caller)
  | .alloc size rgid => c.liballoc size rgid
  | .incOp vmaid size => some (c.incVmaLimit vmaid size)

def execBreak (c : Caller) (op : BreakOp) : Option Caller := (c.performBreak op).map Prod.snd

/-- The call rounds its size: there is no free region to serve an ALLOC from. -/
def Rounds (c : Caller) : BreakOp → Prop
  | .alloc _ _ => c.mm.mmap.vmFreergList = none
  | .incOp _ _ => True

/-! ## What the counters should do -/

/-- The counters are multiples of a page that are no negative `int`s, and the area ends inside the
address space. -/
structure Counters (c : Caller) : Prop where
  aligned : 256 ∣ c.bp.toNat ∧ 256 ∣ c.mm.mmap.sbrk.toNat ∧ 256 ∣ c.mm.mmap.vmEnd.toNat
  positive : c.bp.toNat < 2 ^ 31 ∧ c.mm.mmap.sbrk.toNat < 2 ^ 31
  vmEnd_le : c.mm.mmap.vmEnd.toNat ≤ 2 ^ 22

/-- No two pages of the area share an entry of the directory. -/
def PagesApart (c : Caller) : Prop :=
  ∀ a b : Addr, a.toNat < c.mm.mmap.vmEnd.toNat → b.toNat < c.mm.mmap.vmEnd.toNat →
    pagingPgn a = pagingPgn b → a.toNat / 256 = b.toNat / 256

/-- No counter has decreased. -/
structure Advances (c c' : Caller) : Prop where
  bp : c.bp.toNat ≤ c'.bp.toNat
  sbrk : c.mm.mmap.sbrk.toNat ≤ c'.mm.mmap.sbrk.toNat
  vmEnd : c.mm.mmap.vmEnd.toNat ≤ c'.mm.mmap.vmEnd.toNat

/-- What a call should do: it has an outcome, its size, the first term of the rounding and the
result are no negative `int`s, the result is the least multiple or the call fails, and the counters
advance as counters. -/
structure BreakOk (c : Caller) (op : BreakOp) : Prop where
  outcome : (c.performBreak op).isSome
  size : 0 ≤ op.size.toInt
  terms : c.Rounds op → 0 ≤ (op.size + pagingPagesz).toInt ∧ 0 ≤ (pagingPageAlignsz op.size).toInt
  rounded : c.Rounds op →
    IsLeast {m | 256 ∣ m ∧ op.size.toNat ≤ m} (pagingPageAlignsz op.size).toNat ∨
      ∀ ret c', c.performBreak op = some (ret, c') → ret ≠ 0
  counters : ∀ ret c', c.performBreak op = some (ret, c') → c.Advances c' ∧ c'.Counters
  pages : ∀ ret c', c.performBreak op = some (ret, c') → c'.PagesApart

/-- The condition on a call: the size is no negative `int`, the break pointer stays one that is
none, and if the area grows, it ends inside the address space. -/
def SizeFits (c : Caller) (op : BreakOp) : Prop :=
  op.size.toNat < 2 ^ 31 ∧ (c.Rounds op →
    c.bp.toNat + roundUp 256 op.size.toNat < 2 ^ 31 ∧
    (op.vmaid.toInt ≤ 0 → c.bp.toNat + roundUp 256 op.size.toNat ≤ 2 ^ 22))

/-- An ALLOC with a free list that is not empty: the identifier is in the region table, the search
ends on nodes that are there, and a region it uses up has a node from `malloc`. -/
def ServedInTable (c : Caller) : BreakOp → Prop
  | .alloc size rgid => c.mm.mmap.vmFreergList ≠ none →
      IsRegionId rgid ∧ (c.mm.found size).isSome ∧ c.mm.SparesEntries size
  | .incOp _ _ => True

/-- The invariant: the break pointer is ahead of the two others. -/
structure Ordered (c : Caller) : Prop where
  counters : c.Counters
  sbrk_le : c.mm.mmap.sbrk.toNat ≤ c.bp.toNat
  vmEnd_le : c.mm.mmap.vmEnd.toNat ≤ c.bp.toNat
  pageSize_le : 1024 ≤ c.bp.toNat

theorem Counters.pagesApart {c : Caller} (h : c.Counters) : c.PagesApart := by
  intro a b ha hb heq
  have hend := h.vmEnd_le
  have hval := congrArg Fin.val heq
  rw [pagingPgn_val, pagingPgn_val] at hval
  omega

/-! ## One call -/

/-- Whatever else becomes of an allowed growth, the end of the area moves with the break
pointer. -/
theorem incVmaLimit_vmEnd {c : Caller} {vmaid : Addr} (incSz : Addr) (h : c.MayGrow vmaid) :
    (c.incVmaLimit vmaid incSz).2.mm.mmap.vmEnd =
      (c.bp + pagingPageAlignsz incSz).setWidth 64 := by
  have hgot := c.incVmaLimit_got vmaid incSz
  generalize c.incVmaLimit vmaid incSz = r at hgot ⊢
  cases hgot with
  | refused hno => exact absurd h hno
  | _ => rfl

/-- While the break pointer is ahead, only a wrong area is refused. -/
theorem Ordered.mayGrow_iff {c : Caller} (h : c.Ordered) (vmaid : Addr) :
    c.MayGrow vmaid ↔ vmaid.toInt ≤ 0 := by
  have hbp := toNat_signExtend_of_lt h.counters.positive.1
  have hle := h.vmEnd_le
  refine and_iff_left ?_
  rw [BitVec.lt_def, hbp]
  omega

/-- The counters behind a growth by `n` bytes. -/
structure Moved (c : Caller) (vmaid : Addr) (n : ℕ) (c' : Caller) : Prop where
  bp : c'.bp.toNat = c.bp.toNat + n
  vmEnd : c'.mm.mmap.vmEnd.toNat =
    if vmaid.toInt ≤ 0 then c.bp.toNat + n else c.mm.mmap.vmEnd.toNat

theorem Ordered.incVmaLimit {c : Caller} (h : c.Ordered) (vmaid : Addr) {incSz : Addr} {n : ℕ}
    (hamt : (pagingPageAlignsz incSz).toNat = n) (hn : n < 2 ^ 31) :
    c.Moved vmaid n (c.incVmaLimit vmaid incSz).2 := by
  have hbp := h.counters.positive.1
  have hsum : (c.bp + pagingPageAlignsz incSz).toNat = c.bp.toNat + n := by
    rw [BitVec.toNat_add, hamt]
    omega
  refine ⟨by rw [incVmaLimit_bp, hsum], ?_⟩
  by_cases hid : vmaid.toInt ≤ 0
  · have hwide : ((c.bp + pagingPageAlignsz incSz).setWidth 64).toNat = c.bp.toNat + n := by
      rw [BitVec.toNat_setWidth, hsum]
      omega
    rw [if_pos hid, incVmaLimit_vmEnd incSz ((h.mayGrow_iff vmaid).2 hid), hwide]
  · rw [if_neg hid, incVmaLimit_refused fun hmay => hid ((h.mayGrow_iff vmaid).1 hmay)]

/-- An ALLOC that is served from the list moves no counter. -/
theorem alloc_counters {c c' : Caller} {rgid size : Addr} {addr : Option Addr}
    (hlist : c.mm.mmap.vmFreergList ≠ none) (h : c.alloc rgid size = some (addr, c')) :
    c'.bp = c.bp ∧ c'.mm.mmap.sbrk = c.mm.mmap.sbrk ∧ c'.mm.mmap.vmEnd = c.mm.mmap.vmEnd := by
  rcases alloc_listed_cases hlist h with ⟨i, bounds, mm, _, hprobed, _, rfl⟩
  have hmmap := (Mm.probed_sameButNodes hprobed).mmap
  refine ⟨rfl, ?_, ?_⟩
  · rw [enter, Mm.setRg_mmap, hmmap]
  · rw [enter, Mm.setRg_mmap, hmmap]

/-- A call that rounds its size `size` to `n` bytes has an outcome, in which the break pointer and
the end of the area have moved by `n`, and the break of the area perhaps. -/
theorem Ordered.performBreak {c : Caller} (h : c.Ordered) {op : BreakOp} (hrounds : c.Rounds op)
    (hsize : op.size.toNat + 255 < 2 ^ 31) :
    ∃ ret c', c.performBreak op = some (ret, c') ∧
      c.Moved op.vmaid (roundUp 256 op.size.toNat) c' ∧
      (c'.mm.mmap.sbrk = c.mm.mmap.sbrk ∨
        c'.mm.mmap.sbrk = ((c.mm.mmap.sbrk.setWidth 32 : Addr) +
          pagingPageAlignsz op.size).signExtend 64) := by
  have hn : roundUp 256 op.size.toNat + 255 < 2 ^ 31 := by
    have hle : roundUp 256 op.size.toNat ≤ 2 ^ 31 - 256 :=
      roundUp_le (by decide) (by decide) (by omega)
    omega
  have hamt := pagingPageAlignsz_toNat hsize
  cases op with
  | incOp vmaid size =>
      have hmoved := h.incVmaLimit vmaid hamt (by omega)
      exact ⟨_, _, rfl, hmoved, Or.inl (c.incVmaLimit_refused_fields vmaid size).1.sbrk⟩
  | alloc size rgid =>
      -- the rounded size is rounded again
      have hamt₂ : (pagingPageAlignsz (pagingPageAlignsz size)).toNat = roundUp 256 size.toNat := by
        dsimp only [BreakOp.size] at hamt hn
        have hagain := pagingPageAlignsz_toNat (hamt.symm ▸ hn)
        rw [hagain, hamt]
        exact roundUp_roundUp (by decide) _
      have hmoved := h.incVmaLimit 0#32 hamt₂ (by dsimp only [BreakOp.size] at hn; omega)
      have hsbrk := (c.incVmaLimit_refused_fields 0#32 (pagingPageAlignsz size)).1.sbrk
      have hlist : c.mm.mmap.vmFreergList = none := hrounds
      rw [Caller.performBreak, liballoc, alloc_growth rgid size hlist]
      split
      · exact ⟨_, _, rfl, hmoved, Or.inl hsbrk⟩
      · exact ⟨_, _, rfl, ⟨hmoved.bp, hmoved.vmEnd⟩, Or.inr rfl⟩

/-- Counters that move by the same multiple of the page size, or stay, advance and stay in order. -/
theorem Ordered.moveBy {c c' : Caller} {n : ℕ} (h : c.Ordered) (hdvd : 256 ∣ n)
    (hlimit : c.bp.toNat + n < 2 ^ 31) (hbp : c'.bp.toNat = c.bp.toNat + n)
    (hsbrk : c'.mm.mmap.sbrk.toNat = c.mm.mmap.sbrk.toNat ∨
      c'.mm.mmap.sbrk.toNat = c.mm.mmap.sbrk.toNat + n)
    (hend : c'.mm.mmap.vmEnd.toNat = c.mm.mmap.vmEnd.toNat ∨
      c'.mm.mmap.vmEnd.toNat = c.bp.toNat + n ∧ c.bp.toNat + n ≤ 2 ^ 22) :
    c.Advances c' ∧ c'.Ordered := by
  rcases h.counters.aligned with ⟨hdbp, hdsbrk, hdend⟩
  have hlow := h.pageSize_le
  have hsbrkLe := h.sbrk_le
  have hendLe := h.vmEnd_le
  have hcap := h.counters.vmEnd_le
  refine ⟨⟨by omega, by omega, by omega⟩, ⟨⟨?_, ?_, ?_⟩, ⟨by omega, by omega⟩, by omega⟩, by omega,
    by omega, by omega⟩
  · exact hbp ▸ Nat.dvd_add hdbp hdvd
  · rcases hsbrk with heq | heq
    · exact heq ▸ hdsbrk
    · exact heq ▸ Nat.dvd_add hdsbrk hdvd
  · rcases hend with heq | ⟨heq, _⟩
    · exact heq ▸ hdend
    · exact heq ▸ Nat.dvd_add hdbp hdvd

/-- Step lemma: a call whose size fits advances the counters and keeps them in order. -/
theorem Ordered.step {c c' : Caller} {op : BreakOp} {ret : Int} (h : c.Ordered)
    (hfits : c.SizeFits op) (hstep : c.performBreak op = some (ret, c')) :
    c.Advances c' ∧ c'.Ordered := by
  by_cases hrounds : c.Rounds op
  · have hlow := h.pageSize_le
    have hle := le_roundUp (show 0 < 256 by decide) op.size.toNat
    have hfit := hfits.2 hrounds
    rcases h.performBreak hrounds (by omega) with ⟨ret', c₁, hperform, hmoved, hsbrk⟩
    obtain ⟨rfl, rfl⟩ : ret' = ret ∧ c₁ = c' := by
      have heq := hperform.symm.trans hstep
      simpa using heq
    refine h.moveBy (dvd_roundUp 256 op.size.toNat) hfit.1 hmoved.bp ?_ ?_
    · rcases hsbrk with hsame | hmore
      · exact Or.inl (by rw [hsame])
      · have hbelow := h.sbrk_le
        have hsum : ((c.mm.mmap.sbrk.setWidth 32 : Addr) + pagingPageAlignsz op.size).toNat =
            c.mm.mmap.sbrk.toNat + roundUp 256 op.size.toNat := by
          rw [BitVec.toNat_add, BitVec.toNat_setWidth, pagingPageAlignsz_toNat (by omega)]
          omega
        exact Or.inr (by rw [hmore, toNat_signExtend_of_lt (by omega), hsum])
    · by_cases hid : op.vmaid.toInt ≤ 0
      · exact Or.inr ⟨by rw [hmoved.vmEnd, if_pos hid], hfit.2 hid⟩
      · exact Or.inl (by rw [hmoved.vmEnd, if_neg hid])
  · -- an ALLOC from the list
    cases op with
    | incOp vmaid size => exact absurd trivial hrounds
    | alloc size rgid =>
        rcases Option.map_eq_some_iff.1 hstep with ⟨⟨addr, c₁⟩, halloc, heq⟩
        obtain ⟨_, rfl⟩ := Prod.mk.inj heq
        rcases alloc_counters hrounds halloc with ⟨hbp, hsbrk, hend⟩
        refine h.moveBy (Nat.dvd_zero 256) h.counters.positive.1 ?_ (Or.inl ?_) (Or.inl ?_)
        · rw [hbp, Nat.add_zero]
        · rw [hsbrk]
        · rw [hend]

theorem performBreak_isSome_iff (c : Caller) (op : BreakOp) :
    (c.performBreak op).isSome ↔ c.ServedInTable op := by
  cases op with
  | alloc size rgid =>
      rw [Caller.performBreak, liballoc, Option.isSome_map]
      exact c.alloc_isSome_iff rgid size
  | incOp vmaid size => exact iff_of_true rfl trivial

/-- While the counters are in order, a call does what it should exactly if its size fits and it has
an outcome. -/
theorem Ordered.breakOk_iff {c : Caller} (h : c.Ordered) (op : BreakOp) :
    c.BreakOk op ↔ c.SizeFits op ∧ c.ServedInTable op := by
  have hlow := h.pageSize_le
  have hsize : pagingPagesz.toNat = 256 := rfl
  have hle := le_roundUp (show 0 < 256 by decide) op.size.toNat
  constructor
  · intro hok
    have hpos := (toInt_nonneg_iff _).1 hok.size
    refine ⟨⟨hpos, fun hrounds => ?_⟩, (c.performBreak_isSome_iff op).1 hok.outcome⟩
    -- the first term of the rounding does not overflow, so the counters have moved
    have hterm := (toInt_nonneg_iff _).1 (hok.terms hrounds).1
    rw [BitVec.toNat_add, hsize] at hterm
    rcases h.performBreak hrounds (by omega) with ⟨ret, c', hperform, hmoved, _⟩
    have hcounters := (hok.counters ret c' hperform).2
    have hbp := hmoved.bp
    have hlimit := hcounters.positive.1
    refine ⟨by omega, fun hid => ?_⟩
    have hend := hmoved.vmEnd
    rw [if_pos hid] at hend
    exact hend ▸ hcounters.vmEnd_le
  · rintro ⟨hfits, hserved⟩
    refine ⟨(c.performBreak_isSome_iff op).2 hserved, (toInt_nonneg_iff _).2 hfits.1,
      fun hrounds => ?_, fun hrounds => ?_, fun ret c' hperform => ?_, fun ret c' hperform => ?_⟩
    · have hfit := (hfits.2 hrounds).1
      have hamt : (pagingPageAlignsz op.size).toNat = roundUp 256 op.size.toNat :=
        pagingPageAlignsz_toNat (by omega)
      rw [toInt_nonneg_iff, toInt_nonneg_iff, hamt, BitVec.toNat_add, hsize]
      omega
    · have hfit := (hfits.2 hrounds).1
      left
      rw [pagingPageAlignsz_toNat (by omega)]
      exact isLeast_roundUp (by decide) _
    · rcases h.step hfits hperform with ⟨hadvances, hordered⟩
      exact ⟨hadvances, hordered.counters⟩
    · exact (h.step hfits hperform).2.counters.pagesApart

/-! ## Runs -/

/-- A loaded process, on storage with any contents. -/
def loadedOn (stale : Mm) (mram activeMswp : Memphy) : Caller :=
  ⟨pageSize, Mm.initMm stale, mram, activeMswp⟩

theorem loadedOn_ordered (stale : Mm) (mram activeMswp : Memphy) :
    (loadedOn stale mram activeMswp).Ordered := by
  have hbp : (loadedOn stale mram activeMswp).bp.toNat = 1024 := rfl
  have hsbrk : (loadedOn stale mram activeMswp).mm.mmap.sbrk.toNat = 0 := rfl
  have hend : (loadedOn stale mram activeMswp).mm.mmap.vmEnd.toNat = 0 := rfl
  refine ⟨⟨⟨?_, ?_, ?_⟩, ⟨?_, ?_⟩, ?_⟩, ?_, ?_, ?_⟩ <;> simp only [hbp, hsbrk, hend] <;> decide

/-- For every process and every sequence of ALLOC and SYSMEM_INC_OP calls of any sizes: each call
has an outcome in which the counters do what they should exactly if each size fits, and an ALLOC
that is served from the free list writes to the region table. -/
theorem breaks_ok_iff (stale : Mm) (mram activeMswp : Memphy) (ops : List BreakOp) :
    Along execBreak BreakOk (loadedOn stale mram activeMswp) ops ↔
      Along execBreak (fun c op => c.SizeFits op ∧ c.ServedInTable op)
        (loadedOn stale mram activeMswp) ops := by
  apply along_iff_of_kept (I := Ordered)
  · exact fun h => h.breakOk_iff _
  · intro c op c' h hfits hexec
    rcases Option.map_eq_some_iff.1 hexec with ⟨⟨ret, c₁⟩, hperform, rfl⟩
    exact (h.step hfits.1 hperform).2
  · exact loadedOn_ordered stale mram activeMswp

/-- SYSCALL 17 2 0 4294966784, which is -512 as an `int`: the break pointer falls. -/
theorem fallingBreak_not_ok :
    ¬ Along execBreak BreakOk (loadedOn Mm.zeroed (.create 1024 true) (.create 1024 true))
      [.incOp 0#32 4294966784#32] := by
  rintro ⟨hok, _⟩
  have hbad : ∃ ret c', (loadedOn Mm.zeroed (.create 1024 true) (.create 1024 true)).performBreak
      (.incOp 0#32 4294966784#32) = some (ret, c') ∧ c'.bp.toNat = 768 := ⟨_, _, rfl, by decide⟩
  rcases hbad with ⟨ret, c', hperform, hbp⟩
  have hle := (hok.counters ret c' hperform).1.bp
  rw [hbp] at hle
  exact absurd hle (by decide)

end Caller
end MiniOs
