import MiniOs.Paging.Cpu
import MiniOs.Paging.Failures

/-!
# Reports — what the return value of `run` says

`run` should return 0 exactly when the instruction took full effect, and 1 otherwise.  The layers
below return 0 or -1, and several of them drop what they get from the layer below.  For each
instruction this file says what its full effect is, and when the return value tells the truth.
-/

namespace MiniOs

/-- The contract of `run`, for a return value and what it should report. -/
def Truthful (ret : Int) (effect : Prop) : Prop := (ret = 0 ∨ ret = 1) ∧ (ret = 0 ↔ effect)

@[simp] theorem truthful_zero {effect : Prop} : Truthful 0 effect ↔ effect := by
  simp [Truthful]

@[simp] theorem truthful_one {effect : Prop} : Truthful 1 effect ↔ ¬ effect := by
  simp [Truthful]

/-- The error code of the lower layers is not one of `run`. -/
@[simp] theorem not_truthful_neg_one {effect : Prop} : ¬ Truthful (-1) effect := by
  simp [Truthful]

/-- The entry records a region of `size` bytes. -/
def VmRg.Recorded (rg : VmRg) (size : Addr) : Prop :=
  rg.rgStart ≠ -1 ∧ rg.rgEnd.toNat = rg.rgStart.toNat + size.toNat

namespace Memphy

/-- An access that has an outcome succeeds exactly on a random access device. -/
theorem read_data_iff {mp : Memphy} {addr : Addr} (h : (mp.read addr).isSome) (data : Byte) :
    (∃ mp', mp.read addr = some (some data, mp')) ↔
      mp.rdmflg = true ∧ mp.storage addr.toNat = data := by
  rw [read_isSome_iff] at h
  unfold read seqRead
  cases hflag : mp.rdmflg with
  | false => simp
  | true => simp [h hflag]

theorem write_zero_iff {mp mp' : Memphy} {addr : Addr} {data : Byte} {val : Int}
    (h : mp.write addr data = some (val, mp')) : val = 0 ↔ mp.rdmflg = true := by
  simp only [write, seqWrite] at h
  cases hflag : mp.rdmflg with
  | false =>
      simp only [hflag, Bool.false_eq_true, if_false, Bool.not_false, if_true] at h
      obtain ⟨rfl, rfl⟩ := Prod.mk.inj (Option.some.inj h)
      simp
  | true =>
      simp only [hflag, if_true] at h
      split at h
      · obtain ⟨rfl, rfl⟩ := Prod.mk.inj (Option.some.inj h)
        simp
      · cases h

end Memphy

namespace Mm

/-! ## Regions -/

/-- The first region of the list with room for `size` bytes, both read as `int`. -/
def fitFrom (mm : Mm) (size : Addr) : (fuel : Nat) → Option RgPtr → Option VmRg
  | 0, _ | _, none => none
  | fuel + 1, some p =>
      (mm.rg p).bind fun rgit =>
        if size.toInt ≤ ((rgit.rgEnd - rgit.rgStart).setWidth 32 : Addr).toInt then some rgit
        else fitFrom mm size fuel rgit.rgNext

def firstFit (mm : Mm) (size : Addr) : Option VmRg :=
  mm.fitFrom size (mm.rgHeap.length + pagingMaxSymtblSz + 1) mm.mmap.vmFreergList

/-- It is the region at which the search ends. -/
theorem search_fitFrom {mm : Mm} {size : Addr} {found : Option (Option RgPtr × RgPtr × VmRg)}
    (fuel : Nat) : ∀ {prev rgit : Option RgPtr}, mm.search size fuel prev rgit = some found →
      mm.fitFrom size fuel rgit = found.map fun r => r.2.2 := by
  induction fuel with
  | zero =>
      intro prev rgit h
      cases h
  | succ fuel ih =>
      intro prev rgit h
      cases rgit with
      | none =>
          obtain rfl := Option.some.inj h
          rfl
      | some p =>
          rcases Option.bind_eq_some_iff.1 h with ⟨rg, hrg, hrest⟩
          rw [fitFrom, hrg, Option.bind_some]
          by_cases hfit : rg.Fits size
          · rw [if_pos hfit] at hrest
            obtain rfl := Option.some.inj hrest
            exact if_pos hfit
          · rw [if_neg hfit] at hrest
            exact (if_neg hfit).trans (ih hrest)

/-- The search gives the front of the first fit, or the bounds it began with. -/
theorem probed_bounds {mm mm' : Mm} {size : Addr} {bounds : ULong × ULong}
    (h : mm.probed size = some (bounds, mm')) :
    bounds = ((mm.firstFit size).map fun rg =>
      (rg.rgStart, rg.rgStart + size.signExtend 64)).getD (-1, -1) := by
  rcases Option.bind_eq_some_iff.1 h with ⟨found, hfound, hgive⟩
  rw [firstFit, search_fitFrom _ hfound]
  cases found with
  | none => exact (Prod.mk.inj (Option.some.inj hgive)).1.symm
  | some r => exact (giveFront_cases hgive).1

end Mm

/-- The end of a region is its start and its size when neither is read as a negative number. -/
theorem add_signExtend_toNat_eq_iff (start : ULong) (size : Addr) :
    (start + size.signExtend 64).toNat = start.toNat + size.toNat ↔
      0 ≤ size.toInt ∧ start.toNat + size.toNat < 2 ^ 64 := by
  have hstart := start.isLt
  have hsize := size.isLt
  have hwide : (size.setWidth 64).toNat = size.toNat := by
    rw [BitVec.toNat_setWidth]
    omega
  rw [BitVec.toNat_add, BitVec.toNat_signExtend, BitVec.toInt_eq_toNat_cond, BitVec.msb_eq_decide,
    hwide]
  by_cases hneg : 2 ^ 31 ≤ size.toNat
  · have hcond : ¬ 2 * size.toNat < 2 ^ 32 := by omega
    simp only [Nat.reduceSub, hneg, decide_true, if_true, hcond, if_false]
    omega
  · have hcond : 2 * size.toNat < 2 ^ 32 := by omega
    simp only [Nat.reduceSub, hneg, decide_false, Bool.false_eq_true, if_false, hcond, if_true]
    omega

namespace Caller

/-- ALLOC: the entry of the region records the requested size. -/
def AllocEffect (size rgid : Addr) (c' : Caller) : Prop :=
  ∃ i, getSymrgByid rgid = .entry i ∧ (c'.mm.symrgtbl i).Recorded size

/-- A free region is large enough and its front is a region of that size; or there is no free
region, the area grows, and the entry happens to have the size already. -/
def AllocWorks (c : Caller) (size rgid : Addr) : Prop :=
  (∃ rg, c.mm.firstFit size = some rg ∧ rg.rgStart ≠ -1 ∧ 0 ≤ size.toInt ∧
    rg.rgStart.toNat + size.toNat < 2 ^ 64) ∨
  (c.mm.mmap.vmFreergList = none ∧ c.Grows 0#32 (pagingPageAlignsz size) ∧
    ∃ i, getSymrgByid rgid = .entry i ∧ (c.mm.symrgtbl i).Recorded size)

theorem firstFit_nil {c : Caller} {size : Addr} (h : c.mm.mmap.vmFreergList = none) :
    c.mm.firstFit size = none := by
  simp [Mm.firstFit, h, Mm.fitFrom]

/-- A growth does not touch the region table. -/
theorem incVmaLimit_symrgtbl (c : Caller) (vmaid incSz : Addr) :
    (c.incVmaLimit vmaid incSz).2.mm.symrgtbl = c.mm.symrgtbl := by
  have hgot := c.incVmaLimit_got vmaid incSz
  generalize c.incVmaLimit vmaid incSz = r at hgot ⊢
  cases hgot <;> rfl

theorem liballoc_truthful_iff {c c' : Caller} {size rgid : Addr} {ret : Int}
    (h : c.liballoc size rgid = some (ret, c')) :
    Truthful ret (AllocEffect size rgid c') ↔ c.AllocWorks size rgid := by
  rcases Option.map_eq_some_iff.1 h with ⟨⟨addr, c₁⟩, halloc, heq⟩
  obtain ⟨rfl, rfl⟩ := Prod.mk.inj heq
  cases hlist : c.mm.mmap.vmFreergList with
  | none =>
      -- the area grows, or not; the region table is left alone
      have hgrows := c.incVmaLimit_zero_iff 0#32 (pagingPageAlignsz size)
      have htable := c.incVmaLimit_symrgtbl 0#32 (pagingPageAlignsz size)
      rw [alloc_growth rgid size hlist] at halloc
      rcases c.incVmaLimit_ret_cases 0#32 (pagingPageAlignsz size) with hzero | hfails
      · rw [hzero, if_neg (lt_irrefl 0)] at halloc
        obtain ⟨rfl, rfl⟩ := Prod.mk.inj (Option.some.inj halloc)
        simp [AllocWorks, AllocEffect, firstFit_nil hlist, hlist, htable, hgrows.1 hzero]
      · rw [hfails, if_pos (by decide)] at halloc
        obtain ⟨rfl, rfl⟩ := Prod.mk.inj (Option.some.inj halloc)
        have hno : ¬ c.Grows 0#32 (pagingPageAlignsz size) := by
          rw [← hgrows, hfails]
          decide
        simp [AllocWorks, firstFit_nil hlist, hno]
  | some p =>
      have hne : c.mm.mmap.vmFreergList ≠ none := hlist ▸ Option.some_ne_none p
      rcases alloc_listed_cases hne halloc with ⟨i, bounds, mm, hentry, hprobed, rfl, rfl⟩
      have hbounds := Mm.probed_bounds hprobed
      -- the entry has the bounds that the search gave
      have heffect : AllocEffect size rgid (c.enter mm i bounds) ↔
          bounds.1 ≠ -1 ∧ bounds.2.toNat = bounds.1.toNat + size.toNat := by
        simp [AllocEffect, hentry, enter_symrgtbl, VmRg.Recorded]
      simp only [Option.isSome_some, if_true, truthful_zero]
      rw [heffect]
      cases hfit : c.mm.firstFit size with
      | none => simp [hbounds, hfit, AllocWorks, hlist]
      | some rg =>
          rw [hfit, Option.map_some, Option.getD_some] at hbounds
          rw [hbounds, add_signExtend_toNat_eq_iff]
          simp [hfit, AllocWorks, hlist]

/-- FREE: the list of free regions begins with the region. -/
def FreeEffect (c : Caller) (rgid : Addr) (c' : Caller) : Prop :=
  ∃ i p rg, getSymrgByid rgid = .entry i ∧ c'.mm.mmap.vmFreergList = some p ∧
    c'.mm.rg p = some rg ∧ rg.rgStart = (c.mm.symrgtbl i).rgStart ∧
    rg.rgEnd = (c.mm.symrgtbl i).rgEnd

/-- `libfree` never reports the truth: the node on the list loses its bounds, and a refusal is
reported as -1. -/
theorem libfree_not_truthful {c c' : Caller} {rgid : Addr} {ret : Int}
    (h : c.libfree rgid = some (ret, c')) : ¬ Truthful ret (c.FreeEffect rgid c') := by
  cases free_freed h with
  | refused => exact not_truthful_neg_one
  | @freed i hentry hvalid =>
      rw [truthful_zero]
      -- the head of the list is the entry itself, behind the reset
      rintro ⟨j, p, rg, hj, hp, hrg, hstart, _⟩
      rw [hentry] at hj
      cases hj
      cases hp
      simp only [Mm.freedEntry, Mm.rg, Mm.setRg, Function.update_self, Option.some.injEq] at hrg
      rw [← hrg] at hstart
      exact hvalid (Or.inl hstart.symm)

/-! ## Accesses -/

/-- `pg_getpage` and `MEMPHY_read` succeed, and the byte at `addr` is `data`. -/
def Delivers (c : Caller) (addr : Addr) (data : Byte) : Prop :=
  ∃ fpn c₁ mram, c.pgGetpage (pagingPgn addr) = some (some fpn, c₁) ∧
    c₁.mram.read (phyaddr fpn addr) = some (some data, mram)

/-- READ: `*destination` is the byte stored at the address.  It is compared as the `BYTE` that was
read: of the word `*destination` the low byte only. -/
def ReadEffect (c : Caller) (rgid offset dest : Addr) : Prop :=
  ∃ i, getSymrgByid rgid = .entry i ∧ c.Delivers (c.rgAddr i offset) (dest.setWidth 8)

/-- The page can be had, RAM is a random access device, and the byte is the one that
`*destination` has anyway. -/
def ReadWorks (c : Caller) (rgid offset dest : Addr) : Prop :=
  ∃ i fpn, getSymrgByid rgid = .entry i ∧
    c.frameUsed (pagingPgn (c.rgAddr i offset)) = some fpn ∧ c.mram.rdmflg = true ∧
    c.mram.storage (phyaddr fpn (c.rgAddr i offset)).toNat = dest.setWidth 8

/-- WRITE: the byte is stored in the frame of the page. -/
def WriteEffect (c : Caller) (data : Byte) (rgid offset : Addr) (c' : Caller) : Prop :=
  ∃ i fpn c₁, getSymrgByid rgid = .entry i ∧
    c.pgGetpage (pagingPgn (c.rgAddr i offset)) = some (some fpn, c₁) ∧
    c₁.mram.write (phyaddr fpn (c.rgAddr i offset)) data = some (0, c'.mram)

/-- The page can be had, and RAM is a random access device. -/
def WriteWorks (c : Caller) (rgid offset : Addr) : Prop :=
  ∃ i fpn, getSymrgByid rgid = .entry i ∧
    c.frameUsed (pagingPgn (c.rgAddr i offset)) = some fpn ∧ c.mram.rdmflg = true

theorem delivers_iff {c c' : Caller} {addr : Addr} {r : Option Byte} (data : Byte)
    (h : c.pgGetval addr = some (r, c')) :
    c.Delivers addr data ↔ ∃ fpn, c.frameUsed (pagingPgn addr) = some fpn ∧
      c.mram.rdmflg = true ∧ c.mram.storage (phyaddr fpn addr).toNat = data := by
  unfold pgGetval at h
  split at h
  · cases h
  · rename_i c₁ hpage
    -- no page, no byte
    simp [Delivers, hpage, ← (pgGetpage_frameUsed hpage).1]
  · rename_i fpn c₁ hpage
    rcases pgGetpage_frameUsed hpage with ⟨hused, hmram⟩
    have hread : (c.mram.read (phyaddr fpn addr)).isSome := by
      rw [← hmram]
      cases hr : c₁.mram.read (phyaddr fpn addr) with
      | none => simp [hr] at h
      | some r => rfl
    have hdata := Memphy.read_data_iff hread data
    simp only [Delivers, hpage, ← hused, Option.some.injEq, Prod.mk.injEq]
    constructor
    · rintro ⟨f, c₂, mram, ⟨rfl, rfl⟩, hval⟩
      rw [hmram] at hval
      exact ⟨fpn, rfl, hdata.1 ⟨mram, hval⟩⟩
    · rintro ⟨f, rfl, hval⟩
      rcases hdata.2 hval with ⟨mram, hmem⟩
      exact ⟨fpn, c₁, mram, ⟨rfl, rfl⟩, hmram ▸ hmem⟩

theorem readEffect_iff {c c' : Caller} {rgid offset destination dest : Addr} {ret : Int}
    (h : c.libread rgid offset destination = some ((ret, dest), c')) :
    (c.ReadEffect rgid offset dest ↔ c.ReadWorks rgid offset destination) ∧
      (c.ReadWorks rgid offset destination → ret = 0) ∧ (ret = 0 ∨ ret = -1) ∧
      dest = destination := by
  rcases Option.map_eq_some_iff.1 h with ⟨⟨⟨val, data⟩, c₁⟩, hread, heq⟩
  obtain ⟨⟨rfl, rfl⟩, rfl⟩ : (val = ret ∧ destination = dest) ∧ c₁ = c' := by simpa using heq
  unfold read at hread
  split at hread
  · -- no such region
    rename_i hnull
    obtain ⟨⟨rfl, rfl⟩, rfl⟩ : (-1 = val ∧ none = data) ∧ c = c₁ := by simpa using hread
    simp [ReadEffect, ReadWorks, hnull]
  · cases hread
  · rename_i i hentry
    rcases Option.map_eq_some_iff.1 hread with ⟨⟨r, c₂⟩, hget, heq⟩
    obtain ⟨⟨rfl, rfl⟩, rfl⟩ : (0 = val ∧ r = data) ∧ c₂ = c₁ := by simpa using heq
    simp [ReadEffect, ReadWorks, hentry, delivers_iff _ hget]

theorem libread_truthful_iff {c c' : Caller} {rgid offset destination dest : Addr} {ret : Int}
    (h : c.libread rgid offset destination = some ((ret, dest), c')) :
    Truthful ret (c.ReadEffect rgid offset dest) ↔ c.ReadWorks rgid offset destination := by
  rcases readEffect_iff h with ⟨hiff, hzero, hret, _⟩
  rcases hret with rfl | rfl
  · exact truthful_zero.trans hiff
  · refine iff_of_false not_truthful_neg_one fun hworks => ?_
    cases hzero hworks

theorem libwrite_truthful_iff {c c' : Caller} {data : Byte} {rgid offset : Addr} {ret : Int}
    (h : c.libwrite data rgid offset = some (ret, c')) :
    Truthful ret (c.WriteEffect data rgid offset c') ↔ c.WriteWorks rgid offset := by
  unfold libwrite write at h
  split at h
  · rename_i hnull
    obtain ⟨rfl, rfl⟩ := Prod.mk.inj (Option.some.inj h)
    simp [WriteWorks, hnull]
  · cases h
  · rename_i i hentry
    rcases Option.map_eq_some_iff.1 h with ⟨⟨val, c₁⟩, hset, heq⟩
    obtain ⟨rfl, rfl⟩ := Prod.mk.inj heq
    rw [truthful_zero]
    unfold pgSetval at hset
    split at hset
    · cases hset
    · rename_i c₂ hpage
      simp [WriteEffect, WriteWorks, hentry, hpage, ← (pgGetpage_frameUsed hpage).1]
    · rename_i fpn c₂ hpage
      rcases pgGetpage_frameUsed hpage with ⟨hused, hmram⟩
      rcases Option.map_eq_some_iff.1 hset with ⟨⟨val', mram⟩, hwrite, heq⟩
      obtain ⟨rfl, rfl⟩ := Prod.mk.inj heq
      rw [hmram] at hwrite
      have hzero := Memphy.write_zero_iff hwrite
      simp [WriteEffect, WriteWorks, hentry, hpage, ← hused, hmram, hwrite, hzero]

/-! ## System calls -/

/-- SYSCALL 17: the requested operation succeeded.  No operation is behind `SYSMEM_MAP_OP` and the
numbers that are not assigned. -/
def MemmapEffect (c : Caller) (a1 a2 a3 : Addr) : Prop :=
  match memOp a1 with
  | .incOp => (c.incVmaLimit a2 a3).1 = 0
  -- every `MEMPHY_read` and `MEMPHY_write` of the copy
  | .swpOp => ∀ cellidx < 256,
      (∃ data mp, c.mram.read (a2 * pagingPagesz + BitVec.ofNat 32 cellidx) =
        some (some data, mp)) ∧
      ∀ data, ∃ mp, c.activeMswp.write (a3 * pagingPagesz + BitVec.ofNat 32 cellidx) data =
        some (0, mp)
  | .ioRead => ∃ data mp, c.mram.read a2 = some (some data, mp)
  | .ioWrite => ∃ mp, c.mram.write a2 (a3.setWidth 8) = some (0, mp)
  | .mapOp | .unknown => False

/-- The growth is allowed and finds its frames; the devices are random access devices. -/
def MemmapWorks (c : Caller) (a1 a2 a3 : Addr) : Prop :=
  match memOp a1 with
  | .incOp => c.Grows a2 a3
  | .swpOp => c.activeMswp.rdmflg = true
  | .ioRead | .ioWrite => c.mram.rdmflg = true
  | .mapOp | .unknown => False

theorem sysMemmap_truthful_iff {c c' : Caller} {a1 a2 a3 : Addr} {ret : Int}
    (h : c.sysMemmap a1 a2 a3 = some (ret, c')) :
    Truthful ret (c.MemmapEffect a1 a2 a3) ↔ c.MemmapWorks a1 a2 a3 := by
  unfold sysMemmap at h
  unfold MemmapEffect MemmapWorks
  cases hop : memOp a1 with
  | mapOp =>
      simp only [hop] at h
      obtain ⟨rfl, rfl⟩ := Prod.mk.inj (Option.some.inj h)
      exact truthful_zero
  | incOp =>
      simp only [hop] at h
      obtain ⟨rfl, rfl⟩ := Prod.mk.inj (Option.some.inj h)
      exact truthful_zero.trans (c.incVmaLimit_zero_iff a2 a3)
  | swpOp =>
      simp only [hop] at h
      rcases Option.map_eq_some_iff.1 h with ⟨c₁, hcopy, heq⟩
      obtain ⟨rfl, rfl⟩ := Prod.mk.inj heq
      have hin : CopyInBounds c.mram a2 c.activeMswp a3 :=
        (c.mmSwapPage_isSome_iff a2 a3).1 (by simp [hcopy])
      dsimp only
      rw [truthful_zero]
      constructor
      · intro hall
        rcases (hall 0 (by decide)).2 0 with ⟨mp, hwrite⟩
        exact (Memphy.write_zero_iff hwrite).1 rfl
      · intro hflag cellidx hlt
        -- inside both arrays, nothing is refused
        rcases hin.2 cellidx hlt with ⟨hsrc, hdst⟩
        refine ⟨(Memphy.read_eq_some_iff _ _).2 ⟨hin.1, hsrc⟩, fun data => ?_⟩
        simp [Memphy.write, hflag, hdst hflag]
  | ioRead =>
      simp only [hop] at h
      rcases Option.map_eq_some_iff.1 h with ⟨⟨data, mram⟩, hread, heq⟩
      obtain ⟨rfl, rfl⟩ := Prod.mk.inj heq
      have hin := (Memphy.read_isSome_iff c.mram a2).1 (by simp [hread])
      dsimp only
      rw [truthful_zero, Memphy.read_eq_some_iff]
      exact ⟨fun hboth => hboth.1, fun hflag => ⟨hflag, hin hflag⟩⟩
  | ioWrite =>
      simp only [hop] at h
      rcases Option.map_eq_some_iff.1 h with ⟨⟨val, mram⟩, hwrite, heq⟩
      obtain ⟨rfl, rfl⟩ := Prod.mk.inj heq
      have hzero := Memphy.write_zero_iff hwrite
      simp [hwrite, hzero]
  | unknown =>
      simp only [hop] at h
      obtain ⟨rfl, rfl⟩ := Prod.mk.inj (Option.some.inj h)
      exact truthful_zero

/-- SYSCALL 101: each of the `n` characters of the name from `i` on is the byte stored there. -/
def NameEffect (memrg : Addr) : (n : Nat) → (i : Nat) → Caller → Prop
  | 0, _, _ => True
  | n + 1, i, c => ∃ ret data c', c.libread memrg (BitVec.ofNat 32 i) 0#32 =
      some ((ret, data), c') ∧ c.ReadEffect memrg (BitVec.ofNat 32 i) data ∧
      NameEffect memrg n (i + 1) c'

/-- Each of the reads of the name works, in the state that the one before it leaves. -/
def NameWorks (memrg : Addr) : (n : Nat) → (i : Nat) → Caller → Prop
  | 0, _, _ => True
  | n + 1, i, c => c.ReadWorks memrg (BitVec.ofNat 32 i) 0#32 ∧
      ∀ r c', c.libread memrg (BitVec.ofNat 32 i) 0#32 = some (r, c') →
        NameWorks memrg n (i + 1) c'

theorem nameEffect_iff {memrg : Addr} :
    ∀ {n i : Nat} {c : Caller} {r : List Byte × Caller}, killallName memrg n i c = some r →
      (NameEffect memrg n i c ↔ NameWorks memrg n i c) := by
  intro n
  induction n with
  | zero => exact fun _ => Iff.rfl
  | succ n ih =>
      intro i c r h
      unfold killallName at h
      unfold NameEffect NameWorks
      cases hread : c.libread memrg (BitVec.ofNat 32 i) 0#32 with
      | none => simp [hread] at h
      | some r₁ =>
          rcases r₁ with ⟨⟨ret, data⟩, c₁⟩
          rcases readEffect_iff hread with ⟨hiff, _, _, rfl⟩
          -- nothing was delivered, so the name goes on
          have hgo : (0#32 : Addr) ≠ -1#32 := by decide
          simp only [hread, hgo, if_false] at h
          rcases Option.map_eq_some_iff.1 h with ⟨r₂, hrest, _⟩
          have hstep := ih hrest
          constructor
          · rintro ⟨ret', data', c', heq, heffect, hname⟩
            obtain ⟨⟨rfl, rfl⟩, rfl⟩ : (ret = ret' ∧ 0#32 = data') ∧ c₁ = c' := by
              simpa using heq
            refine ⟨hiff.1 heffect, fun r c' heq => ?_⟩
            obtain rfl : c₁ = c' := (Prod.mk.inj (Option.some.inj heq)).2
            exact hstep.1 hname
          · rintro ⟨hworks, hname⟩
            exact ⟨ret, 0#32, c₁, rfl, hiff.2 hworks, hstep.2 (hname _ c₁ rfl)⟩

/-! ## Instructions -/

/-- The full effect of an instruction that takes `c` to `c'`. -/
def Effect (c : Caller) (ins : Inst) (c' : Caller) : Prop :=
  match ins.opcode with
  | .calc => True
  | .alloc => AllocEffect ins.arg0 ins.arg1 c'
  | .free => c.FreeEffect ins.arg0 c'
  | .read => ∃ stat dest, c.libread ins.arg0 ins.arg1 ins.arg2 = some ((stat, dest), c') ∧
      c.ReadEffect ins.arg0 ins.arg1 dest
  | .write => c.WriteEffect (ins.arg0.setWidth 8) ins.arg1 ins.arg2 c'
  | .syscall =>
      match sysCallTable ins.arg0 with
      | .memmap => c.MemmapEffect ins.arg1 ins.arg2 ins.arg3
      | .killall => NameEffect ins.arg1 99 0 c
      | .listsyscall | .xxxhandler | .niSyscall => True

/-- The condition under which the return value of an instruction tells the truth. -/
def Works (c : Caller) (ins : Inst) : Prop :=
  match ins.opcode with
  | .calc => True
  | .alloc => c.AllocWorks ins.arg0 ins.arg1
  | .free => False
  | .read => c.ReadWorks ins.arg0 ins.arg1 ins.arg2
  | .write => c.WriteWorks ins.arg1 ins.arg2
  | .syscall =>
      match sysCallTable ins.arg0 with
      | .memmap => c.MemmapWorks ins.arg1 ins.arg2 ins.arg3
      | .killall => NameWorks ins.arg1 99 0 c
      | .listsyscall | .xxxhandler | .niSyscall => True

theorem libsyscall_truthful_iff {c c' : Caller} {ins : Inst} {ret : Int}
    (hop : ins.opcode = .syscall)
    (h : c.libsyscall ins.arg0 ins.arg1 ins.arg2 ins.arg3 = some (ret, c')) :
    Truthful ret (c.Effect ins c') ↔ c.Works ins := by
  unfold libsyscall at h
  unfold Effect Works
  simp only [hop]
  cases hnr : sysCallTable ins.arg0 with
  | memmap =>
      simp only [hnr] at h
      exact sysMemmap_truthful_iff h
  | killall =>
      simp only [hnr] at h
      rcases Option.map_eq_some_iff.1 h with ⟨⟨name, c₁⟩, hname, heq⟩
      obtain ⟨rfl, rfl⟩ := Prod.mk.inj heq
      exact truthful_zero.trans (nameEffect_iff hname)
  | _ =>
      simp only [hnr] at h
      obtain ⟨rfl, rfl⟩ := Prod.mk.inj (Option.some.inj h)
      exact truthful_zero

theorem runInst_truthful_iff {c c' : Caller} {ins : Inst} {ret : Int}
    (h : c.runInst ins = some (ret, c')) : Truthful ret (c.Effect ins c') ↔ c.Works ins := by
  unfold runInst at h
  cases hop : ins.opcode with
  | «calc» =>
      simp only [hop] at h
      obtain ⟨rfl, rfl⟩ := Prod.mk.inj (Option.some.inj h)
      simp [Effect, Works, hop]
  | alloc =>
      simp only [hop] at h
      simpa only [Effect, Works, hop] using liballoc_truthful_iff h
  | free =>
      simp only [hop] at h
      simpa only [Effect, Works, hop, iff_false] using libfree_not_truthful h
  | read =>
      simp only [hop] at h
      rcases Option.map_eq_some_iff.1 h with ⟨⟨⟨stat, dest⟩, c₁⟩, hread, heq⟩
      obtain ⟨rfl, rfl⟩ := Prod.mk.inj heq
      have heffect : c.Effect ins c₁ ↔ c.ReadEffect ins.arg0 ins.arg1 dest := by
        simp only [Effect, hop, hread]
        constructor
        · rintro ⟨stat', dest', heq, hdelivered⟩
          cases heq
          exact hdelivered
        · exact fun hdelivered => ⟨stat, dest, rfl, hdelivered⟩
      rw [heffect]
      simpa only [Works, hop] using libread_truthful_iff hread
  | write =>
      simp only [hop] at h
      simpa only [Effect, Works, hop] using libwrite_truthful_iff h
  | syscall =>
      simp only [hop] at h
      exact libsyscall_truthful_iff hop h

end Caller

namespace Task

/-- The instruction at `pc` takes its full effect; behind the end of the code there is none. -/
def Effect (t t' : Task) : Prop :=
  ∃ ins, t.code[t.pc]? = some ins ∧ t.caller.Effect ins t'.caller

def Works (t : Task) : Prop := ∀ ins, t.code[t.pc]? = some ins → t.caller.Works ins

/-- For every process state and every instruction, the return value of `run` tells the truth exactly
under the condition of the instruction. -/
theorem run_truthful_iff {t t' : Task} {ret : Int} (h : t.run = some (ret, t')) :
    Truthful ret (t.Effect t') ↔ t.Works := by
  unfold run at h
  cases hins : t.code[t.pc]? with
  | none =>
      simp only [hins] at h
      obtain ⟨rfl, rfl⟩ := Prod.mk.inj (Option.some.inj h)
      simp [Effect, Works, hins]
  | some ins =>
      simp only [hins] at h
      rcases Option.map_eq_some_iff.1 h with ⟨⟨stat, c⟩, hrun, heq⟩
      obtain ⟨rfl, rfl⟩ := Prod.mk.inj heq
      simpa [Effect, Works, hins] using Caller.runInst_truthful_iff hrun

/-- A process that writes to a page it has. -/
def mappedWrite : Task where
  code := [⟨.write, 5, 0, 0, 0⟩]
  pc := 0
  caller := (Caller.incVmaLimit
    ⟨pageSize, Mm.initMm Mm.zeroed, .create 512 true, .create 512 true⟩ 0#32 256#32).2

theorem mappedWrite_truthful : ∃ t', mappedWrite.run = some (0, t') ∧ mappedWrite.Effect t' := by
  have hworks : mappedWrite.Works := by
    intro ins hins
    obtain rfl : (⟨.write, 5, 0, 0, 0⟩ : Inst) = ins := Option.some.inj hins
    exact ⟨⟨0, by decide⟩, 0#32, rfl, by decide, by decide⟩
  refine ⟨_, rfl, ?_⟩
  exact truthful_zero.1 ((run_truthful_iff rfl).2 hworks)

/-- A new process that writes to a page it does not have, on a machine without a victim for it. -/
def blindWrite : Task where
  code := [⟨.write, 5, 0, 0, 0⟩]
  pc := 0
  caller := ⟨pageSize, Mm.initMm Mm.zeroed, .create 512 true, .create 512 true⟩

/-- `run` returns 0, and nothing has been written. -/
theorem blindWrite_not_truthful :
    ¬ ∀ ret t', blindWrite.run = some (ret, t') → Truthful ret (blindWrite.Effect t') := by
  intro h
  have hrun : blindWrite.run = some (0, { blindWrite with pc := 1 }) := rfl
  rcases truthful_zero.1 (h 0 _ hrun) with ⟨ins, hins, heffect⟩
  obtain rfl : (⟨.write, 5, 0, 0, 0⟩ : Inst) = ins := Option.some.inj hins
  rcases heffect with ⟨i, fpn, c₁, hentry, hpage, _⟩
  obtain rfl : i = ⟨0, by decide⟩ := by
    have hzero : getSymrgByid 0 = .entry ⟨0, by decide⟩ := rfl
    rw [hzero] at hentry
    exact (SymPtr.entry.inj hentry).symm
  -- there is no page for the byte
  have hnone : blindWrite.caller.pgGetpage
      (pagingPgn (blindWrite.caller.rgAddr ⟨0, by decide⟩ 0)) = some (none, blindWrite.caller) :=
    Caller.pgGetpage_noVictim (by decide) rfl
  rw [hnone] at hpage
  cases hpage

end Task
end MiniOs
