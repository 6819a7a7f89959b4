import MiniOs.Paging.Failures
import MiniOs.Paging.Frames
import MiniOs.Paging.Machine
import MiniOs.Paging.Outcomes

/-!
# OnDevice — the addresses that instructions use on RAM and swap

An entry of a page directory that is present names a frame of RAM, because every frame number comes
from a free list or from a page fault that stayed on the devices.  The addresses that do not come
from an entry are not bounded by anything: a page fault uses a page number as a frame number, and
SYSCALL 17 hands on whatever the program says.  An ALLOC or FREE with an identifier outside the
region table writes to whatever lies beside it, so nothing is known of any address behind it; such
an instruction counts as one that leaves the device.
-/

namespace MiniOs

open Lib

/-! ## Frames of a device -/

/-- Frame number `fpn` has all its bytes on the device. -/
def Memphy.HasFrame (mp : Memphy) (fpn : Addr) : Prop :=
  (fpn * pagingPagesz).toNat + 256 ≤ mp.maxsz

theorem frame_toNat_mod (fpn : Addr) : (fpn * pagingPagesz).toNat % 256 = 0 := by
  have hsize : pagingPagesz.toNat = 256 := rfl
  rw [BitVec.toNat_mul, hsize]
  omega

theorem cell_toNat (fpn : Addr) {cellidx : Nat} (h : cellidx < 256) :
    (fpn * pagingPagesz + BitVec.ofNat 32 cellidx).toNat =
      (fpn * pagingPagesz).toNat + cellidx := by
  have hmod := frame_toNat_mod fpn
  have hlt := (fpn * pagingPagesz).isLt
  rw [BitVec.toNat_add, BitVec.toNat_ofNat]
  omega

theorem inBounds_iff {mp : Memphy} (hsz : mp.maxsz < 2 ^ 31) (addr : Addr) :
    mp.InBounds addr ↔ addr.toNat < mp.maxsz := by
  have hlt := addr.isLt
  rw [Memphy.InBounds, BitVec.toInt_eq_toNat_cond]
  split <;> omega

theorem hasFrame_iff {mp : Memphy} (hsz : mp.maxsz < 2 ^ 31) (fpn : Addr) :
    mp.HasFrame fpn ↔
      ∀ cellidx < 256, mp.InBounds (fpn * pagingPagesz + BitVec.ofNat 32 cellidx) := by
  constructor
  · intro h cellidx hcell
    unfold Memphy.HasFrame at h
    rw [inBounds_iff hsz, cell_toNat fpn hcell]
    omega
  · intro hall
    -- the last byte decides
    have hlast := hall 255 (by decide)
    rw [inBounds_iff hsz, cell_toNat fpn (by decide)] at hlast
    exact hlast

/-- A copy between random access devices needs the one frame and the other. -/
theorem copyInBounds_iff {mpsrc mpdst : Memphy} (hsrc : mpsrc.maxsz < 2 ^ 31)
    (hdst : mpdst.maxsz < 2 ^ 31) (hsrcflg : mpsrc.rdmflg = true) (hdstflg : mpdst.rdmflg = true)
    (srcfpn dstfpn : Addr) :
    CopyInBounds mpsrc srcfpn mpdst dstfpn ↔ mpsrc.HasFrame srcfpn ∧ mpdst.HasFrame dstfpn := by
  rw [hasFrame_iff hsrc, hasFrame_iff hdst]
  simp only [CopyInBounds, hsrcflg, hdstflg, true_and, forall_const]
  exact ⟨fun h => ⟨fun i hi => (h i hi).1, fun i hi => (h i hi).2⟩,
    fun h i hi => ⟨h.1 i hi, h.2 i hi⟩⟩

/-- A small frame number is on the device when it is below the number of frames. -/
theorem hasFrame_ofNat_iff {mp : Memphy} {f : Nat} (hf : f < 2 ^ 24) :
    mp.HasFrame (BitVec.ofNat 32 f) ↔ f < mp.numfp := by
  have hsize : pagingPagesz.toNat = 256 := rfl
  rw [Memphy.HasFrame, BitVec.toNat_mul, BitVec.toNat_ofNat, hsize, Memphy.numfp]
  omega

namespace Caller

/-! ## What an instruction accesses -/

/-- `P` holds of the addresses of `n` characters of a name from `i` on. -/
def NameAll (P : Caller → Addr → Prop) (memrg : Addr) : (n : Nat) → (i : Nat) → Caller → Prop
  | 0, _, _ => True
  | n + 1, i, c => c.RegionAll P memrg (BitVec.ofNat 32 i) ∧
      ∀ r c', c.libread memrg (BitVec.ofNat 32 i) 0#32 = some (r, c') →
        NameAll P memrg n (i + 1) c'

/-- `P` holds of every virtual address that the instruction accesses, `copy` of the two frames of
`SYSMEM_SWP_OP`, and the addresses of `SYSMEM_IO_READ` and `SYSMEM_IO_WRITE` are on the device. -/
def InstAll (P : Caller → Addr → Prop) (copy : Caller → Addr → Addr → Prop) (c : Caller)
    (ins : Inst) : Prop :=
  match ins.opcode with
  | .calc | .alloc | .free => True
  | .read => c.RegionAll P ins.arg0 ins.arg1
  | .write => c.RegionAll P ins.arg1 ins.arg2
  | .syscall =>
      match sysCallTable ins.arg0 with
      | .memmap =>
          match memOp ins.arg1 with
          | .swpOp => copy c ins.arg2 ins.arg3
          | .ioRead | .ioWrite => c.mram.InBounds ins.arg2
          | .mapOp | .incOp | .unknown => True
      | .killall => NameAll P ins.arg1 99 0 c
      | .listsyscall | .xxxhandler | .niSyscall => True

/-- Every `MEMPHY_read`, `MEMPHY_write` and every byte copied is on its device. -/
def InstOnDevice (c : Caller) (ins : Inst) : Prop :=
  c.InstAll AccessInBounds (fun c vicfpn swpfpn => CopyInBounds c.mram vicfpn c.activeMswp swpfpn)
    ins

/-- The page is present, there is no victim or no swap frame for it, or the page number of the
victim is also a frame number of both devices. -/
def PageSafe (c : Caller) (addr : Addr) : Prop :=
  pagingPagePresent (c.mm.pgd (pagingPgn addr)) = true ∨
    ∀ vicpgn ∈ c.mm.fifoPgn.head?, c.activeMswp.freeFpList ≠ [] →
      vicpgn.val < c.mram.numfp ∧ vicpgn.val < c.activeMswp.numfp

/-- ALLOC and FREE stay in the region table. -/
def InTable (c : Caller) (ins : Inst) : Prop :=
  match ins.opcode with
  | .alloc => c.AllocInTable ins.arg1 ins.arg0
  | .free => ins.arg0 ≠ 30#32
  | .calc | .read | .write | .syscall => True

/-- Every page accessed is safe, and the frames and addresses that the program itself gives to
SYSCALL 17 are on the devices. -/
def InstSafe (c : Caller) (ins : Inst) : Prop :=
  c.InstAll PageSafe
    (fun c vicfpn swpfpn => c.mram.HasFrame vicfpn ∧ c.activeMswp.HasFrame swpfpn) ins

/-! ## The invariant -/

/-- Both devices are random access devices, of sizes that are `int`s, and their free lists have
frames of theirs; RAM has `n` bytes. -/
structure Devices (n : Nat) (mram activeMswp : Memphy) : Prop where
  ramsz : mram.maxsz = n
  ramInt : n < 2 ^ 31
  swpInt : activeMswp.maxsz < 2 ^ 31
  ramflg : mram.rdmflg = true
  swpflg : activeMswp.rdmflg = true
  ramFree : ∀ f ∈ mram.freeFpList, f < n / 256
  swpFree : ∀ f ∈ activeMswp.freeFpList, f < activeMswp.numfp

/-- A present entry names a frame of RAM, and an absent one is as it was at first. -/
def EntryOk (n : Nat) (pte : Addr) : Prop :=
  if pagingPagePresent pte then (pagingFpn pte).toNat < n / 256 else pte = 0#32

structure OnDevice (n : Nat) (c : Caller) : Prop where
  devices : Devices n c.mram c.activeMswp
  entries : ∀ pgn, EntryOk n (c.mm.pgd pgn)

variable {n : Nat} {c c' : Caller}

theorem Devices.sameFrame {mram mram' activeMswp activeMswp' : Memphy}
    (h : Devices n mram activeMswp) (hmram : mram.SameFrame mram')
    (hmswp : activeMswp.SameFrame activeMswp') : Devices n mram' activeMswp' := by
  refine ⟨hmram.maxsz.trans h.ramsz, h.ramInt, hmswp.maxsz ▸ h.swpInt, hmram.rdmflg.trans h.ramflg,
    hmswp.rdmflg.trans h.swpflg, hmram.freeFpList ▸ h.ramFree, ?_⟩
  rw [hmswp.freeFpList, Memphy.numfp, hmswp.maxsz]
  exact h.swpFree

theorem OnDevice.quiet (h : OnDevice n c) (hquiet : c.Quiet c') : OnDevice n c' :=
  ⟨h.devices.sameFrame hquiet.mram hquiet.swap, hquiet.pgd ▸ h.entries⟩

theorem entryOk_zero : EntryOk n 0#32 := by
  have habsent : pagingPagePresent 0#32 = false := by decide
  simp [EntryOk, habsent]

theorem entryOk_pteSetFpn (pte : Addr) {f : Nat} (h : f < n / 256) :
    EntryOk n (pteSetFpn pte (BitVec.ofNat 32 f)) := by
  have hfpn := pagingFpn_pteSetFpn pte (BitVec.ofNat 32 f)
  rw [EntryOk, if_pos (pagingPagePresent_pteSetFpn pte _), hfpn, BitVec.toNat_ofNat]
  omega

theorem entryOk_ptePresent (pte : Addr) {vicpgn : Fin pagingMaxPgn} (h : vicpgn.val < n / 256) :
    EntryOk n (ptePresent pte (BitVec.ofNat 32 vicpgn.val)) := by
  have hfpn := pagingFpn_ptePresent pte (BitVec.ofNat 32 vicpgn.val)
  rw [EntryOk, if_pos (pagingPagePresent_ptePresent pte _), hfpn, BitVec.toNat_ofNat]
  omega

/-! ## Steps keep it -/

theorem OnDevice.grown {vmaid incSz : Addr} (h : OnDevice n c)
    (hgrown : PagingSys.Grown c vmaid incSz c') : OnDevice n c' := by
  by_cases hmay : c.MayGrow vmaid
  · have heff := hgrown.grows hmay
    by_cases henough : (growPages incSz).toNat ≤ c.mram.freeFpList.length
    · rcases heff.enough henough with ⟨hmram, hpgd⟩
      refine ⟨?_, fun pgn => ?_⟩
      · rw [hmram, heff.swap]
        exact { h.devices with
          ramFree := fun f hf => h.devices.ramFree f (List.mem_of_mem_drop hf) }
      · rw [hpgd]
        by_cases hpos : 0 ≤ growPages incSz
        · have hnum : ((0 + (c.mram.freeFpList.take (growPages incSz).toNat).length : ℕ) : ℤ) ≤
              growPages incSz := by
            rw [List.length_take_of_le henough]
            omega
          -- a mapped entry has its frame from the free list
          rcases PagingSys.mapFrames_cases (c.mm.mmap.vmEnd.setWidth 32) (growPages incSz) _ 0
            c.mm.pgd pgn hnum with ⟨heq, _⟩ | ⟨f, hf, pte, heq⟩
          · rw [heq]
            exact h.entries pgn
          · rw [heq]
            exact entryOk_pteSetFpn pte (h.devices.ramFree f (List.mem_of_mem_take hf))
        · have hzero : (growPages incSz).toNat = 0 := by omega
          simpa [hzero, Mm.mapFrames] using h.entries pgn
    · rcases heff.short (not_le.1 henough) with ⟨hmram, hpgd⟩
      refine ⟨?_, hpgd ▸ h.entries⟩
      rw [hmram, heff.swap]
      exact { h.devices with ramFree := fun f hf => absurd hf List.not_mem_nil }
  · exact h.quiet (hgrown.refused hmay)

/-- A page fault that has an outcome gives the page a frame of RAM. -/
theorem OnDevice.pgGetpage {pgn : Fin pagingMaxPgn} {fpn : Option Addr} (h : OnDevice n c)
    (hget : c.pgGetpage pgn = some (fpn, c')) : OnDevice n c' := by
  cases pgGetpage_got hget with
  | present _ => exact h
  | noVictim _ _ => exact h
  | noFrame _ _ _ => exact ⟨h.devices, h.entries⟩
  | @fault vicpgn rest swpfpn frames _ _ _ hfree hbring =>
      rcases bringIn_eq hbring with ⟨hmram, hmswp, hpgd⟩
      have hfault := (bringIn_isSome_iff _ _ _ _).1 (Option.isSome_of_eq_some hbring)
      have hdevices : Devices n c.mram { c.activeMswp with freeFpList := frames } :=
        { h.devices with
          swpFree := fun f hf =>
            h.devices.swpFree f (by rw [hfree]; exact List.mem_cons_of_mem _ hf) }
      -- the first copy has read the frame of that number
      have hvic : vicpgn.val < n / 256 := by
        have hframe := ((copyInBounds_iff (h.devices.ramsz ▸ h.devices.ramInt)
          h.devices.swpInt h.devices.ramflg h.devices.swpflg _ _).1 hfault.1).1
        rw [hasFrame_ofNat_iff (vicpgn.isLt.trans (by decide))] at hframe
        rw [← h.devices.ramsz]
        exact hframe
      refine ⟨hdevices.sameFrame (hmram ▸ Memphy.SameFrame.refl _) hmswp, fun q => ?_⟩
      rw [hpgd]
      by_cases hq : q = pgn
      · subst hq
        rw [Function.update_self]
        exact entryOk_ptePresent _ hvic
      · rw [Function.update_of_ne hq]
        exact h.entries q

theorem OnDevice.regionAccessed {rgid offset : Addr} (h : OnDevice n c)
    (haccessed : c.RegionAccessed rgid offset c') : OnDevice n c' := by
  cases haccessed with
  | null _ => exact h
  | entry _ haccessed =>
      rcases haccessed with ⟨fpn, c₁, hpage, hmm, hmram, hswap⟩
      have hafter := h.pgGetpage hpage
      refine ⟨hafter.devices.sameFrame hmram ?_, hmm ▸ hafter.entries⟩
      rw [hswap]
      exact Memphy.SameFrame.refl _

theorem OnDevice.libread {rgid offset destination : Addr} {r : Int × Addr} (h : OnDevice n c)
    (hread : c.libread rgid offset destination = some (r, c')) : OnDevice n c' := by
  rcases Option.map_eq_some_iff.1 hread with ⟨⟨r₁, c₁⟩, hread₁, heq⟩
  obtain ⟨_, rfl⟩ := Prod.mk.inj heq
  exact h.regionAccessed (read_accessed hread₁)

theorem OnDevice.libwrite {data : Byte} {rgid offset : Addr} {ret : Int} (h : OnDevice n c)
    (hwrite : c.libwrite data rgid offset = some (ret, c')) : OnDevice n c' :=
  h.regionAccessed (write_accessed hwrite)

theorem OnDevice.liballoc {size rgid : Addr} {ret : Int} (h : OnDevice n c)
    (halloc : c.liballoc size rgid = some (ret, c')) : OnDevice n c' := by
  rcases Option.map_eq_some_iff.1 halloc with ⟨⟨addr, c₁⟩, halloc₁, heq⟩
  obtain ⟨_, rfl⟩ := Prod.mk.inj heq
  by_cases hlist : c.mm.mmap.vmFreergList = none
  · exact h.grown (PagingSys.alloc_grown hlist halloc₁)
  · exact h.quiet (alloc_quiet hlist halloc₁)

theorem OnDevice.killallName {memrg : Addr} :
    ∀ {k i : Nat} {c c' : Caller} {name : List Byte}, OnDevice n c →
      killallName memrg k i c = some (name, c') → OnDevice n c' := by
  intro k
  induction k with
  | zero =>
      intro i c c' name h hname
      obtain ⟨_, rfl⟩ := Prod.mk.inj (Option.some.inj hname)
      exact h
  | succ k ih =>
      intro i c c' name h hname
      unfold Caller.killallName at hname
      cases hread : c.libread memrg (BitVec.ofNat 32 i) 0#32 with
      | none => simp [hread] at hname
      | some r =>
          rcases r with ⟨⟨ret, data⟩, c₁⟩
          have hafter := h.libread hread
          simp only [hread] at hname
          split at hname
          · obtain ⟨_, rfl⟩ := Prod.mk.inj (Option.some.inj hname)
            exact hafter
          · rcases Option.map_eq_some_iff.1 hname with ⟨⟨rest, c₂⟩, hrest, heq⟩
            obtain ⟨_, rfl⟩ := Prod.mk.inj heq
            exact ih hafter hrest

theorem OnDevice.sysMemmap {a1 a2 a3 : Addr} {ret : Int} (h : OnDevice n c)
    (hsys : c.sysMemmap a1 a2 a3 = some (ret, c')) : OnDevice n c' := by
  unfold Caller.sysMemmap at hsys
  split at hsys
  · obtain ⟨_, rfl⟩ := Prod.mk.inj (Option.some.inj hsys)
    exact h
  · obtain ⟨_, rfl⟩ := Prod.mk.inj (Option.some.inj hsys)
    exact h.grown (PagingSys.incVmaLimit_grown c a2 a3)
  · rcases Option.map_eq_some_iff.1 hsys with ⟨c₁, hcopy, heq⟩
    obtain ⟨_, rfl⟩ := Prod.mk.inj heq
    rcases mmSwapPage_eq hcopy with ⟨mswp, rfl, hsame⟩
    exact ⟨h.devices.sameFrame (Memphy.SameFrame.refl _) hsame, h.entries⟩
  · rcases Option.map_eq_some_iff.1 hsys with ⟨⟨data, mram⟩, hmem, heq⟩
    obtain ⟨_, rfl⟩ := Prod.mk.inj heq
    exact ⟨h.devices.sameFrame (Memphy.read_sameFrame hmem) (Memphy.SameFrame.refl _), h.entries⟩
  · rcases Option.map_eq_some_iff.1 hsys with ⟨⟨val, mram⟩, hmem, heq⟩
    obtain ⟨_, rfl⟩ := Prod.mk.inj heq
    exact ⟨h.devices.sameFrame (Memphy.write_sameFrame hmem) (Memphy.SameFrame.refl _), h.entries⟩
  · obtain ⟨_, rfl⟩ := Prod.mk.inj (Option.some.inj hsys)
    exact h

theorem OnDevice.libsyscall {nr a1 a2 a3 : Addr} {ret : Int} (h : OnDevice n c)
    (hsys : c.libsyscall nr a1 a2 a3 = some (ret, c')) : OnDevice n c' := by
  unfold Caller.libsyscall at hsys
  split at hsys
  · obtain ⟨_, rfl⟩ := Prod.mk.inj (Option.some.inj hsys)
    exact h
  · exact h.sysMemmap hsys
  · rcases Option.map_eq_some_iff.1 hsys with ⟨⟨name, c₁⟩, hname, heq⟩
    obtain ⟨_, rfl⟩ := Prod.mk.inj heq
    exact h.killallName hname
  · obtain ⟨_, rfl⟩ := Prod.mk.inj (Option.some.inj hsys)
    exact h
  · obtain ⟨_, rfl⟩ := Prod.mk.inj (Option.some.inj hsys)
    exact h

/-- Step lemma: an instruction with an outcome keeps the invariant. -/
theorem OnDevice.runInst {ins : Inst} {ret : Int} (h : OnDevice n c)
    (hrun : c.runInst ins = some (ret, c')) : OnDevice n c' := by
  unfold Caller.runInst at hrun
  split at hrun
  · obtain ⟨_, rfl⟩ := Prod.mk.inj (Option.some.inj hrun)
    exact h
  · exact h.liballoc hrun
  · exact h.quiet (free_quiet hrun)
  · rcases Option.map_eq_some_iff.1 hrun with ⟨⟨r, c₁⟩, hread, heq⟩
    obtain ⟨_, rfl⟩ := Prod.mk.inj heq
    exact h.libread hread
  · exact h.libwrite hrun
  · exact h.libsyscall hrun

/-! ## The condition -/

/-- A present page is on the device already, so only the copies of a page fault can leave it. -/
theorem OnDevice.access_iff (h : OnDevice n c) (addr : Addr) :
    c.AccessInBounds addr ↔ c.PageSafe addr := by
  have hram : c.mram.maxsz < 2 ^ 31 := h.devices.ramsz ▸ h.devices.ramInt
  have hoff : (pagingOffst addr).toNat < 256 := by
    rw [pagingOffst_toNat]
    exact Nat.mod_lt _ (by decide)
  -- a byte of a frame that is on the device
  have hbyte : ∀ fpn : Addr, fpn.toNat < c.mram.numfp → c.mram.InBounds (phyaddr fpn addr) := by
    intro fpn hfpn
    have hsmall : fpn.toNat < 2 ^ 24 := by
      unfold Memphy.numfp at hfpn
      omega
    have hframe : c.mram.HasFrame fpn := by
      have := (hasFrame_ofNat_iff hsmall).2 hfpn
      rwa [BitVec.ofNat_toNat, BitVec.setWidth_eq] at this
    have hcell := (hasFrame_iff hram fpn).1 hframe _ hoff
    rwa [BitVec.ofNat_toNat, BitVec.setWidth_eq] at hcell
  have hentry := h.entries (pagingPgn addr)
  rw [EntryOk, ← h.devices.ramsz] at hentry
  unfold AccessInBounds PageInBounds PageSafe frameUsed
  cases hpresent : pagingPagePresent (c.mm.pgd (pagingPgn addr)) with
  | true =>
      simp only [hpresent, if_true] at hentry
      simp only [true_or, if_true, Option.mem_some_iff, forall_eq', true_and, iff_true]
      exact fun _ => hbyte _ hentry
  | false =>
      simp only [hpresent, Bool.false_eq_true, if_false] at hentry
      cases hfifo : c.mm.fifoPgn with
      | nil => simp
      | cons vicpgn rest =>
          cases hfree : c.activeMswp.freeFpList with
          | nil => simp
          | cons swpfpn frames =>
              have hswp := h.devices.swpInt
              have hvic : vicpgn.val < 2 ^ 24 := vicpgn.isLt.trans (by decide)
              have hswpfpn : swpfpn < c.activeMswp.numfp :=
                h.devices.swpFree swpfpn (by rw [hfree]; exact List.mem_cons_self)
              have hsmall : swpfpn < 2 ^ 24 := by
                unfold Memphy.numfp at hswpfpn
                omega
              -- an absent entry has no bits, so the target frame is number 0
              have htgt : pagingSwp (0#32) = BitVec.ofNat 32 0 := by decide
              simp only [List.head?_cons, Option.mem_some_iff, forall_eq', FaultInBounds, hentry,
                htgt, copyInBounds_iff hram hswp h.devices.ramflg h.devices.swpflg,
                hasFrame_ofNat_iff hvic, hasFrame_ofNat_iff hsmall,
                hasFrame_ofNat_iff (show 0 < 2 ^ 24 by decide), Bool.false_eq_true, false_or,
                if_false, h.devices.ramflg, forall_const, ne_eq, reduceCtorEq, not_false_eq_true]
              constructor
              · rintro ⟨⟨⟨hram, _⟩, _, hswp⟩, _⟩
                exact ⟨hram, hswp⟩
              · rintro ⟨hvicRam, hvicSwp⟩
                refine ⟨⟨⟨hvicRam, hswpfpn⟩, by omega, hvicSwp⟩, hbyte _ ?_⟩
                have hfpn := pagingFpn_ptePresent 0#32 (BitVec.ofNat 32 vicpgn.val)
                rw [BitVec.toNat_ofNat] at hfpn
                omega

/-- Conditions on addresses that agree under the invariant agree for a region. -/
theorem regionAll_iff {P Q : Caller → Addr → Prop}
    (hPQ : ∀ {c : Caller} {addr : Addr}, OnDevice n c → (P c addr ↔ Q c addr))
    (h : OnDevice n c) (rgid offset : Addr) :
    c.RegionAll P rgid offset ↔ c.RegionAll Q rgid offset := by
  unfold RegionAll
  split
  · exact Iff.rfl
  · exact Iff.rfl
  · exact hPQ h

theorem nameAll_iff {P Q : Caller → Addr → Prop}
    (hPQ : ∀ {c : Caller} {addr : Addr}, OnDevice n c → (P c addr ↔ Q c addr)) (memrg : Addr) :
    ∀ {k i : Nat} {c : Caller}, OnDevice n c → (NameAll P memrg k i c ↔ NameAll Q memrg k i c) := by
  intro k
  induction k with
  | zero => exact fun _ => Iff.rfl
  | succ k ih =>
      intro i c h
      -- the next character is read in the state that the read of this one leaves
      refine and_congr (regionAll_iff hPQ h _ _) (forall_congr' fun r => forall_congr' fun c' =>
        forall_congr' fun hread => ?_)
      exact ih (h.libread hread)

/-- For each instruction, the addresses are on the devices exactly under its condition. -/
theorem OnDevice.addresses_iff (h : OnDevice n c) (ins : Inst) :
    c.InstOnDevice ins ↔ c.InstSafe ins := by
  have hram : c.mram.maxsz < 2 ^ 31 := h.devices.ramsz ▸ h.devices.ramInt
  have hPQ : ∀ {c : Caller} {addr : Addr}, OnDevice n c →
      (c.AccessInBounds addr ↔ c.PageSafe addr) := fun h => h.access_iff _
  unfold InstOnDevice InstSafe InstAll
  cases ins.opcode with
  | read => exact regionAll_iff hPQ h _ _
  | write => exact regionAll_iff hPQ h _ _
  | syscall =>
      dsimp only
      cases sysCallTable ins.arg0 with
      | memmap =>
          dsimp only
          cases memOp ins.arg1 with
          | swpOp =>
              exact copyInBounds_iff hram h.devices.swpInt h.devices.ramflg h.devices.swpflg _ _
          | _ => exact Iff.rfl
      | killall => exact nameAll_iff hPQ _ h
      | _ => exact Iff.rfl
  | _ => exact Iff.rfl

/-! ## Outcomes -/

theorem killallName_isSome {memrg : Addr} :
    ∀ {k i : Nat} {c : Caller}, NameAll AccessInBounds memrg k i c →
      (killallName memrg k i c).isSome := by
  intro k
  induction k with
  | zero => exact fun _ => rfl
  | succ k ih =>
      rintro i c ⟨hfirst, hrest⟩
      rw [← libread_isSome_iff c memrg _ 0#32] at hfirst
      rcases Option.isSome_iff_exists.1 hfirst with ⟨⟨⟨ret, data⟩, c₁⟩, hread⟩
      have hname := ih (hrest _ _ hread)
      simp only [killallName, hread]
      split
      · rfl
      · rw [Option.isSome_map]
        exact hname

theorem sysMemmap_isSome {nr a1 a2 a3 : Addr} (hnr : sysCallTable nr = .memmap)
    (h : c.InstOnDevice ⟨.syscall, nr, a1, a2, a3⟩) : (c.sysMemmap a1 a2 a3).isSome := by
  simp only [InstOnDevice, InstAll, hnr] at h
  unfold Caller.sysMemmap
  cases hop : memOp a1 with
  | swpOp =>
      rw [hop] at h
      rw [Option.isSome_map]
      exact (c.mmSwapPage_isSome_iff a2 a3).2 h
  | ioRead =>
      rw [hop] at h
      rw [Option.isSome_map]
      exact (c.mram.read_isSome_iff a2).2 fun _ => h
  | ioWrite =>
      rw [hop] at h
      rw [Option.isSome_map]
      exact (c.mram.write_isSome_iff a2 _).2 fun _ => h
  | _ => rfl

theorem libsyscall_isSome {nr a1 a2 a3 : Addr}
    (h : c.InstOnDevice ⟨.syscall, nr, a1, a2, a3⟩) : (c.libsyscall nr a1 a2 a3).isSome := by
  unfold Caller.libsyscall
  cases hnr : sysCallTable nr with
  | memmap => exact sysMemmap_isSome hnr h
  | killall =>
      simp only [InstOnDevice, InstAll, hnr] at h
      rw [Caller.sysKillall, Option.isSome_map]
      exact killallName_isSome h
  | _ => rfl

/-- An instruction whose addresses are on the devices has an outcome exactly if it stays in the
region table. -/
theorem runInst_isSome_iff {ins : Inst} (hlist : c.mm.ShortList) (h : c.InstOnDevice ins) :
    (c.runInst ins).isSome ↔ c.InTable ins := by
  rcases ins with ⟨opcode, arg0, arg1, arg2, arg3⟩
  cases opcode with
  | «calc» => exact iff_of_true rfl trivial
  | alloc => exact liballoc_isSome_iff hlist arg0 arg1
  | free => exact c.free_isSome_iff arg0
  | read =>
      refine iff_of_true ?_ trivial
      rw [Caller.runInst, Option.isSome_map]
      exact (c.libread_isSome_iff arg0 arg1 arg2).2 h
  | write => exact iff_of_true ((c.libwrite_isSome_iff _ arg1 arg2).2 h) trivial
  | syscall => exact iff_of_true (libsyscall_isSome h) trivial

/-- For each instruction: it has an outcome and its addresses are on the devices exactly under its
condition. -/
theorem OnDevice.inst_iff (h : OnDevice n c) (hlist : c.mm.ShortList) (ins : Inst) :
    (c.runInst ins).isSome ∧ c.InstOnDevice ins ↔ c.InTable ins ∧ c.InstSafe ins := by
  rw [← h.addresses_iff]
  exact and_congr_left fun haddr => runInst_isSome_iff hlist haddr

end Caller

namespace Machine

/-! ## Runs -/

/-- The instruction has an outcome, and every address that it uses on a device is below `maxsz`. -/
def OnDevice (m : Machine) : Action → Prop
  | .run p => ∀ x ∈ m.next p, (x.1.runInst x.2).isSome ∧ x.1.InstOnDevice x.2
  | .load _ | .finish _ => True

/-- The condition of the instruction that is executed. -/
def Safe (m : Machine) : Action → Prop
  | .run p => ∀ x ∈ m.next p, x.1.InTable x.2 ∧ x.1.InstSafe x.2
  | .load _ | .finish _ => True

/-- The invariant, for all processes. -/
structure Inv (n : Nat) (m : Machine) : Prop where
  devices : Caller.Devices n m.sys.mram m.sys.activeMswp
  entries : ∀ p pgd, m.sys.directory p = some pgd → ∀ pgn, Caller.EntryOk n (pgd pgn)
  lists : m.sys.ShortLists

variable {n : Nat} {m m' : Machine}

theorem Inv.caller (h : m.Inv n) {p : Nat} {c : Caller} (hc : m.sys.caller p = some c) :
    Caller.OnDevice n c := by
  rcases PagingSys.caller_spec hc with ⟨_, hdir, hmram, hmswp⟩
  exact ⟨hmram ▸ hmswp ▸ h.devices, h.entries p _ hdir⟩

theorem Inv.setTask (h : m.Inv n) {p : Nat} {c : Caller} {t : Task} (hc : m.sys.caller p = some c)
    (ht : Caller.OnDevice n t.caller) (hlist : t.caller.mm.ShortList) : (m.setTask p t).Inv n := by
  refine ⟨ht.devices, fun q pgd hdir => ?_, h.lists.setCaller hlist⟩
  -- process `p` has its new directory, the others theirs
  simp only [Machine.setTask, PagingSys.directory_setCaller (PagingSys.caller_spec hc).1] at hdir
  by_cases hq : q = p
  · subst hq
    obtain rfl : t.caller.mm.pgd = pgd := by simpa using hdir
    exact ht.entries
  · rw [Function.update_of_ne hq] at hdir
    exact h.entries q pgd hdir

theorem inv_start {memramsz memswpsz : Nat} (hram : memramsz < 2 ^ 31)
    (hswp : memswpsz < 2 ^ 31) : (start .zero memramsz memswpsz).Inv memramsz := by
  -- both free lists come from `MEMPHY_format`
  have hfree : ∀ size, ∀ f ∈ (Memphy.create size true).freeFpList, f < size / 256 := by
    intro size f hf
    rw [Memphy.create_freeFpList] at hf
    exact List.mem_range.1 hf
  refine ⟨⟨Memphy.create_maxsz _ _, hram, ?_, Memphy.create_rdmflg _ _, Memphy.create_rdmflg _ _,
    hfree memramsz, ?_⟩, fun p pgd hdir => ?_, fun pm hpm => ?_⟩
  · exact (Memphy.create_maxsz memswpsz true).symm ▸ hswp
  · intro f hf
    have hlt := hfree memswpsz f hf
    rwa [← Memphy.create_maxsz memswpsz true] at hlt
  · cases hdir
  · cases hpm

theorem Inv.load (h : m.Inv n) (prog : List Line) : (m.load .zero prog).Inv n := by
  refine ⟨h.devices, fun q pgd hdir => ?_, h.lists.append Mm.initMm_shortList⟩
  -- an old process, the new one, or no process
  rcases Nat.lt_trichotomy q m.sys.procs.length with hlt | rfl | hgt
  · exact h.entries q pgd (by
      simpa [Machine.load, PagingSys.directory, List.getElem?_append_left hlt] using hdir)
  · obtain rfl : (fun _ => 0#32) = pgd := by
      simpa [Machine.load, PagingSys.directory, Filling.zero, Mm.initMm, Mm.zeroed] using hdir
    exact fun _ => Caller.entryOk_zero
  · have hnone : (m.load .zero prog).sys.procs[q]? = none :=
      List.getElem?_eq_none (by simpa [Machine.load] using hgt)
    simp [PagingSys.directory, hnone] at hdir

theorem Inv.finish (h : m.Inv n) (p : Nat) :
    ({ m with sys := { m.sys with procs := m.sys.procs.set p none } } : Machine).Inv n := by
  refine ⟨h.devices, fun q pgd hdir => ?_, h.lists.finish p⟩
  rw [PagingSys.directory_finish] at hdir
  by_cases hq : q = p
  · subst hq
    simp at hdir
  · rw [Function.update_of_ne hq] at hdir
    exact h.entries q pgd hdir

/-- Step lemma: the machine keeps the invariant. -/
theorem Inv.exec {a : Action} (h : m.Inv n) (hexec : m.exec .zero a = some m') : m'.Inv n := by
  rcases Option.map_eq_some_iff.1 hexec with ⟨⟨ret, m''⟩, hperform, rfl⟩
  cases a with
  | load prog =>
      obtain ⟨_, rfl⟩ := Prod.mk.inj (Option.some.inj hperform)
      exact h.load prog
  | run p =>
      rcases run_eq hperform with ⟨c, hc, ⟨_, _, rfl⟩ | ⟨ins, c', _, hinst, rfl⟩⟩
      · exact h.setTask hc (h.caller hc) (h.lists.caller hc)
      · exact h.setTask hc ((h.caller hc).runInst hinst)
          (Caller.shortList_runInst (h.lists.caller hc) hinst)
  | finish p =>
      simp only [perform] at hperform
      split at hperform
      · rcases Option.map_eq_some_iff.1 hperform with ⟨sys, hsys, heq⟩
        obtain ⟨_, rfl⟩ := Prod.mk.inj heq
        rcases Option.map_eq_some_iff.1 hsys with ⟨r, hfinish, rfl⟩
        rcases Option.map_eq_some_iff.1 hfinish with ⟨c, _, rfl⟩
        exact h.finish p
      · cases hperform

theorem Inv.onDevice_iff (h : m.Inv n) (a : Action) : m.OnDevice a ↔ m.Safe a := by
  cases a with
  | load _ => exact Iff.rfl
  | finish _ => exact Iff.rfl
  | run p =>
      refine forall_congr' fun x => forall_congr' fun hx => ?_
      rcases Option.bind_eq_some_iff.1 hx with ⟨c, hc, hmap⟩
      rcases Option.map_eq_some_iff.1 hmap with ⟨ins, _, rfl⟩
      exact (h.caller hc).inst_iff (h.lists.caller hc) ins

/-- For all sizes of RAM and swap, all programs, any number of processes and any order of their
instructions: every instruction has an outcome with every access on its device exactly when every
instruction meets its condition. -/
theorem along_onDevice_iff {memramsz memswpsz : Nat} (hram : memramsz < 2 ^ 31)
    (hswp : memswpsz < 2 ^ 31) (as : List Action) :
    Along (exec .zero) OnDevice (start .zero memramsz memswpsz) as ↔
      Along (exec .zero) Safe (start .zero memramsz memswpsz) as :=
  along_iff (I := Inv memramsz) (fun h => h.onDevice_iff _) (fun h hexec => h.exec hexec)
    (inv_start hram hswp)

/-- A process reads the last byte of RAM. -/
def readLast : List Action := [.load [⟨.syscall, [17, 4, 511, 0]⟩], .run 0]

theorem readLast_onDevice : Along (exec .zero) OnDevice (start .zero 512 512) readLast := by
  refine (along_onDevice_iff (by decide) (by decide) readLast).2 ⟨trivial, fun m hm => ?_⟩
  obtain rfl := Option.some.inj hm
  refine ⟨fun x hx => ?_, fun _ _ => trivial⟩
  obtain rfl := Option.some.inj hx
  have hin : (Memphy.create 512 true).InBounds 511#32 := by decide
  exact ⟨trivial, hin⟩

/-- A process reads the byte behind the end of RAM. -/
def readBehind : List Action := [.load [⟨.syscall, [17, 4, 512, 0]⟩], .run 0]

theorem readBehind_not_onDevice :
    ¬ Along (exec .zero) OnDevice (start .zero 512 512) readBehind := by
  rintro ⟨_, hrest⟩
  -- the instruction behind `load` gives address 512 of 512 bytes
  have hrun := (hrest _ rfl).1
  have hin : (Memphy.create 512 true).InBounds 512#32 := (hrun _ rfl).2
  revert hin
  decide

end Machine
end MiniOs
