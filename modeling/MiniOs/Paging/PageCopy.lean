import MiniOs.Lib.CellCopy
import MiniOs.Paging.OnDevice

/-!
# PageCopy — `__swap_cp_page` copies a frame and nothing else

The two devices of a copy are pointers, and they may be the same.  So the devices are a family here,
and the bytes of all of them one memory, in which the loop copies cell by cell.  `swapCpPage` is the
case of two different devices (`swapCpPage_pair`).
-/

namespace MiniOs

open Lib

/-- The devices that there are. -/
abbrev Devices (ι : Type) := ι → Memphy

namespace Devices

variable {ι : Type} [DecidableEq ι]

/-! ## The loop -/

/-- One round of the loop of `__swap_cp_page`.  The results of the accesses are not tested; after
a refused read the byte written would be indeterminate. -/
def swapCpCell (mpsrc : ι) (srcfpn : Addr) (mpdst : ι) (dstfpn : Addr) (devs : Devices ι)
    (cellidx : Nat) : Option (Devices ι) :=
  match (devs mpsrc).read (srcfpn * pagingPagesz + BitVec.ofNat 32 cellidx) with
  | some (some data, mp) =>
      let devs := Function.update devs mpsrc mp
      ((devs mpdst).write (dstfpn * pagingPagesz + BitVec.ofNat 32 cellidx) data).map fun r =>
        Function.update devs mpdst r.2
  | _ => none

/-- `__swap_cp_page`; `mpsrc` and `mpdst` may be one device. -/
def swapCpPage (devs : Devices ι) (mpsrc : ι) (srcfpn : Addr) (mpdst : ι) (dstfpn : Addr) :
    Option (Devices ι) :=
  (List.range 256).foldlM (swapCpCell mpsrc srcfpn mpdst dstfpn) devs

/-! ## The property -/

/-- `fpn` is a frame inside a random access device.  `maxsz` is an `int`. -/
structure FrameOf (mp : Memphy) (fpn : Addr) : Prop where
  rdmflg : mp.rdmflg = true
  maxsz_lt : mp.maxsz < 2 ^ 31
  nonneg : 0 ≤ fpn.toInt
  inside : 256 * (fpn.toInt + 1) ≤ mp.maxsz

/-- The destination frame is what the source frame was, and nothing else is different. -/
structure PageCopied (devs devs' : Devices ι) (mpsrc : ι) (srcfpn : Addr) (mpdst : ι)
    (dstfpn : Addr) : Prop where
  copied : ∀ k < 256, (devs' mpdst).storage (dstfpn.toNat * 256 + k) =
    (devs mpsrc).storage (srcfpn.toNat * 256 + k)
  source : ∀ k < 256, (devs' mpsrc).storage (srcfpn.toNat * 256 + k) =
    (devs mpsrc).storage (srcfpn.toNat * 256 + k)
  others : ∀ i a, ¬ (i = mpdst ∧ a / 256 = dstfpn.toNat) →
    (devs' i).storage a = (devs i).storage a
  freeFpList : ∀ i, (devs' i).freeFpList = (devs i).freeFpList
  kept : ∀ i, devs' i = { devs i with storage := (devs' i).storage }

/-- A copy in the other direction, made when at most the bytes of the source frame have changed,
restores the source device. -/
def CopiesBack (devs devs' : Devices ι) (mpsrc : ι) (srcfpn : Addr) (mpdst : ι)
    (dstfpn : Addr) : Prop :=
  ∀ mem : Nat → Byte, (∀ a, a / 256 ≠ srcfpn.toNat → mem a = (devs' mpsrc).storage a) →
    ∃ devs'', swapCpPage (Function.update devs' mpsrc { devs' mpsrc with storage := mem }) mpdst
      dstfpn mpsrc srcfpn = some devs'' ∧ devs'' mpsrc = devs mpsrc

/-! ## One round -/

/-- Byte `k` of frame `fpn` of device `i`. -/
def cell (i : ι) (fpn : Addr) (k : Nat) : ι × Nat := (i, fpn.toNat * 256 + k)

/-- The bytes of all devices. -/
def bytes (devs : Devices ι) (p : ι × Nat) : Byte := (devs p.1).storage p.2

/-- The devices with other bytes. -/
def withBytes (devs : Devices ι) (mem : ι × Nat → Byte) : Devices ι :=
  fun i => { devs i with storage := fun a => mem (i, a) }

section

omit [DecidableEq ι]

@[simp] theorem bytes_withBytes (devs : Devices ι) (mem : ι × Nat → Byte) :
    (devs.withBytes mem).bytes = mem := rfl

@[simp] theorem withBytes_withBytes (devs : Devices ι) (mem mem' : ι × Nat → Byte) :
    (devs.withBytes mem).withBytes mem' = devs.withBytes mem' := rfl

theorem FrameOf.withBytes {devs : Devices ι} {i : ι} {fpn : Addr} (h : FrameOf (devs i) fpn)
    (mem : ι × Nat → Byte) : FrameOf (devs.withBytes mem i) fpn :=
  ⟨h.rdmflg, h.maxsz_lt, h.nonneg, h.inside⟩

end

theorem FrameOf.cell {mp : Memphy} {fpn : Addr} (h : FrameOf mp fpn) {k : Nat} (hk : k < 256) :
    (fpn * pagingPagesz + BitVec.ofNat 32 k).toNat = fpn.toNat * 256 + k ∧
      mp.InBounds (fpn * pagingPagesz + BitVec.ofNat 32 k) := by
  have hsize : pagingPagesz.toNat = 256 := rfl
  have hmaxsz := h.maxsz_lt
  have hinside := h.inside
  have hnat : fpn.toInt = fpn.toNat := by
    have hnonneg := h.nonneg
    rw [BitVec.toInt_eq_toNat_cond] at hnonneg ⊢
    split at hnonneg <;> omega
  -- the product does not overflow
  have haddr : (fpn * pagingPagesz + BitVec.ofNat 32 k).toNat = fpn.toNat * 256 + k := by
    rw [cell_toNat fpn hk, BitVec.toNat_mul, hsize]
    omega
  refine ⟨haddr, ?_⟩
  rw [inBounds_iff hmaxsz, haddr]
  omega

/-- The bytes of one device are replaced. -/
theorem update_storage (devs : Devices ι) (i : ι) (storage : Nat → Byte) {mem : ι × Nat → Byte}
    (hself : ∀ a, mem (i, a) = storage a)
    (hothers : ∀ j a, j ≠ i → mem (j, a) = devs.bytes (j, a)) :
    Function.update devs i { devs i with storage := storage } = devs.withBytes mem := by
  funext j
  by_cases hj : j = i
  · subst hj
    have hbytes : (fun a => mem (j, a)) = storage := funext hself
    rw [Function.update_self, withBytes, hbytes]
  · have hbytes : (fun a => mem (j, a)) = (devs j).storage := funext fun a => hothers j a hj
    rw [Function.update_of_ne hj, withBytes, hbytes]

/-- A round copies one cell. -/
theorem swapCpCell_eq {devs : Devices ι} {mpsrc mpdst : ι} {srcfpn dstfpn : Addr}
    (hsrc : FrameOf (devs mpsrc) srcfpn) (hdst : FrameOf (devs mpdst) dstfpn) {k : Nat}
    (hk : k < 256) :
    swapCpCell mpsrc srcfpn mpdst dstfpn devs k = some (devs.withBytes
      (Function.update devs.bytes (cell mpdst dstfpn k) (devs.bytes (cell mpsrc srcfpn k)))) := by
  rcases hsrc.cell hk with ⟨hsrcaddr, hsrcin⟩
  rcases hdst.cell hk with ⟨hdstaddr, hdstin⟩
  have hread := Memphy.read_of_random hsrc.rdmflg hsrcin
  have hwrite := Memphy.write_of_random hdst.rdmflg hdstin (devs.bytes (cell mpsrc srcfpn k))
  rw [hsrcaddr] at hread
  rw [hdstaddr] at hwrite
  have hdata : (devs mpsrc).storage (srcfpn.toNat * 256 + k) =
      devs.bytes (cell mpsrc srcfpn k) := rfl
  rw [swapCpCell, hread]
  simp only [Function.update_eq_self, hdata, hwrite, Option.map_some]
  refine congrArg some (devs.update_storage mpdst _ (fun a => ?_) fun j a hj => ?_)
  · by_cases ha : a = dstfpn.toNat * 256 + k
    · subst ha
      rw [Function.update_self]
      exact Function.update_self ..
    · rw [Function.update_of_ne ha]
      exact Function.update_of_ne (fun heq => ha (Prod.mk.inj heq).2) _ _
  · exact Function.update_of_ne (fun heq => hj (Prod.mk.inj heq).1) _ _

/-- Run lemma: the loop copies the cells in their order. -/
theorem foldlM_swapCpCell {mpsrc mpdst : ι} {srcfpn dstfpn : Addr} {ks : List Nat}
    (hks : ∀ k ∈ ks, k < 256) {devs : Devices ι} (hsrc : FrameOf (devs mpsrc) srcfpn)
    (hdst : FrameOf (devs mpdst) dstfpn) :
    ks.foldlM (swapCpCell mpsrc srcfpn mpdst dstfpn) devs = some (devs.withBytes
      (copyCells (cell mpsrc srcfpn) (cell mpdst dstfpn) ks devs.bytes)) := by
  induction ks generalizing devs with
  | nil => rfl
  | cons k ks ih =>
      have hrest : ∀ j ∈ ks, j < 256 := fun j hj => hks j (List.mem_cons_of_mem k hj)
      have hstep := swapCpCell_eq hsrc hdst (hks k (List.mem_cons_self ..))
      rw [List.foldlM_cons, hstep, Option.bind_eq_bind, Option.bind_some,
        ih hrest (hsrc.withBytes _) (hdst.withBytes _), bytes_withBytes, withBytes_withBytes,
        copyCells_cons]

/-- A copy is defined, and changes the bytes only. -/
theorem swapCpPage_eq {devs : Devices ι} {mpsrc mpdst : ι} {srcfpn dstfpn : Addr}
    (hsrc : FrameOf (devs mpsrc) srcfpn) (hdst : FrameOf (devs mpdst) dstfpn) :
    devs.swapCpPage mpsrc srcfpn mpdst dstfpn = some (devs.withBytes
      (copyCells (cell mpsrc srcfpn) (cell mpdst dstfpn) (List.range 256) devs.bytes)) :=
  foldlM_swapCpCell (fun _ hk => List.mem_range.1 hk) hsrc hdst

/-! ## Two frames -/

omit [DecidableEq ι] in
theorem cells_apart {mpsrc mpdst : ι} {srcfpn dstfpn : Addr}
    (hne : mpsrc = mpdst → srcfpn ≠ dstfpn) :
    CellsApart (cell mpsrc srcfpn) (cell mpdst dstfpn) (List.range 256) := by
  have hinj : ∀ (i : ι) (fpn : Addr) (j k : Nat), cell i fpn j = cell i fpn k → j = k :=
    fun i fpn j k heq => Nat.add_left_cancel (Prod.mk.inj heq).2
  refine ⟨fun j hj k hk heq => ?_, fun j _ k _ => hinj _ _ j k, fun j _ k _ => hinj _ _ j k⟩
  rw [List.mem_range] at hj hk
  rcases Prod.mk.inj heq with ⟨hdev, haddr⟩
  -- the quotient by 256 is the frame number
  have hframe : srcfpn.toNat = dstfpn.toNat := by omega
  exact hne hdev (BitVec.eq_of_toNat_eq hframe)

omit [DecidableEq ι] in
/-- A byte outside the frame is none of its cells. -/
theorem ne_cell {i j : ι} {fpn : Addr} {a : Nat} (h : ¬ (j = i ∧ a / 256 = fpn.toNat)) :
    ∀ k ∈ List.range 256, (j, a) ≠ cell i fpn k := by
  intro k hk heq
  rw [List.mem_range] at hk
  rcases Prod.mk.inj heq with ⟨rfl, rfl⟩
  exact h ⟨rfl, by omega⟩

omit [DecidableEq ι] in
theorem pageCopied_withBytes {devs : Devices ι} {mpsrc mpdst : ι} {srcfpn dstfpn : Addr}
    {mem : ι × Nat → Byte}
    (hcopied : ∀ k < 256, mem (cell mpdst dstfpn k) = devs.bytes (cell mpsrc srcfpn k))
    (hothers : ∀ p, (∀ k ∈ List.range 256, p ≠ cell mpdst dstfpn k) → mem p = devs.bytes p)
    (hne : mpsrc = mpdst → srcfpn ≠ dstfpn) :
    PageCopied devs (devs.withBytes mem) mpsrc srcfpn mpdst dstfpn where
  copied := hcopied
  source k hk := hothers _ fun j hj => (cells_apart hne).apart k (List.mem_range.2 hk) j hj
  others i a h := hothers (i, a) (ne_cell h)
  freeFpList _ := rfl
  kept _ := rfl

omit [DecidableEq ι] in
theorem frame_of_ne_cell {i : ι} {fpn : Addr} {a : Nat}
    (h : ∀ k ∈ List.range 256, (i, a) ≠ cell i fpn k) : a / 256 ≠ fpn.toNat := by
  intro hframe
  have hk : a % 256 ∈ List.range 256 := List.mem_range.2 (Nat.mod_lt _ (by decide))
  refine h (a % 256) hk (Prod.ext rfl ?_)
  simp only [cell]
  omega

/-- The bytes of the source device are put back, also those that have been overwritten. -/
theorem copiesBack_withBytes {devs : Devices ι} {mpsrc mpdst : ι} {srcfpn dstfpn : Addr}
    (hsrc : FrameOf (devs mpsrc) srcfpn) (hdst : FrameOf (devs mpdst) dstfpn)
    (hdiff : mpsrc ≠ mpdst) {mem : ι × Nat → Byte}
    (hmem : mem = copyCells (cell mpsrc srcfpn) (cell mpdst dstfpn) (List.range 256) devs.bytes) :
    CopiesBack devs (devs.withBytes mem) mpsrc srcfpn mpdst dstfpn := by
  intro storage hstorage
  -- the bytes when the copy back begins
  let mem' : ι × Nat → Byte := fun p => if p.1 = mpsrc then storage p.2 else mem p
  have hself : ∀ a, mem' (mpsrc, a) = storage a := fun _ => if_pos rfl
  have hothers : ∀ j a, j ≠ mpsrc → mem' (j, a) = mem (j, a) := fun _ _ hj => if_neg hj
  have hbegin := (devs.withBytes mem).update_storage mpsrc storage hself hothers
  have hkept : ∀ p, (∀ k ∈ List.range 256, p ≠ cell mpsrc srcfpn k) → mem' p =
      copyCells (cell mpsrc srcfpn) (cell mpdst dstfpn) (List.range 256) devs.bytes p := by
    rintro ⟨j, a⟩ hp
    rw [← hmem]
    by_cases hj : j = mpsrc
    · subst hj
      rw [hself, hstorage a (frame_of_ne_cell hp)]
      rfl
    · exact hothers j a hj
  have hback : (fun a => copyCells (cell mpdst dstfpn) (cell mpsrc srcfpn) (List.range 256) mem'
      (mpsrc, a)) = (devs mpsrc).storage := by
    funext a
    exact copyCells_back (cells_apart fun heq => absurd heq hdiff) hkept
      (ne_cell fun heq => hdiff heq.1)
  have hcopy := swapCpPage_eq (hdst.withBytes mem') (hsrc.withBytes mem')
  rw [bytes_withBytes, withBytes_withBytes] at hcopy
  rw [withBytes_withBytes] at hbegin
  refine ⟨_, hbegin ▸ hcopy, ?_⟩
  rw [withBytes, hback]

theorem swapCpPage_copied {devs : Devices ι} {mpsrc mpdst : ι} {srcfpn dstfpn : Addr}
    (hsrc : FrameOf (devs mpsrc) srcfpn) (hdst : FrameOf (devs mpdst) dstfpn)
    (hne : mpsrc = mpdst → srcfpn ≠ dstfpn) :
    ∃ devs', devs.swapCpPage mpsrc srcfpn mpdst dstfpn = some devs' ∧
      PageCopied devs devs' mpsrc srcfpn mpdst dstfpn := by
  have hapart := cells_apart hne
  refine ⟨_, swapCpPage_eq hsrc hdst, pageCopied_withBytes ?_ ?_ hne⟩
  · exact fun k hk => copyCells_dst hapart (List.mem_range.2 hk)
  · exact fun p hp => copyCells_of_ne hp

theorem swapCpPage_back {devs devs' : Devices ι} {mpsrc mpdst : ι} {srcfpn dstfpn : Addr}
    (hsrc : FrameOf (devs mpsrc) srcfpn) (hdst : FrameOf (devs mpdst) dstfpn)
    (hdiff : mpsrc ≠ mpdst) (hcopy : devs.swapCpPage mpsrc srcfpn mpdst dstfpn = some devs') :
    CopiesBack devs devs' mpsrc srcfpn mpdst dstfpn := by
  rw [swapCpPage_eq hsrc hdst] at hcopy
  obtain rfl := Option.some.inj hcopy
  exact copiesBack_withBytes hsrc hdst hdiff rfl

/-- For every family of devices, and every two of their frames. -/
theorem swapCpPage_exact (devs : Devices ι) {mpsrc mpdst : ι} {srcfpn dstfpn : Addr}
    (hsrc : FrameOf (devs mpsrc) srcfpn) (hdst : FrameOf (devs mpdst) dstfpn)
    (hne : mpsrc = mpdst → srcfpn ≠ dstfpn) :
    ∃ devs', devs.swapCpPage mpsrc srcfpn mpdst dstfpn = some devs' ∧
      PageCopied devs devs' mpsrc srcfpn mpdst dstfpn ∧
      (mpsrc ≠ mpdst → CopiesBack devs devs' mpsrc srcfpn mpdst dstfpn) := by
  rcases swapCpPage_copied hsrc hdst hne with ⟨devs', hcopy, hcopied⟩
  exact ⟨devs', hcopy, hcopied, fun hdiff => swapCpPage_back hsrc hdst hdiff hcopy⟩

/-- RAM of four frames and swap of two. -/
def ramSwap : Devices Bool := fun i =>
  if i then Memphy.create 512 true
  else { Memphy.create 1024 true with storage := fun a => BitVec.ofNat 8 a }

theorem swapCpPage_exact_ramSwap :
    ∃ devs', ramSwap.swapCpPage false 3#32 true 1#32 = some devs' ∧
      PageCopied ramSwap devs' false 3#32 true 1#32 ∧
      (false ≠ true → CopiesBack ramSwap devs' false 3#32 true 1#32) := by
  have hsrc : FrameOf (ramSwap false) 3#32 := by
    refine ⟨Memphy.create_rdmflg 1024 true, ?_, by decide, ?_⟩
    · exact (Memphy.create_maxsz 1024 true).trans_lt (by decide)
    · exact Int.le_of_eq (congrArg Nat.cast (Memphy.create_maxsz 1024 true)).symm
  have hdst : FrameOf (ramSwap true) 1#32 := by
    refine ⟨Memphy.create_rdmflg 512 true, ?_, by decide, ?_⟩
    · exact (Memphy.create_maxsz 512 true).trans_lt (by decide)
    · exact Int.le_of_eq (congrArg Nat.cast (Memphy.create_maxsz 512 true)).symm
  exact swapCpPage_exact ramSwap hsrc hdst fun heq => absurd heq (by decide)

/-! ## Two different devices -/

def pair (mpsrc mpdst : Memphy) : Devices Bool := fun i => if i then mpdst else mpsrc

theorem swapCpCell_pair (mpsrc mpdst : Memphy) (srcfpn dstfpn : Addr) (k : Nat) :
    swapCpCell false srcfpn true dstfpn (pair mpsrc mpdst) k =
      (MiniOs.swapCpCell mpsrc srcfpn dstfpn mpdst k).map (pair mpsrc) := by
  have hsrc : pair mpsrc mpdst false = mpsrc := rfl
  rw [swapCpCell, MiniOs.swapCpCell, hsrc]
  cases hread : mpsrc.read (srcfpn * pagingPagesz + BitVec.ofNat 32 k) with
  | none => rfl
  | some r =>
      rcases r with ⟨data, mp⟩
      cases data with
      | none => rfl
      | some data =>
          -- a read that delivers a byte leaves the device as it is
          have hin := (mpsrc.read_eq_some_iff _).1 ⟨data, mp, hread⟩
          rw [Memphy.read_of_random hin.1 hin.2] at hread
          obtain rfl : mpsrc = mp := (Prod.mk.inj (Option.some.inj hread)).2
          have hself : Function.update (pair mpsrc mpdst) false mpsrc = pair mpsrc mpdst :=
            Function.update_eq_self false (pair mpsrc mpdst)
          have hwritten : ∀ mp, Function.update (pair mpsrc mpdst) true mp = pair mpsrc mp := by
            intro mp
            funext i
            cases i <;> rfl
          simp only [hself, hwritten, Option.map_map]
          rfl

/-- The copy between two devices is the one in the family of these two. -/
theorem swapCpPage_pair (mpsrc mpdst : Memphy) (srcfpn dstfpn : Addr) :
    (pair mpsrc mpdst).swapCpPage false srcfpn true dstfpn =
      (MiniOs.swapCpPage mpsrc srcfpn mpdst dstfpn).map (pair mpsrc) := by
  unfold swapCpPage MiniOs.swapCpPage
  generalize List.range 256 = ks
  induction ks generalizing mpdst with
  | nil => rfl
  | cons k ks ih =>
      rw [List.foldlM_cons, List.foldlM_cons, swapCpCell_pair]
      cases MiniOs.swapCpCell mpsrc srcfpn dstfpn mpdst k with
      | none => rfl
      | some mp => exact ih mp

end Devices

/-- `__mm_swap_page` copies the RAM frame into the swap frame, and does nothing else. -/
theorem Caller.mmSwapPage_exact {c : Caller} {vicfpn swpfpn : Addr}
    (hram : Devices.FrameOf c.mram vicfpn) (hswp : Devices.FrameOf c.activeMswp swpfpn) :
    ∃ mswp, c.mmSwapPage vicfpn swpfpn = some { c with activeMswp := mswp } ∧
      Devices.PageCopied (Devices.pair c.mram c.activeMswp) (Devices.pair c.mram mswp) false
        vicfpn true swpfpn := by
  have hdiff : false = true → vicfpn ≠ swpfpn := fun heq => absurd heq (by decide)
  rcases @Devices.swapCpPage_copied _ _ (Devices.pair c.mram c.activeMswp) false true vicfpn swpfpn
    hram hswp hdiff with ⟨devs', hcopy, hcopied⟩
  rw [Devices.swapCpPage_pair] at hcopy
  rcases Option.map_eq_some_iff.1 hcopy with ⟨mswp, hmswp, rfl⟩
  refine ⟨mswp, ?_, hcopied⟩
  rw [mmSwapPage, hmswp, Option.map_some]

end MiniOs
