import Mathlib.Tactic
import MiniOs.Common

/-!
# Memphy — physical devices (`mm-memphy.c`)

A device is a byte array with a list of free frames.  C leaves an access outside the array
undefined: such a call has no outcome, `none`.  A call that returns `-1` has an outcome.
-/

namespace MiniOs

/-- `struct memphy_struct`; the free list is given by its frame numbers.  `maxsz` is an `int` that
is not negative. -/
structure Memphy where
  storage : Nat → Byte
  maxsz : Nat
  rdmflg : Bool
  cursor : Nat
  freeFpList : List Nat

namespace Memphy

/-- `addr` is an index of `storage`. -/
def InBounds (mp : Memphy) (addr : Addr) : Prop := 0 ≤ addr.toInt ∧ addr.toInt < mp.maxsz

instance (mp : Memphy) (addr : Addr) : Decidable (mp.InBounds addr) :=
  inferInstanceAs (Decidable (_ ∧ _))

/-! ## Access -/

/-- The loop of `MEMPHY_mv_csr`. -/
def mvCsrLoop (maxsz : Nat) : (numstep : Nat) → (cursor : Nat) → Nat
  | 0, cursor => cursor
  | n + 1, cursor => mvCsrLoop maxsz n ((cursor + 1) % maxsz)

def mvCsr (mp : Memphy) (offset : Addr) : Memphy :=
  { mp with cursor := mvCsrLoop mp.maxsz (min offset.toInt.toNat mp.maxsz) 0 }

/-- The value read, or `none` for the return value -1.  The test is `!mp->rdmflg`: the function
refuses exactly the sequential devices. -/
def seqRead (mp : Memphy) (addr : Addr) : Option (Option Byte × Memphy) :=
  if !mp.rdmflg then some (none, mp)
  else if mp.InBounds addr then some (some (mp.storage addr.toNat), mp.mvCsr addr)
  else none

def read (mp : Memphy) (addr : Addr) : Option (Option Byte × Memphy) :=
  if mp.rdmflg then
    if mp.InBounds addr then some (some (mp.storage addr.toNat), mp) else none
  else seqRead mp addr

/-- The return value and the device; the test is the one of `seqRead`. -/
def seqWrite (mp : Memphy) (addr : Addr) (value : Byte) : Option (Int × Memphy) :=
  if !mp.rdmflg then some (-1, mp)
  else if mp.InBounds addr then
    some (0, { mp.mvCsr addr with storage := Function.update mp.storage addr.toNat value })
  else none

def write (mp : Memphy) (addr : Addr) (data : Byte) : Option (Int × Memphy) :=
  if mp.rdmflg then
    if mp.InBounds addr then
      some (0, { mp with storage := Function.update mp.storage addr.toNat data })
    else none
  else seqWrite mp addr data

theorem read_of_random {mp : Memphy} {addr : Addr} (hflag : mp.rdmflg = true)
    (hin : mp.InBounds addr) : mp.read addr = some (some (mp.storage addr.toNat), mp) := by
  rw [read, if_pos hflag, if_pos hin]

theorem write_of_random {mp : Memphy} {addr : Addr} (hflag : mp.rdmflg = true)
    (hin : mp.InBounds addr) (data : Byte) : mp.write addr data =
      some (0, { mp with storage := Function.update mp.storage addr.toNat data }) := by
  rw [write, if_pos hflag, if_pos hin]

/-! ## Frames -/

/-- `MEMPHY_format`.  Without a frame the list head keeps its value; with a single frame the
`fp_next` of the node is what `malloc` left there, `stale`. -/
def format (mp : Memphy) (stale : List Nat) (pagesz : Nat) : Memphy :=
  match mp.maxsz / pagesz with
  -- if (numfp <= 0) return -1; the list is not touched
  | 0 => mp
  | 1 => { mp with freeFpList := 0 :: stale }
  | numfp => { mp with freeFpList := List.range numfp }

/-- `none` is the return value -1. -/
def getFreefp (mp : Memphy) : Option (Nat × Memphy) :=
  match mp.freeFpList with
  | [] => none
  | fpn :: rest => some (fpn, { mp with freeFpList := rest })

def putFreefp (mp : Memphy) (fpn : Nat) : Memphy :=
  { mp with freeFpList := fpn :: mp.freeFpList }

/-- `init_memphy` on a struct with the contents `mp`. -/
def initMemphy (mp : Memphy) (stale : List Nat) (maxSize : Nat) (randomflg : Bool) : Memphy :=
  let mp := { mp with storage := fun _ => 0, maxsz := maxSize }
  -- MEMPHY_format(mp, PAGING_PAGESZ)
  let mp := mp.format stale 256
  let mp := { mp with rdmflg := randomflg }
  if !mp.rdmflg then { mp with cursor := 0 } else mp

/-- A struct filled with zeros. -/
def zeroed : Memphy := ⟨fun _ => 0, 0, false, 0, []⟩

/-- `init_memphy` on storage filled with zeros. -/
def create (maxSize : Nat) (randomflg : Bool) : Memphy :=
  zeroed.initMemphy [] maxSize randomflg

/-- The number of frames of a device. -/
def numfp (mp : Memphy) : Nat := mp.maxsz / 256

@[simp] theorem create_maxsz (maxSize : Nat) (randomflg : Bool) :
    (create maxSize randomflg).maxsz = maxSize := by
  simp only [create, initMemphy, format]
  split <;> split <;> rfl

@[simp] theorem create_rdmflg (maxSize : Nat) (randomflg : Bool) :
    (create maxSize randomflg).rdmflg = randomflg := by
  simp only [create, initMemphy, format]
  split <;> split <;> rfl

theorem format_freeFpList {mp : Memphy} (h : mp.freeFpList = []) (pagesz : Nat) :
    (mp.format [] pagesz).freeFpList = List.range (mp.maxsz / pagesz) := by
  -- on a zeroed struct all three cases give the same list
  unfold format
  split
  · rename_i hzero
    simp [h, hzero]
  · rename_i hone
    simp [hone]
  · rfl

/-- After `init_memphy` the free list holds every frame once, in order. -/
theorem create_freeFpList (maxSize : Nat) (randomflg : Bool) :
    (create maxSize randomflg).freeFpList = List.range (maxSize / 256) := by
  have hformat := format_freeFpList
    (show (⟨fun _ => 0, maxSize, false, 0, []⟩ : Memphy).freeFpList = [] from rfl) 256
  calc
    (create maxSize randomflg).freeFpList =
        (format { zeroed with storage := fun _ => 0, maxsz := maxSize } [] 256).freeFpList := by
      unfold create initMemphy
      dsimp only
      split <;> rfl
    _ = List.range (maxSize / 256) := hformat

/-! ## What an access leaves alone -/

/-- Same size, mode and free list. -/
structure SameFrame (mp mp' : Memphy) : Prop where
  maxsz : mp'.maxsz = mp.maxsz
  rdmflg : mp'.rdmflg = mp.rdmflg
  freeFpList : mp'.freeFpList = mp.freeFpList

theorem SameFrame.refl (mp : Memphy) : SameFrame mp mp := ⟨rfl, rfl, rfl⟩

theorem SameFrame.trans {mp₁ mp₂ mp₃ : Memphy} (h : SameFrame mp₁ mp₂) (h' : SameFrame mp₂ mp₃) :
    SameFrame mp₁ mp₃ :=
  ⟨h'.maxsz.trans h.maxsz, h'.rdmflg.trans h.rdmflg, h'.freeFpList.trans h.freeFpList⟩

theorem read_sameFrame {mp mp' : Memphy} {addr : Addr} {value : Option Byte}
    (h : mp.read addr = some (value, mp')) : SameFrame mp mp' := by
  -- only the cursor of a device can move, if anything
  simp only [read, seqRead] at h
  split at h
  · split at h
    · obtain ⟨_, rfl⟩ := Prod.mk.inj (Option.some.inj h)
      exact SameFrame.refl mp
    · cases h
  · split at h
    · obtain ⟨_, rfl⟩ := Prod.mk.inj (Option.some.inj h)
      exact SameFrame.refl mp
    · split at h
      · obtain ⟨_, rfl⟩ := Prod.mk.inj (Option.some.inj h)
        exact ⟨rfl, rfl, rfl⟩
      · cases h

theorem write_sameFrame {mp mp' : Memphy} {addr : Addr} {data : Byte} {val : Int}
    (h : mp.write addr data = some (val, mp')) : SameFrame mp mp' := by
  -- the storage changes, or nothing does
  simp only [write, seqWrite] at h
  split at h
  · split at h
    · obtain ⟨_, rfl⟩ := Prod.mk.inj (Option.some.inj h)
      exact ⟨rfl, rfl, rfl⟩
    · cases h
  · split at h
    · obtain ⟨_, rfl⟩ := Prod.mk.inj (Option.some.inj h)
      exact SameFrame.refl mp
    · split at h
      · obtain ⟨_, rfl⟩ := Prod.mk.inj (Option.some.inj h)
        exact ⟨rfl, rfl, rfl⟩
      · cases h

/-- An access is defined unless it leaves the array of a random access device. -/
theorem read_isSome_iff (mp : Memphy) (addr : Addr) :
    (mp.read addr).isSome ↔ (mp.rdmflg = true → mp.InBounds addr) := by
  unfold read seqRead
  cases hflag : mp.rdmflg with
  | false => simp
  | true => by_cases hin : mp.InBounds addr <;> simp [hin]

theorem write_isSome_iff (mp : Memphy) (addr : Addr) (data : Byte) :
    (mp.write addr data).isSome ↔ (mp.rdmflg = true → mp.InBounds addr) := by
  unfold write seqWrite
  cases hflag : mp.rdmflg with
  | false => simp
  | true => by_cases hin : mp.InBounds addr <;> simp [hin]

end Memphy
end MiniOs
