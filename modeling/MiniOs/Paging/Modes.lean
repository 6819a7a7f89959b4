import MiniOs.Lib.Run
import MiniOs.Paging.Memphy

/-!
# Modes — random and sequential devices

Both kinds of device should store bytes alike; a sequential one only moves its cursor first.  But
`MEMPHY_seq_read` and `MEMPHY_seq_write` test `!mp->rdmflg`, so they refuse the devices that they
are for.
-/

namespace MiniOs

open Lib

namespace Memphy

/-! ## The cursor -/

/-- The loop of `MEMPHY_mv_csr`, with its condition tested in every round; `none` is a division by
zero, or a loop that goes on for more than `fuel` rounds. -/
def mvCsrWhile (maxsz : Nat) (offset : Int) : (fuel numstep cursor : Nat) → Option Nat
  | 0, _, _ => none
  | fuel + 1, numstep, cursor =>
      if numstep < offset ∧ numstep < maxsz then
        if maxsz = 0 then none
        else mvCsrWhile maxsz offset fuel (numstep + 1) ((cursor + 1) % maxsz)
      else some cursor

/-- With `n` rounds to go, the loop makes them and ends. -/
theorem mvCsrWhile_eq {maxsz : Nat} {offset : Int} (fuel : Nat) :
    ∀ (n numstep cursor : Nat), n < fuel → numstep + n = min offset.toNat maxsz →
      mvCsrWhile maxsz offset fuel numstep cursor = some (mvCsrLoop maxsz n cursor) := by
  induction fuel with
  | zero => exact fun n _ _ hlt _ => absurd hlt (Nat.not_lt_zero n)
  | succ fuel ih =>
      intro n numstep cursor hlt hsum
      cases n with
      | zero =>
          have hend : ¬ ((numstep : Int) < offset ∧ numstep < maxsz) := by omega
          rw [mvCsrWhile, if_neg hend, mvCsrLoop]
      | succ n =>
          have hmore : (numstep : Int) < offset ∧ numstep < maxsz := by omega
          have hsize : maxsz ≠ 0 := by omega
          rw [mvCsrWhile, if_pos hmore, if_neg hsize, mvCsrLoop]
          exact ih n (numstep + 1) _ (by omega) (by omega)

theorem mvCsrLoop_of_lt {maxsz : Nat} (n : Nat) :
    ∀ cursor, cursor + n < maxsz → mvCsrLoop maxsz n cursor = cursor + n := by
  induction n with
  | zero => exact fun _ _ => rfl
  | succ n ih =>
      intro cursor hlt
      rw [mvCsrLoop, Nat.mod_eq_of_lt (by omega), ih (cursor + 1) (by omega)]
      omega

/-- For every size and every offset, `MEMPHY_mv_csr` ends and never divides by zero; inside the
device it leaves the cursor at the offset. -/
theorem mvCsr_ends (maxsz : Nat) (offset : Addr) :
    ∃ cursor : Nat, mvCsrWhile maxsz offset.toInt (maxsz + 1) 0 0 = some cursor ∧
      (0 ≤ offset.toInt → offset.toInt < maxsz → (cursor : Int) = offset.toInt) := by
  have hend := @mvCsrWhile_eq maxsz offset.toInt (maxsz + 1)
    (min offset.toInt.toNat maxsz) 0 0 (by omega) (by omega)
  refine ⟨_, hend, fun hpos hlt => ?_⟩
  have hmin : min offset.toInt.toNat maxsz = offset.toInt.toNat := by omega
  rw [hmin, mvCsrLoop_of_lt _ 0 (by omega), Nat.zero_add]
  exact Int.toNat_of_nonneg hpos

/-! ## Formatted devices -/

section

variable (mp : Memphy) (stale : List Nat) (maxSize : Nat) (randomflg : Bool)

theorem initMemphy_fields : (mp.initMemphy stale maxSize randomflg).storage = (fun _ => 0) ∧
    (mp.initMemphy stale maxSize randomflg).maxsz = maxSize ∧
    (mp.initMemphy stale maxSize randomflg).rdmflg = randomflg := by
  simp only [initMemphy, format]
  split <;> split <;> exact ⟨rfl, rfl, rfl⟩

end

end Memphy

/-! ## The account -/

/-- A device, and the byte last written to each address. -/
structure DeviceUse where
  mp : Memphy
  written : Nat → Byte

namespace DeviceUse

inductive Access
  | read (addr : Addr)
  | write (addr : Addr) (data : Byte)

def Access.addr : Access → Addr
  | .read addr | .write addr _ => addr

/-- The return value with the byte that is read, and the device. -/
def access (mp : Memphy) : Access → Option ((Int × Option Byte) × Memphy)
  | .read addr => (mp.read addr).map fun r => ((if r.1.isSome then 0 else -1, r.1), r.2)
  | .write addr data => (mp.write addr data).map fun r => ((r.1, none), r.2)

def note (written : Nat → Byte) : Access → Nat → Byte
  | .read _ => written
  | .write addr data => Function.update written addr.toNat data

def exec (st : DeviceUse) (a : Access) : Option DeviceUse :=
  (access st.mp a).map fun r => ⟨r.2, note st.written a⟩

/-- Behind `init_memphy`, every byte is 0. -/
def start (mp : Memphy) (stale : List Nat) (maxSize : Nat) (randomflg : Bool) : DeviceUse :=
  ⟨mp.initMemphy stale maxSize randomflg, fun _ => 0⟩

/-- An access returns 0, a read delivers the byte last written, and a sequential device has its
cursor at the address afterwards. -/
def Stores (st : DeviceUse) (a : Access) : Prop :=
  ∃ byte mp', access st.mp a = some ((0, byte), mp') ∧
    (∀ addr, a = .read addr → byte = some (st.written addr.toNat)) ∧
    (mp'.rdmflg = false → (mp'.cursor : Int) = a.addr.toInt)

/-- The device stores what is written to it, answers as a random access device does, and its cursor
finds every offset, in a loop that ends. -/
structure StoresAlike (mp : Memphy) (stale : List Nat) (maxSize : Nat) (randomflg : Bool)
    (as : List Access) : Prop where
  stores : Along exec Stores (start mp stale maxSize randomflg) as
  alike : outputs access (mp.initMemphy stale maxSize randomflg) as =
    outputs access (mp.initMemphy stale maxSize true) as
  seeks : ∀ offset : Addr, ∃ cursor : Nat,
    Memphy.mvCsrWhile maxSize offset.toInt (maxSize + 1) 0 0 = some cursor ∧
      (0 ≤ offset.toInt → offset.toInt < maxSize → (cursor : Int) = offset.toInt)

/-! ## Random access devices -/

/-- The invariant of a random access device: it holds the bytes last written. -/
structure Holds (maxSize : Nat) (st : DeviceUse) : Prop where
  maxsz : st.mp.maxsz = maxSize
  rdmflg : st.mp.rdmflg = true
  storage : st.mp.storage = st.written

theorem start_holds (mp : Memphy) (stale : List Nat) (maxSize : Nat) :
    (start mp stale maxSize true).Holds maxSize := by
  rcases mp.initMemphy_fields stale maxSize true with ⟨hstorage, hmaxsz, hflag⟩
  exact ⟨hmaxsz, hflag, hstorage⟩

/-- An access inside the device does what it should, and keeps the invariant. -/
theorem Holds.access {maxSize : Nat} {st : DeviceUse} (h : st.Holds maxSize) {a : Access}
    (hin : st.mp.InBounds a.addr) :
    st.Stores a ∧ ∀ st', st.exec a = some st' → st'.Holds maxSize := by
  cases a with
  | read addr =>
      have hread : st.mp.read addr = some (some (st.mp.storage addr.toNat), st.mp) :=
        Memphy.read_of_random h.rdmflg hin
      have haccess : DeviceUse.access st.mp (.read addr) =
          some ((0, some (st.mp.storage addr.toNat)), st.mp) := by
        rw [DeviceUse.access, hread]
        rfl
      refine ⟨⟨_, _, haccess, ?_, fun hseq => ?_⟩, fun st' hexec => ?_⟩
      · intro addr' heq
        obtain rfl := Access.read.inj heq
        rw [h.storage]
      · rw [h.rdmflg] at hseq
        cases hseq
      · rw [exec, haccess] at hexec
        obtain rfl := Option.some.inj hexec
        exact h
  | write addr data =>
      have hin' : st.mp.InBounds addr := hin
      have haccess : DeviceUse.access st.mp (.write addr data) = some ((0, none),
          { st.mp with storage := Function.update st.mp.storage addr.toNat data }) := by
        rw [DeviceUse.access, Memphy.write_of_random h.rdmflg hin']
        rfl
      refine ⟨⟨_, _, haccess, fun addr' heq => ?_, fun hseq => ?_⟩, fun st' hexec => ?_⟩
      · cases heq
      · exact absurd (h.rdmflg.symm.trans hseq) (by decide)
      · rw [exec, haccess] at hexec
        obtain rfl := Option.some.inj hexec
        exact ⟨h.maxsz, h.rdmflg,
          congrArg (fun f => Function.update f addr.toNat data) h.storage⟩

/-! ## Sequential devices -/

/-- A sequential device refuses every access. -/
theorem not_stores {st : DeviceUse} (h : st.mp.rdmflg = false) (a : Access) : ¬ st.Stores a := by
  rintro ⟨byte, mp', haccess, _⟩
  cases a with
  | read addr =>
      have hread : st.mp.read addr = some (none, st.mp) := by
        simp [Memphy.read, Memphy.seqRead, h]
      simp [access, hread] at haccess
  | write addr data =>
      have hwrite : st.mp.write addr data = some (-1, st.mp) := by
        simp [Memphy.write, Memphy.seqWrite, h]
      simp [access, hwrite] at haccess

/-! ## Runs -/

/-- Inside the device, a random access device does what it should. -/
theorem Holds.along {maxSize : Nat} {as : List Access}
    (hin : ∀ a ∈ as, 0 ≤ a.addr.toInt ∧ a.addr.toInt < maxSize) :
    ∀ {st : DeviceUse}, st.Holds maxSize → Along exec Stores st as := by
  induction as with
  | nil => exact fun _ => trivial
  | cons a as ih =>
      intro st h
      have ha : st.mp.InBounds a.addr := by
        have hfirst := hin a (List.mem_cons_self ..)
        rwa [← h.maxsz] at hfirst
      have hrest : ∀ b ∈ as, 0 ≤ b.addr.toInt ∧ b.addr.toInt < maxSize :=
        fun b hb => hin b (List.mem_cons_of_mem a hb)
      rcases h.access ha with ⟨hstores, hkept⟩
      exact ⟨hstores, fun st' hexec => ih hrest (hkept st' hexec)⟩

/-- For every device and all accesses inside it: it stores what it should exactly if it is a random
access device, or is not accessed. -/
theorem storesAlike_iff (mp : Memphy) (stale : List Nat) (maxSize : Nat) (randomflg : Bool)
    {as : List Access} (hin : ∀ a ∈ as, 0 ≤ a.addr.toInt ∧ a.addr.toInt < maxSize) :
    StoresAlike mp stale maxSize randomflg as ↔ randomflg = true ∨ as = [] := by
  constructor
  · intro h
    cases as with
    | nil => exact Or.inr rfl
    | cons a as =>
        left
        by_contra hseq
        rw [Bool.not_eq_true] at hseq
        have hflag : (start mp stale maxSize randomflg).mp.rdmflg = false :=
          (mp.initMemphy_fields stale maxSize randomflg).2.2.trans hseq
        exact not_stores hflag a h.stores.1
  · rintro (rfl | rfl)
    · exact ⟨(start_holds mp stale maxSize).along hin, rfl, Memphy.mvCsr_ends maxSize⟩
    · exact ⟨trivial, rfl, Memphy.mvCsr_ends maxSize⟩

theorem storesAlike_iff_byte : StoresAlike Memphy.zeroed [] 512 true
    [.write 300 7, .read 300] ↔ true = true ∨ [Access.write 300 7, .read 300] = [] :=
  storesAlike_iff Memphy.zeroed [] 512 true (by decide)

/-- A sequential device of two frames does not take a byte. -/
theorem not_storesAlike_sequential :
    ¬ StoresAlike Memphy.zeroed [] 512 false [.write 300 7, .read 300] := by
  intro h
  have hflag := (Memphy.zeroed.initMemphy_fields [] 512 false).2.2
  exact not_stores hflag (.write 300 7) h.stores.1

end DeviceUse
end MiniOs
