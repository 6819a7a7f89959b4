import Mathlib.Data.List.GetD
import MiniOs.Paging.Cpu

/-!
# ProcName — the name that `killall` reads

The loop of `__sys_killall` fills `proc_name[100]` byte by byte until it finds -1 or has 99 of them.
But `libread` does not assign to its last argument, so `data` is the 0 that it was set to, whatever
the region holds.
-/

namespace MiniOs

/-! ## The loop -/

/-- `proc_name` -/
abbrev NameBuf := Fin 100 → Byte

/-- How the loop ends: with the name, with a write behind the buffer, not at all, or in a call of
`libread` that is undefined. -/
inductive NameRead
  | done (procName : NameBuf) (c : Caller)
  | outside
  | endless
  | undefined

namespace NameBuf

/-- `proc_name[i] = data`; `none` is a write outside the array. -/
def store (procName : NameBuf) (i : Nat) (data : Byte) : Option NameBuf :=
  if h : i < 100 then some (Function.update procName ⟨i, h⟩ data) else none

/-- The buffer with the bytes of a list from index `i` on. -/
def fill (procName : NameBuf) (i : Nat) (bytes : List Byte) : NameBuf :=
  fun j => if i ≤ j.val then bytes.getD (j.val - i) (procName j) else procName j

theorem store_eq {procName : NameBuf} {i : Nat} (hi : i < 100) (data : Byte) :
    procName.store i data = some (procName.fill i [data]) := by
  rw [store, dif_pos hi]
  congr 1
  funext j
  by_cases hj : j = ⟨i, hi⟩
  · subst hj
    simp [fill]
  · rw [Function.update_of_ne hj]
    have hval : j.val ≠ i := fun heq => hj (Fin.ext heq)
    unfold fill
    split
    · have hlen : [data].length ≤ j.val - i := by
        rw [List.length_singleton]
        omega
      rw [List.getD_eq_default _ _ hlen]
    · rfl

theorem fill_fill (procName : NameBuf) (i : Nat) (data : Byte) (bytes : List Byte) :
    (procName.fill i [data]).fill (i + 1) bytes = procName.fill i (data :: bytes) := by
  funext j
  unfold fill
  by_cases hlt : i + 1 ≤ j.val
  · have hle : i ≤ j.val := by omega
    have hsucc : j.val - i = j.val - (i + 1) + 1 := by omega
    simp [hlt, hle, hsucc]
  · by_cases hle : i ≤ j.val
    · have hzero : j.val - i = 0 := by omega
      simp [hlt, hle, hzero]
    · simp [hlt, hle]

end NameBuf

namespace Caller

/-- The loop of `__sys_killall` from index `i` on, for at most `fuel` rounds. -/
def nameLoop (memrg : Addr) : (fuel : Nat) → (i : Nat) → NameBuf → Caller → NameRead
  | 0, _, _, _ => .endless
  | fuel + 1, i, procName, c =>
      -- data = 0; libread(caller, memrg, i, &data)
      match c.libread memrg (BitVec.ofNat 32 i) 0#32 with
      | none => .undefined
      | some ((_, data), c) =>
          if data = -1#32 then
            match procName.store i 0 with
            | none => .outside
            | some procName => .done procName c
          else
            match procName.store i (data.setWidth 8) with
            | none => .outside
            | some procName =>
                -- if (i >= (sizeof(proc_name) - 1))
                if 99 ≤ i + 1 then
                  match procName.store (i + 1) 0 with
                  | none => .outside
                  | some procName => .done procName c
                else nameLoop memrg fuel (i + 1) procName c

/-- The loop writes the characters of `killallName` and a terminator. -/
theorem nameLoop_eq (memrg : Addr) : ∀ (n fuel i : Nat) (procName : NameBuf) (c : Caller),
    i + n = 98 → n < fuel → nameLoop memrg fuel i procName c =
      match killallName memrg (n + 1) i c with
      | none => .undefined
      | some (name, c) => .done (procName.fill i (name ++ [0])) c := by
  intro n
  induction n with
  | zero =>
      intro fuel i procName c hi hfuel
      obtain rfl : i = 98 := hi
      cases fuel with
      | zero => exact absurd hfuel (Nat.lt_irrefl 0)
      | succ fuel =>
          rw [nameLoop, killallName]
          cases hread : c.libread memrg (BitVec.ofNat 32 98) 0#32 with
          | none => rfl
          | some r =>
              rcases r with ⟨⟨val, data⟩, c'⟩
              by_cases hend : data = -1#32
              · simp [hend, NameBuf.store_eq]
              · simp only [if_neg hend, killallName]
                simp [NameBuf.store_eq, NameBuf.fill_fill]
  | succ n ih =>
      intro fuel i procName c hi hfuel
      cases fuel with
      | zero => exact absurd hfuel (Nat.not_lt_zero _)
      | succ fuel =>
          have hroom : i < 100 := by omega
          have hmore : ¬ 99 ≤ i + 1 := by omega
          rw [nameLoop, killallName]
          cases hread : c.libread memrg (BitVec.ofNat 32 i) 0#32 with
          | none => rfl
          | some r =>
              rcases r with ⟨⟨val, data⟩, c'⟩
              by_cases hend : data = -1#32
              · simp [hend, NameBuf.store_eq hroom]
              · simp only [if_neg hend, NameBuf.store_eq hroom, if_neg hmore]
                rw [ih fuel (i + 1) _ c' (by omega) (by omega)]
                cases killallName memrg (n + 1) (i + 1) c' with
                | none => rfl
                | some r =>
                    simp [NameBuf.fill_fill]

/-- Whatever the memory holds, the loop ends and stays inside the buffer. -/
theorem nameLoop_ends (memrg : Addr) (procName : NameBuf) (c : Caller) :
    nameLoop memrg 100 0 procName c ≠ .outside ∧ nameLoop memrg 100 0 procName c ≠ .endless := by
  rw [nameLoop_eq memrg 98 100 0 procName c rfl (by decide)]
  cases killallName memrg 99 0 c with
  | none => exact ⟨by simp, by simp⟩
  | some r => exact ⟨by simp, by simp⟩

/-! ## The bytes of the region -/

/-- The next `n` bytes of region `memrg`, from offset `i` on, are those of `b`, each of them read by
`__read` from the memory that the reads before it left behind. -/
def RegionHolds (memrg : Addr) (b : Nat → Byte) : (n : Nat) → (i : Nat) → Caller → Prop
  | 0, _, _ => True
  | n + 1, i, c => ∃ c', c.read memrg (BitVec.ofNat 32 i) = some ((0, some (b i)), c') ∧
      RegionHolds memrg b n (i + 1) c'

/-- `n` bytes and a terminator. -/
def IsName (b : Nat → Byte) (n : Nat) (procName : NameBuf) : Prop :=
  ∀ j : Fin 100, (j.val < n → procName j = b j.val) ∧ (j.val = n → procName j = 0)

/-- The name ends in front of the first -1, and has at most 99 bytes. -/
structure Named (b : Nat → Byte) (procName : NameBuf) : Prop where
  ended : ∀ n ≤ 98, b n = -1#8 → (∀ j < n, b j ≠ -1#8) → IsName b n procName
  full : (∀ j ≤ 98, b j ≠ -1#8) → IsName b 99 procName

/-- The loop leaves the name in the buffer; for every content of the memory it ends, and it never
writes outside the buffer. -/
structure ReadsName (c : Caller) (memrg : Addr) (stale : NameBuf) (b : Nat → Byte) : Prop where
  named : ∃ procName c', nameLoop memrg 100 0 stale c = .done procName c' ∧ Named b procName
  ends : ∀ (c' : Caller) (stale' : NameBuf), nameLoop memrg 100 0 stale' c' ≠ .outside ∧
    nameLoop memrg 100 0 stale' c' ≠ .endless

/-- No byte of the region arrives. -/
theorem killallName_of_holds {memrg : Addr} {b : Nat → Byte} : ∀ {n i : Nat} {c : Caller},
    RegionHolds memrg b n i c → ∃ c', killallName memrg n i c = some (List.replicate n 0, c') := by
  intro n
  induction n with
  | zero => exact fun _ => ⟨_, rfl⟩
  | succ n ih =>
      rintro i c ⟨c', hread, hrest⟩
      rcases ih hrest with ⟨c'', hname⟩
      refine ⟨c'', ?_⟩
      have hlib : c.libread memrg (BitVec.ofNat 32 i) 0#32 = some ((0, 0#32), c') := by
        rw [libread, hread]
        rfl
      have hzero : (0#32 : Addr) ≠ -1#32 := by decide
      rw [killallName, hlib]
      simp only [if_neg hzero, hname]
      rfl

theorem nameLoop_of_holds {memrg : Addr} {b : Nat → Byte} {c : Caller}
    (h : RegionHolds memrg b 99 0 c) (stale : NameBuf) :
    ∃ c', nameLoop memrg 100 0 stale c = .done (fun _ => 0) c' := by
  rcases killallName_of_holds h with ⟨c', hname⟩
  refine ⟨c', ?_⟩
  rw [nameLoop_eq memrg 98 100 0 stale c rfl (by decide), hname]
  have hzeros : List.replicate 99 (0 : Byte) ++ [0] = List.replicate 100 0 := by
    rw [← List.replicate_succ']
  have hfill : stale.fill 0 (List.replicate 99 0 ++ [0]) = fun _ => 0 := by
    funext j
    have hj : j.val - 0 < (List.replicate 100 (0 : Byte)).length := by simp
    rw [hzeros, NameBuf.fill, if_pos (Nat.zero_le _), List.getD_eq_getElem _ _ hj,
      List.getElem_replicate]
  simp only [hfill]

/-- A buffer of zeros is the name exactly if the bytes in front of the first -1 are zeros. -/
theorem named_zeros_iff (b : Nat → Byte) :
    Named b (fun _ => 0) ↔ ∀ i < 99, (∀ j ≤ i, b j ≠ -1#8) → b i = 0 := by
  constructor
  · intro h i hi hbefore
    by_cases hends : ∃ n, n ≤ 98 ∧ b n = -1#8
    · -- the first -1 is behind `i`
      classical
      have hfirst := Nat.find_spec hends
      have hleast : ∀ j < Nat.find hends, b j ≠ -1#8 := by
        intro j hj heq
        exact Nat.find_min hends hj ⟨by omega, heq⟩
      have hlt : i < Nat.find hends := by
        by_contra hle
        exact hbefore _ (Nat.le_of_not_lt hle) hfirst.2
      exact ((h.ended _ hfirst.1 hfirst.2 hleast ⟨i, by omega⟩).1 hlt).symm
    · have hnone : ∀ j ≤ 98, b j ≠ -1#8 := fun j hj heq => hends ⟨j, hj, heq⟩
      exact ((h.full hnone ⟨i, by omega⟩).1 hi).symm
  · intro h
    refine ⟨fun n hn _ hbefore j => ⟨fun hj => ?_, fun _ => rfl⟩,
      fun hnone j => ⟨fun hj => ?_, fun _ => rfl⟩⟩
    · exact (h j.val (by omega) fun k hk => hbefore k (by omega)).symm
    · exact (h j.val (by omega) fun k hk => hnone k (by omega)).symm

/-- For every process and every content of the region: the name is read exactly if all of its bytes
are 0. -/
theorem readsName_iff {c : Caller} {memrg : Addr} {b : Nat → Byte} (h : RegionHolds memrg b 99 0 c)
    (stale : NameBuf) :
    ReadsName c memrg stale b ↔ ∀ i < 99, (∀ j ≤ i, b j ≠ -1#8) → b i = 0 := by
  rcases nameLoop_of_holds h stale with ⟨c', hloop⟩
  rw [← named_zeros_iff]
  constructor
  · rintro ⟨⟨procName, c'', hdone, hnamed⟩, _⟩
    rw [hloop] at hdone
    cases hdone
    exact hnamed
  · intro hnamed
    exact ⟨⟨_, c', hloop, hnamed⟩, fun c' stale' => nameLoop_ends memrg stale' c'⟩

/-! ## A process with one frame -/

/-- All pages of the process are in frame 0 of RAM, which holds the bytes of `storage`. -/
def holder (storage : Nat → Byte) : Caller where
  bp := pageSize
  mm := { Mm.zeroed with pgd := fun _ => pteSetFpn 0 0 }
  mram := { Memphy.create 256 true with storage := storage }
  activeMswp := Memphy.zeroed

theorem holder_read (storage : Nat → Byte) {i : Nat} (hi : i < 256) :
    (holder storage).read 1 (BitVec.ofNat 32 i) =
      some ((0, some (storage i)), holder storage) := by
  have hentry : getSymrgByid 1 = .entry ⟨1, by decide⟩ := getSymrgByid_symId ⟨1, by decide⟩
  have hpage : ∀ pgn, (holder storage).pgGetpage pgn = some (some 0, holder storage) := by
    intro pgn
    have hpresent : pagingPagePresent ((holder storage).mm.pgd pgn) = true :=
      pagingPagePresent_pteSetFpn 0 0
    have hfpn : pagingFpn ((holder storage).mm.pgd pgn) = 0 := by
      have hzero : (holder storage).mm.pgd pgn = pteSetFpn 0 0 := rfl
      rw [hzero]
      decide
    rw [pgGetpage, if_pos hpresent, hfpn]
  have hnat : (BitVec.ofNat 32 i : Addr).toNat = i := by
    rw [BitVec.toNat_ofNat]
    omega
  have haddr : (holder storage).rgAddr ⟨1, by decide⟩ (BitVec.ofNat 32 i) = BitVec.ofNat 32 i := by
    have hstart : ((holder storage).mm.symrgtbl ⟨1, by decide⟩).rgStart = 0 := rfl
    apply BitVec.eq_of_toNat_eq
    rw [rgAddr, hstart, zero_add, BitVec.toNat_setWidth, toNat_signExtend_of_lt (by omega),
      hnat]
    omega
  have hphys : phyaddr 0 (BitVec.ofNat 32 i) = BitVec.ofNat 32 i := by
    apply BitVec.eq_of_toNat_eq
    rw [phyaddr, zero_mul, zero_add, pagingOffst_toNat, hnat]
    omega
  have hin : (holder storage).mram.InBounds (BitVec.ofNat 32 i) := by
    have hsize : (holder storage).mram.maxsz = 256 := Memphy.create_maxsz 256 true
    have hint : (BitVec.ofNat 32 i : Addr).toInt = i := by
      rw [BitVec.toInt_eq_toNat_of_lt (by omega), hnat]
    rw [Memphy.InBounds, hint, hsize]
    omega
  have hrandom : (holder storage).mram.rdmflg = true := Memphy.create_rdmflg 256 true
  have hbyte : (holder storage).mram.read (BitVec.ofNat 32 i) =
      some (some (storage i), (holder storage).mram) := by
    rw [Memphy.read_of_random hrandom hin, hnat]
    rfl
  rw [read, hentry]
  simp only [pgGetval, hpage, haddr, hphys, hbyte, Option.map_some]

theorem holder_holds (storage : Nat → Byte) (n i : Nat) (h : i + n ≤ 256) :
    RegionHolds 1 storage n i (holder storage) := by
  induction n generalizing i with
  | zero => trivial
  | succ n ih => exact ⟨_, holder_read storage (by omega), ih (i + 1) (by omega)⟩

/-- Three zeros and the sentinel. -/
def blank : Nat → Byte
  | 0 | 1 | 2 => 0
  | _ => -1

theorem readsName_blank : ReadsName (holder blank) 1 (fun _ => 0) blank := by
  refine (readsName_iff (holder_holds blank 99 0 (by decide)) _).2 fun i _ hbefore => ?_
  by_cases hi : i < 3
  · interval_cases i <;> rfl
  · exact absurd rfl (hbefore 3 (by omega))

/-- `P0` and the sentinel. -/
def p0 : Nat → Byte
  | 0 => 0x50
  | 1 => 0x30
  | _ => -1

theorem not_readsName_p0 : RegionHolds 1 p0 99 0 (holder p0) ∧
    ¬ ReadsName (holder p0) 1 (fun _ => 0) p0 := by
  have hholds := holder_holds p0 99 0 (by decide)
  refine ⟨hholds, fun h => ?_⟩
  rcases h.named with ⟨procName, c', hdone, hnamed⟩
  rcases nameLoop_of_holds hholds (fun _ => 0) with ⟨c'', hloop⟩
  rw [hloop] at hdone
  cases hdone
  have hfirst := (named_zeros_iff p0).1 hnamed 0 (by decide) (by decide)
  exact absurd hfirst (by decide)

end Caller
end MiniOs
