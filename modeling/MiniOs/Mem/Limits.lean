import MiniOs.Mem.Refinement
import MiniOs.Mem.Taken

/-!
# Limits — `alloc_mem` is all or nothing

In every state reached from `init_mem`, `alloc_mem` gives exactly the pages asked for if they are
there, and nothing otherwise.  The sum of the space test wraps around for sizes near 2^32 only,
where the test of the free pages fails.
-/

namespace MiniOs

/-- The number of pages of `size` bytes. -/
def pagesNeeded (size : Addr) : Nat := ⌈(size.toNat : ℚ) / 1024⌉₊

/-- A size is not larger than its pages. -/
theorem size_le (size : Addr) : size.toNat ≤ 1024 * pagesNeeded size := by
  have hceil := Nat.le_ceil ((size.toNat : ℚ) / 1024)
  rw [div_le_iff₀ (by norm_num)] at hceil
  have hroom : size.toNat ≤ ⌈(size.toNat : ℚ) / 1024⌉₊ * 1024 := by exact_mod_cast hceil
  rw [pagesNeeded]
  omega

theorem pagesFor_toNat (size : Addr) : (pagesFor size).toNat = pagesNeeded size := by
  have hsize : pageSize.toNat = 1024 := rfl
  have hlt := size.isLt
  have hnat : (pagesFor size).toNat = (size.toNat + 1023) / 1024 := by
    have hmod : size % pageSize ≠ 0 ↔ size.toNat % 1024 ≠ 0 := by
      rw [ne_eq, ne_eq, BitVec.toNat_eq, BitVec.toNat_umod, hsize]
      rfl
    unfold pagesFor
    split
    · rename_i h
      rw [BitVec.toNat_add, BitVec.toNat_udiv, hsize]
      have hrest := hmod.1 h
      have hone : (1 : Addr).toNat = 1 := rfl
      omega
    · rename_i h
      rw [BitVec.toNat_udiv, hsize]
      have hrest := mt hmod.2 h
      omega
  -- both are the least number of pages with room for `size` bytes
  rw [hnat, pagesNeeded]
  apply Nat.le_antisymm
  · have hroom := size_le size
    rw [pagesNeeded] at hroom
    omega
  · have hroom : size.toNat ≤ (size.toNat + 1023) / 1024 * 1024 := by omega
    rw [Nat.ceil_le, div_le_iff₀ (by norm_num)]
    exact_mod_cast hroom

namespace MemSys

variable {ι : Type} [DecidableEq ι]

/-- What `alloc_mem` returns. -/
def returns (s : MemSys ι) (i : ι) (size : Addr) : Addr := (allocMem s.mem size (s.proc i)).1

/-- `s'` is `s` with `n` pages more for process `i`, from the address `ret` on. -/
structure Given (s s' : MemSys ι) (i : ι) (ret : Addr) (n : Nat) : Prop where
  ret_eq : ret = (s.proc i).bp
  bp : (s'.proc i).bp.toNat = (s.proc i).bp.toNat + 1024 * n
  owned : ∃ pages : Finset (Fin numPages), pages.card = n ∧
    (∀ k ∈ pages, (s.mem.memStat k).proc = 0#32 ∧ (s'.mem.memStat k).proc = (s.proc i).pid) ∧
    ∀ k ∉ pages, s'.mem.memStat k = s.mem.memStat k
  translates : ∀ a : Addr, ret.toNat ≤ a.toNat → a.toNat < ret.toNat + 1024 * n →
    (s'.translation i a).isSome

/-- `alloc_mem` gives all the pages, exactly if they are there, or it changes nothing. -/
structure Exact (s : MemSys ι) (i : ι) (size : Addr) : Prop where
  nonzero_iff : s.returns i size ≠ 0#32 ↔ pagesNeeded size ≤ freePageCount s.mem ∧
    (s.proc i).bp.toNat + 1024 * pagesNeeded size ≤ 2 ^ 20
  given : s.returns i size ≠ 0#32 →
    s.Given (s.call (.allocMem i size)) i (s.returns i size) (pagesNeeded size)
  nothing : s.returns i size = 0#32 → s.call (.allocMem i size) = s

variable {procs : Processes ι} {s : MemSys ι} {top : ι → Nat}

/-- The pages asked for are there. -/
def Fits (s : MemSys ι) (size : Addr) (n : Nat) : Prop :=
  pagesNeeded size ≤ freePageCount s.mem ∧ n + pagesNeeded size ≤ 1024

/-- The two outcomes of `alloc_mem`. -/
theorem Inv.outcomes (h : Inv procs s top) (i : ι) (size : Addr) :
    (¬ s.Fits size (top i) ∧ MiniOs.allocMem s.mem size (s.proc i) = (0, s.mem, s.proc i)) ∨
      (s.Fits size (top i) ∧ MiniOs.allocMem s.mem size (s.proc i) = ((s.proc i).bp,
        ⟨s.mem.ram, (allocDone s.mem size (s.proc i)).memStat⟩,
        (allocDone s.mem size (s.proc i)).proc)) := by
  have hnum := pagesFor_toNat size
  by_cases hfits : s.Fits size (top i)
  · refine Or.inr ⟨hfits, allocMem_takes (h.bp i) (h.top_le i) ?_ ?_⟩
    · exact hnum ▸ hfits.1
    · exact hnum ▸ hfits.2
  · refine Or.inl ⟨hfits, allocMem_fails (h.bp i) (h.top_le i) fun hroom => hfits ?_⟩
    exact ⟨hnum ▸ hroom.1, hnum ▸ hroom.2⟩

theorem call_allocDone {i : ι} {size : Addr}
    (h : MiniOs.allocMem s.mem size (s.proc i) = ((s.proc i).bp,
      ⟨s.mem.ram, (allocDone s.mem size (s.proc i)).memStat⟩,
      (allocDone s.mem size (s.proc i)).proc)) :
    s.call (.allocMem i size) = s.grown i (allocDone s.mem size (s.proc i)) := by
  simp [call, h, grown]

/-- What a successful `alloc_mem` has done. -/
theorem Inv.allocDone_spec (h : Inv procs s top) {i : ι} {size : Addr}
    (hfits : s.Fits size (top i)) :
    Linked ⟨0, none, s.mem.memStat,
          { s.proc i with bp := (s.proc i).bp + pagesFor size * pageSize }⟩
        (nextFree s.mem.memStat (pagesNeeded size)) (allocDone s.mem size (s.proc i)) ∧
      Grows ⟨0, none, s.mem.memStat,
          { s.proc i with bp := (s.proc i).bp + pagesFor size * pageSize }⟩
        (allocDone s.mem size (s.proc i)) ∧
      TableOk (allocDone s.mem size (s.proc i)).memStat (procs.pid i)
        (allocDone s.mem size (s.proc i)).proc.pageTable (top i + pagesNeeded size) ∧
      ∀ k (h : k < (nextFree s.mem.memStat (pagesNeeded size)).length),
        lookup (allocDone s.mem size (s.proc i)).proc.pageTable
          (getFirstLv (pageAt (s.proc i).bp k)) (getSecondLv (pageAt (s.proc i).bp k)) =
            some (BitVec.ofNat 32 (nextFree s.mem.memStat (pagesNeeded size))[k].val) := by
  have hspec := @MiniOs.allocDone_spec s.mem size _ _ (h.pid_ne_zero i) (h.top_pos i) (h.bp i)
    (h.ownTable i)
  simp only [pagesFor_toNat] at hspec
  rw [← h.pid i]
  exact hspec hfits.1 hfits.2

theorem Inv.given (h : Inv procs s top) {i : ι} {size : Addr} (hfits : s.Fits size (top i)) :
    s.Given (s.grown i (allocDone s.mem size (s.proc i))) i (s.proc i).bp (pagesNeeded size) := by
  rcases h.allocDone_spec hfits with ⟨hlinked, hgrows, htable, _⟩
  have hnum := pagesFor_toNat size
  have hbp := h.bp i
  refine ⟨rfl, ?_, ⟨(nextFree s.mem.memStat (pagesNeeded size)).toFinset, ?_, fun k hk => ?_,
    fun k hk => ?_⟩, fun a hlow hhigh => ?_⟩
  · have hnext := newBreak_toNat hnum hbp (h.top_le i) (hfits.1.trans (freePageCount_le s.mem))
    rw [grown_proc_self, hgrows.bp, hnext]
    omega
  · rw [List.toFinset_card_of_nodup (nextFree_nodup _ _), nextFree_length hfits.1]
  · rw [List.mem_toFinset] at hk
    refine ⟨mem_nextFree hk, ?_⟩
    rcases List.getElem_of_mem hk with ⟨n, hn, rfl⟩
    exact congrArg MemStat.proc (hlinked.stat n hn)
  · exact hlinked.others k fun hmem => hk (List.mem_toFinset.2 hmem)
  · rw [grown_translation_self, htable.translate_isSome]
    have htop := h.top_pos i
    omega

theorem Inv.exact (h : Inv procs s top) (i : ι) (size : Addr) : s.Exact i size := by
  have hbp := h.bp i
  have htop := h.top_pos i
  have hfits_iff : s.Fits size (top i) ↔ pagesNeeded size ≤ freePageCount s.mem ∧
      (s.proc i).bp.toNat + 1024 * pagesNeeded size ≤ 2 ^ 20 := by
    rw [Fits]
    omega
  rcases h.outcomes i size with ⟨hno, hfail⟩ | ⟨hfits, hok⟩
  · have hzero : s.returns i size = 0#32 := congrArg Prod.fst hfail
    refine ⟨?_, fun hne => absurd hzero hne, fun _ => by simp [MemSys.call, hfail]⟩
    exact iff_of_false (fun hne => hne hzero) (mt hfits_iff.2 hno)
  · have hret : s.returns i size = (s.proc i).bp := congrArg Prod.fst hok
    -- the break is behind the first page, so it is not 0
    have hne : s.returns i size ≠ 0#32 := by
      intro heq
      have hnat := congrArg BitVec.toNat (hret.symm.trans heq)
      rw [hbp] at hnat
      have hzero : (0#32).toNat = 0 := rfl
      omega
    refine ⟨iff_of_true hne (hfits_iff.1 hfits), fun _ => ?_, fun hzero => absurd hzero hne⟩
    rw [call_allocDone hok, hret]
    exact h.given hfits

/-- In every state reached from `init_mem`, for every size. -/
theorem alloc_exact (procs : Processes ι) (cs : List (MemCall ι)) (i : ι) (size : Addr) :
    ((init procs).calls cs).Exact i size := by
  rcases (inv_init procs).calls cs with ⟨top, h⟩
  exact h.exact i size

end MemSys
end MiniOs
