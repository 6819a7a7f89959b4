import MiniOs.Paging.Losses

/-!
# Exhaustion — frames are taken and never given back

No call puts a frame back on a free list, and the end of a process does not either.  So RAM serves
as many mapped pages, and the swap device as many page faults that succeed, as it has frames at the
start: over the whole run and for all processes together.
-/

namespace MiniOs
namespace PagingSys

open Lib

/-! ## What a call takes -/

instance (c : Caller) (vmaid : Addr) : Decidable (c.MayGrow vmaid) :=
  inferInstanceAs (Decidable (_ ∧ _))

/-- The pages that a growth maps: all of them or none. -/
def mappedPages (c : Caller) (vmaid incSz : Addr) : ℕ :=
  if c.MayGrow vmaid ∧ (Caller.growPages incSz).toNat ≤ c.mram.freeFpList.length then
    (Caller.growPages incSz).toNat
  else 0

/-- The pages that a call maps. -/
def mapped (s : PagingSys) : Op → ℕ
  | .liballoc p size _ =>
      match s.caller p with
      | some c =>
          if c.mm.mmap.vmFreergList = none then mappedPages c 0 (pagingPageAlignsz size) else 0
      | none => 0
  | .incVmaLimit p vmaid incSz =>
      match s.caller p with
      | some c => mappedPages c vmaid incSz
      | none => 0
  | .initMm | .libfree _ _ | .libread _ _ _ _ | .libwrite _ _ _ _ | .finish _ => 0

/-- The frames that a growth takes: when there are too few, those that are left. -/
def takenPages (c : Caller) (vmaid incSz : Addr) : ℕ :=
  if c.MayGrow vmaid then min (Caller.growPages incSz).toNat c.mram.freeFpList.length else 0

/-- The frames of RAM that a call takes. -/
def taken (s : PagingSys) : Op → ℕ
  | .liballoc p size _ =>
      match s.caller p with
      | some c =>
          if c.mm.mmap.vmFreergList = none then takenPages c 0 (pagingPageAlignsz size) else 0
      | none => 0
  | .incVmaLimit p vmaid incSz =>
      match s.caller p with
      | some c => takenPages c vmaid incSz
      | none => 0
  | .initMm | .libfree _ _ | .libread _ _ _ _ | .libwrite _ _ _ _ | .finish _ => 0

theorem mappedPages_le (c : Caller) (vmaid incSz : Addr) :
    mappedPages c vmaid incSz ≤ takenPages c vmaid incSz := by
  unfold mappedPages takenPages
  split
  · rename_i h
    rw [if_pos h.1]
    exact Nat.le_min.2 ⟨Nat.le_refl _, h.2⟩
  · exact Nat.zero_le _

theorem mapped_le_taken (s : PagingSys) (op : Op) : mapped s op ≤ taken s op := by
  cases op with
  | liballoc p size regIndex =>
      simp only [mapped, taken]
      cases s.caller p with
      | none => exact Nat.le_refl _
      | some c =>
          dsimp only
          split
          · exact mappedPages_le _ _ _
          · exact Nat.le_refl _
  | incVmaLimit p vmaid incSz =>
      simp only [mapped, taken]
      cases s.caller p with
      | none => exact Nat.le_refl _
      | some c => exact mappedPages_le _ _ _
  | _ => exact Nat.le_refl _

/-- An access that does not find its page and takes a swap frame for it. -/
def accessFault (c : Caller) (rgid offset : Addr) : ℕ :=
  match getSymrgByid rgid with
  | .null | .pastEnd => 0
  | .entry i =>
      if pagingPagePresent (c.mm.pgd (pagingPgn (c.rgAddr i offset))) = true ∨ c.mm.fifoPgn = [] ∨
          c.activeMswp.freeFpList = [] then 0
      else 1

/-- The page faults of a call that take a swap frame. -/
def faults (s : PagingSys) : Op → ℕ
  | .libread p rgid offset _ | .libwrite p _ rgid offset =>
      match s.caller p with
      | some c => accessFault c rgid offset
      | none => 0
  | .initMm | .liballoc _ _ _ | .libfree _ _ | .incVmaLimit _ _ _ | .finish _ => 0

theorem accessFault_of_noSwap {c : Caller} {rgid offset : Addr}
    (h : c.RegionNeedsNoSwap rgid offset) : accessFault c rgid offset = 0 := by
  unfold accessFault
  split
  · rfl
  · rfl
  · rename_i i hentry
    exact if_pos (h i hentry)

theorem accessFault_of_swap {c : Caller} {rgid offset : Addr}
    (h : ¬ c.RegionNeedsNoSwap rgid offset) : accessFault c rgid offset = 1 := by
  unfold accessFault
  split
  · rename_i hnull
    exact absurd (Caller.regionNeedsNoSwap_null hnull) h
  · rename_i hend
    refine absurd (fun i hi => ?_) h
    rw [hend] at hi
    cases hi
  · rename_i i hentry
    exact if_neg fun hno => h ((Caller.regionNeedsNoSwap_entry hentry).2 hno)

/-! ## Steps -/

/-- What a step takes from the front of the free lists: `n` frames of RAM and `m` swap frames. -/
structure Takes (n m : ℕ) (s s' : PagingSys) : Prop where
  ram : n ≤ s.mram.freeFpList.length ∧ s'.mram.freeFpList = s.mram.freeFpList.drop n
  swap : m ≤ s.activeMswp.freeFpList.length ∧
    s'.activeMswp.freeFpList = s.activeMswp.freeFpList.drop m

variable {s s' : PagingSys} {p : ℕ} {c c' : Caller}

theorem takes_nothing (hram : s'.mram.freeFpList = s.mram.freeFpList)
    (hswap : s'.activeMswp.freeFpList = s.activeMswp.freeFpList) : Takes 0 0 s s' :=
  ⟨⟨Nat.zero_le _, hram⟩, Nat.zero_le _, hswap⟩

theorem takes_quiet (hc : s.caller p = some c) (hquiet : c.Quiet c') :
    Takes 0 0 s (s.setCaller p c') := by
  rcases caller_spec hc with ⟨_, _, hram, hswap⟩
  exact takes_nothing (hram ▸ hquiet.mram.freeFpList) (hswap ▸ hquiet.swap.freeFpList)

theorem takes_grown {vmaid incSz : Addr} (hc : s.caller p = some c)
    (hgrown : Grown c vmaid incSz c') :
    Takes (takenPages c vmaid incSz) 0 s (s.setCaller p c') := by
  rcases caller_spec hc with ⟨_, _, hram, hswap⟩
  unfold takenPages
  by_cases hmay : c.MayGrow vmaid
  · have heff := hgrown.grows hmay
    have hkept : (s.setCaller p c').activeMswp.freeFpList = s.activeMswp.freeFpList :=
      congrArg Memphy.freeFpList (heff.swap.trans hswap)
    rw [if_pos hmay]
    by_cases henough : (Caller.growPages incSz).toNat ≤ c.mram.freeFpList.length
    · rw [Nat.min_eq_left henough]
      refine ⟨⟨hram ▸ henough, ?_⟩, Nat.zero_le _, hkept⟩
      rw [← hram]
      exact congrArg Memphy.freeFpList (heff.enough henough).1
    · -- the frames of a growth that fails are all gone
      rw [Nat.min_eq_right (not_le.1 henough).le]
      refine ⟨⟨hram ▸ Nat.le_refl _, ?_⟩, Nat.zero_le _, hkept⟩
      rw [hram, List.drop_length]
      exact congrArg Memphy.freeFpList (heff.short (not_le.1 henough)).1
  · rw [if_neg hmay]
    exact takes_quiet hc (hgrown.refused hmay)

theorem takes_access {rgid offset : Addr} (hc : s.caller p = some c)
    (hquiet : c.RegionNeedsNoSwap rgid offset → c.Quiet c')
    (hfault : ¬ c.RegionNeedsNoSwap rgid offset → c.FaultEffect c') :
    Takes 0 (accessFault c rgid offset) s (s.setCaller p c') := by
  by_cases hno : c.RegionNeedsNoSwap rgid offset
  · rw [accessFault_of_noSwap hno]
    exact takes_quiet hc (hquiet hno)
  · rw [accessFault_of_swap hno]
    rcases caller_spec hc with ⟨_, _, hram, hswap⟩
    rcases hfault hno with ⟨hframe, ⟨swpfpn, rest, hfree, hrest⟩, _, _⟩
    rw [hswap] at hfree
    refine ⟨⟨Nat.zero_le _, hram ▸ hframe.freeFpList⟩, ?_, ?_⟩
    · simp [hfree]
    · rw [hfree]
      exact hrest

/-- Step lemma. -/
theorem exec_takes {op : Op} (hexec : s.exec op = some s') :
    Takes (taken s op) (faults s op) s s' := by
  rcases Option.map_eq_some_iff.1 hexec with ⟨⟨ret, s₁⟩, hperform, rfl⟩
  cases op with
  | initMm =>
      obtain ⟨_, rfl⟩ := Prod.mk.inj (Option.some.inj hperform)
      exact takes_nothing rfl rfl
  | liballoc p size regIndex =>
      rcases onProc_eq hperform with ⟨c, c', hc, hcall, rfl⟩
      rcases Option.map_eq_some_iff.1 hcall with ⟨⟨addr, c₁⟩, halloc, heq⟩
      obtain ⟨_, rfl⟩ := Prod.mk.inj heq
      simp only [taken, faults, hc]
      split
      · rename_i hlist
        exact takes_grown hc (alloc_grown hlist halloc)
      · rename_i hlist
        exact takes_quiet hc (Caller.alloc_quiet hlist halloc)
  | libfree p regIndex =>
      rcases onProc_eq hperform with ⟨c, c', hc, hcall, rfl⟩
      exact takes_quiet hc (Caller.free_quiet hcall)
  | libread p source offset destination =>
      rcases onProc_eq hperform with ⟨c, c', hc, hcall, rfl⟩
      rcases Option.map_eq_some_iff.1 hcall with ⟨⟨⟨val, dest⟩, c₁⟩, hlibread, heq⟩
      obtain ⟨_, rfl⟩ := Prod.mk.inj heq
      rcases Option.map_eq_some_iff.1 hlibread with ⟨⟨⟨val', data⟩, c₂⟩, hread, heq⟩
      obtain ⟨_, rfl⟩ := Prod.mk.inj heq
      rcases (Caller.read_accessed hread).effect with ⟨hquiet, hfault⟩
      simp only [taken, faults, hc]
      exact takes_access hc hquiet hfault
  | libwrite p data destination offset =>
      rcases onProc_eq hperform with ⟨c, c', hc, hcall, rfl⟩
      rcases (Caller.write_accessed hcall).effect with ⟨hquiet, hfault⟩
      simp only [taken, faults, hc]
      exact takes_access hc hquiet hfault
  | incVmaLimit p vmaid incSz =>
      rcases onProc_eq hperform with ⟨c, c', hc, hcall, rfl⟩
      obtain ⟨_, rfl⟩ := Prod.mk.inj (Option.some.inj hcall)
      simp only [taken, faults, hc]
      exact takes_grown hc (incVmaLimit_grown c vmaid incSz)
  | finish p =>
      rcases Option.map_eq_some_iff.1 hperform with ⟨c, hc, heq⟩
      obtain ⟨_, rfl⟩ := Prod.mk.inj heq
      exact takes_nothing rfl rfl

/-! ## Runs -/

/-- The free lists of a later state are what is left of those of an earlier one. -/
structure Shrunk (s t : PagingSys) : Prop where
  ram : t.mram.freeFpList <:+ s.mram.freeFpList
  swap : t.activeMswp.freeFpList <:+ s.activeMswp.freeFpList

theorem Takes.shrunk {n m : ℕ} (h : Takes n m s s') : Shrunk s s' := by
  refine ⟨?_, ?_⟩
  · rw [h.ram.2]
    exact List.drop_suffix n _
  · rw [h.swap.2]
    exact List.drop_suffix m _

theorem Takes.length_ram {n m : ℕ} (h : Takes n m s s') :
    s'.mram.freeFpList.length + n = s.mram.freeFpList.length := by
  rw [h.ram.2, List.length_drop]
  exact Nat.sub_add_cancel h.ram.1

theorem Takes.length_swap {n m : ℕ} (h : Takes n m s s') :
    s'.activeMswp.freeFpList.length + m = s.activeMswp.freeFpList.length := by
  rw [h.swap.2, List.length_drop]
  exact Nat.sub_add_cancel h.swap.1

/-- The frames that are left at the end of a run of devices with `numfp` and `numswp` frames. -/
structure Spent (numfp numswp : ℕ) (s : PagingSys) (tr : List (Op × PagingSys)) (t : PagingSys) :
    Prop where
  /-- more frames may be gone than pages were mapped: those of the growths that failed -/
  ram : t.mram.freeFpList.length + stepSum mapped s tr ≤ numfp
  swap : t.activeMswp.freeFpList.length + stepSum faults s tr = numswp

/-- For every size of RAM and swap, every number of processes and every interleaving of their calls
up to the first undefined one, whether processes end or not: a frame that has been taken never
becomes free again, over the whole run no more pages are mapped than RAM has frames, and every page
fault that finds a victim and a swap frame uses up the latter. -/
theorem frames_spent (ramsz swpsz : Nat) (ramflg swpflg : Bool) (ops : List Op) :
    ∃ t, Run (StepOf exec) (start ramsz swpsz ramflg swpflg)
        (traceFn exec (start ramsz swpsz ramflg swpflg) ops) t ∧
      (start ramsz swpsz ramflg swpflg ::
        (traceFn exec (start ramsz swpsz ramflg swpflg) ops).map Prod.snd).Pairwise Shrunk ∧
      Spent (ramsz / 256) (swpsz / 256) (start ramsz swpsz ramflg swpflg)
        (traceFn exec (start ramsz swpsz ramflg swpflg) ops) t := by
  rcases run_traceFn exec (start ramsz swpsz ramflg swpflg) ops with ⟨t, hrun⟩
  have hsize : ∀ (size : ℕ) (flg : Bool),
      (Memphy.create size flg).freeFpList.length = size / 256 := by
    intro size flg
    rw [Memphy.create_freeFpList, List.length_range]
  have hshrunk := hrun.pairwise (R := Shrunk)
    (fun h h' => ⟨h'.ram.trans h.ram, h'.swap.trans h.swap⟩) fun hexec => (exec_takes hexec).shrunk
  have hram := hrun.potential (I := fun _ => True) (fun s => s.mram.freeFpList.length)
    (fun _ => 0) mapped (fun _ _ => 0) 0 (fun _ _ => trivial)
    (fun {s a t} _ hexec => by
      have htakes := (exec_takes hexec).length_ram
      have hmapped := mapped_le_taken s a
      omega) trivial
  have hswap := hrun.balance (fun s => s.activeMswp.freeFpList.length) faults
    fun hexec => (exec_takes hexec).length_swap
  refine ⟨t, hrun, hshrunk, ?_, ?_⟩
  · have hstart : (start ramsz swpsz ramflg swpflg).mram.freeFpList.length = ramsz / 256 :=
      hsize ramsz ramflg
    simp only [stepSum_zero, zero_mul, add_zero, hstart] at hram
    exact hram
  · exact hswap.trans (hsize swpsz swpflg)

end PagingSys
end MiniOs
