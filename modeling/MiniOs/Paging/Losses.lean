import MiniOs.Paging.Access
import MiniOs.Paging.Frames

/-!
# Losses — the steps that lose frames, and frame ownership along whole runs

A call that violates `LosesNone` loses a frame at once: it is on no free list and no entry holds it.
One that violates `InTable` is undefined.  So every call has an outcome and frames are owned in
every state of a run exactly when no call violates either.
-/

namespace MiniOs
namespace PagingSys

open Lib

/-! ## Losses -/

/-- A growth that finds some frames but too few loses those it found. -/
theorem short_loses {s : PagingSys} {p : ℕ} {c c' : Caller} {incSz : Addr} (h : s.Accounted)
    (hc : s.caller p = some c) (heff : c.GrowEffect incSz c') (hsome : c.mram.freeFpList ≠ [])
    (hshort : c.mram.freeFpList.length < (Caller.growPages incSz).toNat) :
    ¬ (s.setCaller p c').FramesOwned := by
  rcases caller_spec hc with ⟨hp, _, hmram, _⟩
  rcases heff.short hshort with ⟨hmram', hpgd⟩
  have hdir : (s.setCaller p c').directory = s.directory := by
    rw [directory_setCaller hp, hpgd, directory_update_self hc]
  rw [hmram] at hsome hmram'
  -- any frame of the list will do: the list is empty now, and no entry has changed
  rcases List.exists_mem_of_ne_nil _ hsome with ⟨f, hf⟩
  intro howned
  refine not_conserved_of_lost (h.ram.free_lt f hf) List.not_mem_nil
    (h.ram.of_mem_free hf).2 ?_
  have hram := howned.ram
  rw [hdir] at hram
  simpa [setCaller, hmram', Memphy.numfp] using hram

/-- A growth that finds enough frames but maps one whose number does not fit into an entry, or
maps over a page that is online, loses a frame. -/
theorem mapping_loses {s : PagingSys} {p : ℕ} {c c' : Caller} {incSz : Addr} (h : s.Accounted)
    (hc : s.caller p = some c) (heff : c.GrowEffect incSz c')
    (henough : (Caller.growPages incSz).toNat ≤ c.mram.freeFpList.length)
    (hbad : (∀ f ∈ c.mram.freeFpList.take (Caller.growPages incSz).toNat, f < 8192) →
      ∃ i < (Caller.growPages incSz).toNat, pageOnline (c.mm.pgd (c.growPgn i)) = true) :
    ¬ (s.setCaller p c').FramesOwned := by
  rcases caller_spec hc with ⟨hp, hdir, hmram, _⟩
  rcases heff.enough henough with ⟨hmram', hpgd⟩
  have hsplit := List.take_append_drop (Caller.growPages incSz).toNat c.mram.freeFpList
  have hnodup : c.mram.freeFpList.Nodup := hmram ▸ h.ram.nodup
  intro howned
  have hram : Conserved s.mram.numfp (c.mram.freeFpList.drop (Caller.growPages incSz).toNat)
      (holds onlineFrame (Function.update s.directory p (some c'.mm.pgd))) := by
    have hram := howned.ram
    rw [directory_setCaller hp] at hram
    simpa [setCaller, hmram', Memphy.numfp, hmram] using hram
  by_cases hsmall : ∀ f ∈ c.mram.freeFpList.take (Caller.growPages incSz).toNat, f < 8192
  · -- the frame of a page that is mapped again
    rcases hbad hsmall with ⟨i, hi, honline⟩
    have hold : holds onlineFrame s.directory (p, c.growPgn i) =
        some (pagingFpn (c.mm.pgd (c.growPgn i))).toNat := by
      simp [holds, hdir, onlineFrame, honline]
    -- it was held by this entry alone, which names another frame now
    rcases h.ram.of_name hold with ⟨hfree, huniq⟩
    rw [← hmram] at hfree
    refine not_conserved_of_lost (h.ram.names_lt _ _ hold)
      (fun hmem => hfree (List.mem_of_mem_drop hmem)) ?_ hram
    rintro ⟨q, pgn⟩ hname
    by_cases hq : q = p
    · subst hq
      simp only [holds, Function.update_self, Option.bind_some, hpgd] at hname
      have hlen : (c.mram.freeFpList.take (Caller.growPages incSz).toNat).length =
          (Caller.growPages incSz).toNat := List.length_take_of_le henough
      have hcases := mapFrames_cases (c.mm.mmap.vmEnd.setWidth 32) (Caller.growPages incSz)
        (c.mram.freeFpList.take (Caller.growPages incSz).toNat) 0 c.mm.pgd pgn (by omega)
      rcases hcases with ⟨heq, houter⟩ | ⟨f, hf, pte, heq⟩
      · -- the entry was not mapped: it would be the one that was
        rw [heq] at hname
        have hpgn := huniq (q, pgn) (by simpa [holds, hdir] using hname)
        exact houter i (Nat.zero_le i) (by omega) (Prod.mk.inj hpgn).2.symm
      · -- the entry was mapped: its frame is from the free list
        rw [heq, onlineFrame_pteSetFpn pte (hsmall f hf)] at hname
        exact hfree (Option.some.inj hname ▸ List.mem_of_mem_take hf)
    · have hpgn := huniq (q, pgn) (by simpa [holds, Function.update_of_ne hq] using hname)
      exact hq (Prod.mk.inj hpgn).1
  · -- no entry can name a frame from 8192 on
    push Not at hsmall
    rcases hsmall with ⟨f, hf, hlarge⟩
    refine not_conserved_of_lost (h.ram.free_lt f (hmram ▸ List.mem_of_mem_take hf)) ?_ ?_ hram
    · -- it was taken off the list
      intro hmem
      rw [← hsplit] at hnodup
      exact (List.nodup_append.1 hnodup).2.2 f hf f hmem rfl
    · rintro ⟨q, pgn⟩ hname
      rcases Option.bind_eq_some_iff.1 hname with ⟨pgd, _, hpte⟩
      have hlt := onlineFrame_lt hpte
      omega

theorem grown_loses {s : PagingSys} {p : ℕ} {c c' : Caller} {vmaid incSz : Addr}
    (h : s.Accounted) (hc : s.caller p = some c) (hgrown : Grown c vmaid incSz c')
    (hill : ¬ GrowsWell c vmaid incSz) : ¬ (s.setCaller p c').FramesOwned := by
  simp only [GrowsWell, Classical.not_imp, not_or] at hill
  rcases hill with ⟨hmay, _, hsome, hbad⟩
  have heff := hgrown.grows hmay
  by_cases henough : (Caller.growPages incSz).toNat ≤ c.mram.freeFpList.length
  · apply mapping_loses h hc heff henough
    intro hsmall
    by_contra hpages
    push Not at hpages
    exact hbad ⟨henough, hsmall, fun i hi => by simpa using hpages i hi⟩
  · exact short_loses h hc heff hsome (not_le.1 henough)

/-- A page fault marks no entry as swapped out, so the swap frame it takes is lost. -/
theorem fault_loses {s : PagingSys} {p : ℕ} {c c' : Caller} (h : s.Accounted)
    (hc : s.caller p = some c) (hfault : c.FaultEffect c') : ¬ (s.setCaller p c').FramesOwned := by
  rcases caller_spec hc with ⟨hp, _, _, hmswp⟩
  rcases hfault.taken with ⟨swpfpn, rest, hfree, hfree'⟩
  rw [hmswp] at hfree
  intro howned
  -- the first frame of the swap list has left it, and no entry can hold it
  have hmem : swpfpn ∈ s.activeMswp.freeFpList := hfree ▸ List.mem_cons_self ..
  have hnodup := hfree ▸ h.swap.nodup
  have hmaxsz : c'.activeMswp.maxsz = s.activeMswp.maxsz := hmswp ▸ hfault.maxsz
  refine not_conserved_of_lost (f := swpfpn) ?_ ?_ ?_ howned.swap
  · simpa [setCaller, Memphy.numfp, hmaxsz] using h.swap.free_lt swpfpn hmem
  · rw [setCaller, hfree']
    exact (List.nodup_cons.1 hnodup).1
  · rintro ⟨q, pgn⟩ hname
    rw [directory_setCaller hp] at hname
    by_cases hq : q = p
    · subst hq
      simp only [holds, Function.update_self, Option.bind_some] at hname
      have hswapped : pageSwapped (c'.mm.pgd pgn) = false := by
        rw [hfault.swapped, h.swapped hc]
      rw [swapFrame_eq_none.2 hswapped] at hname
      cases hname
    · have hnone := h.noneSwapped (q, pgn)
      simp only [holds, Function.update_of_ne hq] at hname hnone
      rw [hnone] at hname
      cases hname

/-- The frames of a process that ends are not given back. -/
theorem finish_loses {s : PagingSys} {p : ℕ} {c : Caller} (h : s.Accounted)
    (hc : s.caller p = some c) {pgn : Fin pagingMaxPgn}
    (honline : pageOnline (c.mm.pgd pgn) = true) :
    ¬ ({ s with procs := s.procs.set p none } : PagingSys).FramesOwned := by
  have hold : holds onlineFrame s.directory (p, pgn) =
      some (pagingFpn (c.mm.pgd pgn)).toNat := by
    simp [holds, (caller_spec hc).2.1, onlineFrame, honline]
  -- the frame of the page has no other holder than the process that is gone
  rcases h.ram.of_name hold with ⟨hfree, huniq⟩
  intro howned
  refine not_conserved_of_lost (h.ram.names_lt _ _ hold) hfree ?_ howned.ram
  rintro ⟨q, pgn'⟩ hname
  rw [directory_finish] at hname
  by_cases hq : q = p
  · subst hq
    simp [holds] at hname
  · have hpgn := huniq (q, pgn') (by simpa [holds, Function.update_of_ne hq] using hname)
    exact hq (Prod.mk.inj hpgn).1

/-! ## Steps -/

/-- What a step can do, with the condition under which it loses no frame. -/
inductive Effect (s : PagingSys) : Prop → PagingSys → Prop
  | initMm : Effect s True { s with procs := s.procs ++ [some loaded] }
  | quiet {p : ℕ} {c c' : Caller} (hc : s.caller p = some c) (hquiet : c.Quiet c') :
      Effect s True (s.setCaller p c')
  | grown {p : ℕ} {c c' : Caller} {vmaid incSz : Addr} (hc : s.caller p = some c)
      (hgrown : Grown c vmaid incSz c') : Effect s (GrowsWell c vmaid incSz) (s.setCaller p c')
  | access {p : ℕ} {c c' : Caller} {rgid offset : Addr} (hc : s.caller p = some c)
      (hquiet : c.RegionNeedsNoSwap rgid offset → c.Quiet c')
      (hfault : ¬ c.RegionNeedsNoSwap rgid offset → c.FaultEffect c') :
      Effect s (c.RegionNeedsNoSwap rgid offset) (s.setCaller p c')
  | finish {p : ℕ} {c : Caller} (hc : s.caller p = some c) :
      Effect s (∀ pgn, pageOnline (c.mm.pgd pgn) = false) { s with procs := s.procs.set p none }

/-- Every step has one of these effects, and `LosesNone` is its condition. -/
theorem exec_effect {s s' : PagingSys} {op : Op} (hstep : s.exec op = some s') :
    ∃ K, (s.LosesNone op ↔ K) ∧ Effect s K s' := by
  rcases Option.map_eq_some_iff.1 hstep with ⟨⟨ret, s₁⟩, hperform, rfl⟩
  cases op with
  | initMm =>
      obtain ⟨_, rfl⟩ := Prod.mk.inj (Option.some.inj hperform)
      exact ⟨True, Iff.rfl, .initMm⟩
  | liballoc p size regIndex =>
      rcases onProc_eq hperform with ⟨c, c', hc, hcall, rfl⟩
      rcases Option.map_eq_some_iff.1 hcall with ⟨⟨addr, c₁⟩, halloc, heq⟩
      obtain ⟨_, rfl⟩ := Prod.mk.inj heq
      -- `__alloc` grows the area only if the free list is empty
      by_cases hlist : c.mm.mmap.vmFreergList = none
      · exact ⟨_, by simp [LosesNone, hc, hlist], .grown hc (alloc_grown hlist halloc)⟩
      · exact ⟨True, by simp [LosesNone, hc, hlist], .quiet hc (Caller.alloc_quiet hlist halloc)⟩
  | libfree p regIndex =>
      rcases onProc_eq hperform with ⟨c, c', hc, hcall, rfl⟩
      exact ⟨True, Iff.rfl, .quiet hc (Caller.free_quiet hcall)⟩
  | libread p source offset destination =>
      rcases onProc_eq hperform with ⟨c, c', hc, hcall, rfl⟩
      rcases Option.map_eq_some_iff.1 hcall with ⟨⟨⟨val, dest⟩, c₁⟩, hlibread, heq⟩
      obtain ⟨_, rfl⟩ := Prod.mk.inj heq
      rcases Option.map_eq_some_iff.1 hlibread with ⟨⟨⟨val', data⟩, c₂⟩, hread, heq⟩
      obtain ⟨_, rfl⟩ := Prod.mk.inj heq
      rcases (Caller.read_accessed hread).effect with ⟨hquiet, hfault⟩
      exact ⟨_, by simp [LosesNone, hc], .access hc hquiet hfault⟩
  | libwrite p data destination offset =>
      rcases onProc_eq hperform with ⟨c, c', hc, hcall, rfl⟩
      rcases (Caller.write_accessed hcall).effect with ⟨hquiet, hfault⟩
      exact ⟨_, by simp [LosesNone, hc], .access hc hquiet hfault⟩
  | incVmaLimit p vmaid incSz =>
      rcases onProc_eq hperform with ⟨c, c', hc, hcall, rfl⟩
      obtain ⟨_, rfl⟩ := Prod.mk.inj (Option.some.inj hcall)
      exact ⟨_, by simp [LosesNone, hc], .grown hc (incVmaLimit_grown c vmaid incSz)⟩
  | finish p =>
      rcases Option.map_eq_some_iff.1 hperform with ⟨c, hc, heq⟩
      obtain ⟨_, rfl⟩ := Prod.mk.inj heq
      exact ⟨_, by simp [LosesNone, hc], .finish hc⟩

/-- Step lemma: under its condition a step keeps the accounts. -/
theorem Effect.accounted {s s' : PagingSys} {K : Prop} (heff : Effect s K s') (h : s.Accounted)
    (hkeeps : K) : s'.Accounted := by
  cases heff with
  | initMm => exact h.initMm
  | quiet hc hquiet => exact h.quiet hc hquiet
  | grown hc hgrown => exact h.grown hc hgrown hkeeps
  | access hc hquiet _ => exact h.quiet hc (hquiet hkeeps)
  | finish hc => exact h.finish hc hkeeps

/-- Step lemma: against its condition a step loses a frame. -/
theorem Effect.loses {s s' : PagingSys} {K : Prop} (heff : Effect s K s') (h : s.Accounted)
    (hill : ¬ K) : ¬ s'.FramesOwned := by
  cases heff with
  | initMm => exact absurd trivial hill
  | quiet => exact absurd trivial hill
  | grown hc hgrown => exact grown_loses h hc hgrown hill
  | access hc _ hfault => exact fault_loses h hc (hfault hill)
  | finish hc =>
      -- some page of the process is online
      simp only [not_forall, Bool.not_eq_false] at hill
      rcases hill with ⟨pgn, honline⟩
      exact finish_loses h hc honline

/-! ## Outcomes -/

/-- A call of process `p` has an outcome if the function called has one. -/
theorem exec_isSome_iff {s : PagingSys} {op : Op} {p : ℕ} {c : Caller}
    {f : Caller → Option (Int × Caller)} (hc : s.caller p = some c)
    (hop : s.perform op = s.onProc p f) : (s.exec op).isSome ↔ (f c).isSome := by
  rw [exec, Option.isSome_map, hop, onProc, hc, Option.bind_some, Option.isSome_map]

/-- A page that is present is on the device, so without a page fault nothing leaves an array. -/
theorem Accounted.accessInBounds {s : PagingSys} {p : ℕ} {c : Caller} (h : s.Accounted)
    (hc : s.caller p = some c) {addr : Addr} (hno : c.NeedsNoSwap (pagingPgn addr)) :
    c.AccessInBounds addr := by
  rcases caller_spec hc with ⟨_, hdir, hmram, _⟩
  unfold Caller.AccessInBounds Caller.PageInBounds Caller.frameUsed
  cases hpresent : pagingPagePresent (c.mm.pgd (pagingPgn addr)) with
  | true =>
      have honline : pageOnline (c.mm.pgd (pagingPgn addr)) = true := by
        simp [pageOnline, hpresent, h.swapped hc]
      have hframe : (pagingFpn (c.mm.pgd (pagingPgn addr))).toNat < c.mram.numfp := by
        rw [hmram]
        exact h.ram.names_lt (p, pagingPgn addr) _ (by simp [holds, hdir, onlineFrame, honline])
      have hsmall := pagingFpn_lt (c.mm.pgd (pagingPgn addr))
      have hoff := pagingOffst_toNat addr
      have hsize : pagingPagesz.toNat = 256 := rfl
      -- frame and offset together are a small address of the device
      have hphy : (Caller.phyaddr (pagingFpn (c.mm.pgd (pagingPgn addr))) addr).toNat =
          (pagingFpn (c.mm.pgd (pagingPgn addr))).toNat * 256 + addr.toNat % 256 := by
        rw [Caller.phyaddr, BitVec.toNat_add, BitVec.toNat_mul, hsize, hoff]
        omega
      refine ⟨Or.inl rfl, fun fpn hfpn _ => ?_⟩
      obtain rfl := Option.some.inj hfpn
      unfold Memphy.numfp at hframe
      rw [Memphy.InBounds, BitVec.toInt_eq_toNat_of_lt (by omega), hphy]
      omega
  | false =>
      rcases hno with hyes | hfifo | hfree
      · rw [hpresent] at hyes
        cases hyes
      · simp [hfifo]
      · cases hfifo : c.mm.fifoPgn <;> simp [hfree]

theorem Accounted.regionAll {s : PagingSys} {p : ℕ} {c : Caller} {rgid offset : Addr}
    (h : s.Accounted) (hc : s.caller p = some c) (htable : rgid ≠ 30#32)
    (hno : c.RegionNeedsNoSwap rgid offset) : c.RegionAll Caller.AccessInBounds rgid offset := by
  unfold Caller.RegionAll
  cases hentry : getSymrgByid rgid with
  | null => trivial
  | pastEnd => exact absurd (eq_of_pastEnd hentry) htable
  | entry i => exact h.accessInBounds hc (hno i hentry)

/-- A call under the condition has an outcome. -/
theorem Accounted.answers {s : PagingSys} {op : Op} (h : s.Accounted) (hlists : s.ShortLists)
    (hkeeps : s.Keeps op) : Answers exec Calls s op := by
  intro hcalls
  rcases hkeeps with ⟨htable, hloses⟩
  cases op with
  | initMm => rfl
  | liballoc p size regIndex =>
      rcases hcalls with ⟨c, hc⟩
      exact (exec_isSome_iff hc rfl).2
        ((Caller.liballoc_isSome_iff (hlists.caller hc) _ _).2 (htable c hc))
  | libfree p regIndex =>
      rcases hcalls with ⟨c, hc⟩
      exact (exec_isSome_iff hc rfl).2 ((c.free_isSome_iff regIndex).2 (htable c hc))
  | libread p source offset destination =>
      rcases hcalls with ⟨c, hc⟩
      refine (exec_isSome_iff hc rfl).2 ?_
      rw [Option.isSome_map]
      exact (c.libread_isSome_iff _ _ _).2 (h.regionAll hc (htable c hc) (hloses c hc))
  | libwrite p data destination offset =>
      rcases hcalls with ⟨c, hc⟩
      exact (exec_isSome_iff hc rfl).2
        ((c.libwrite_isSome_iff _ _ _).2 (h.regionAll hc (htable c hc) (hloses c hc)))
  | incVmaLimit p vmaid incSz =>
      rcases hcalls with ⟨c, hc⟩
      exact (exec_isSome_iff hc rfl).2 rfl
  | finish p =>
      rcases hcalls with ⟨c, hc⟩
      simp [exec, perform, hc]

theorem ne_thirty_of_regionAll {P : Caller → Addr → Prop} {c : Caller} {rgid offset : Addr}
    (h : c.RegionAll P rgid offset) : rgid ≠ 30#32 := by
  rintro rfl
  exact h

/-- A call that has an outcome stays in the region table. -/
theorem inTable_of_answers {s : PagingSys} {op : Op} (hlists : s.ShortLists)
    (hanswers : Answers exec Calls s op) : s.InTable op := by
  cases op with
  | initMm | incVmaLimit _ _ _ | finish _ => trivial
  | liballoc p size regIndex =>
      intro c hc
      have halloc := (exec_isSome_iff hc rfl).1 (hanswers ⟨c, hc⟩)
      exact (Caller.liballoc_isSome_iff (hlists.caller hc) _ _).1 halloc
  | libfree p regIndex =>
      intro c hc
      have hfree := (exec_isSome_iff hc rfl).1 (hanswers ⟨c, hc⟩)
      exact (c.free_isSome_iff regIndex).1 hfree
  | libread p source offset destination =>
      intro c hc
      have hread := (exec_isSome_iff hc rfl).1 (hanswers ⟨c, hc⟩)
      rw [Option.isSome_map] at hread
      exact ne_thirty_of_regionAll ((c.libread_isSome_iff _ _ _).1 hread)
  | libwrite p data destination offset =>
      intro c hc
      have hwrite := (exec_isSome_iff hc rfl).1 (hanswers ⟨c, hc⟩)
      exact ne_thirty_of_regionAll ((c.libwrite_isSome_iff _ _ _).1 hwrite)

/-- A call that nobody makes loses nothing. -/
theorem losesNone_of_not_calls {s : PagingSys} {op : Op} (hno : ¬ s.Calls op) :
    s.LosesNone op := by
  cases op with
  | initMm => exact trivial
  | libfree _ _ => exact trivial
  | liballoc _ _ _ | libread _ _ _ _ | libwrite _ _ _ _ | incVmaLimit _ _ _ | finish _ =>
      exact fun c hc => absurd ⟨c, hc⟩ hno

/-! ## Runs -/

/-- Every call of a run has an outcome and every frame has its one owner in every state exactly when
each call meets the condition. -/
theorem framesOwned_iff (ramsz swpsz : Nat) (ramflg swpflg : Bool) (ops : List Op) :
    AllStates FramesOwned (start ramsz swpsz ramflg swpflg)
          (traceFn exec (start ramsz swpsz ramflg swpflg) ops) ∧
        Along exec (Answers exec Calls) (start ramsz swpsz ramflg swpflg) ops ↔
      Along exec Keeps (start ramsz swpsz ramflg swpflg) ops := by
  apply exact_along (I := fun s => s.Accounted ∧ s.ShortLists)
  · exact fun h => h.1.framesOwned
  · exact fun h hkeeps => h.1.answers h.2 hkeeps
  · intro s op s' h hstep hkeeps
    rcases exec_effect hstep with ⟨K, hK, heff⟩
    exact ⟨heff.accounted h.1 (hK.1 hkeeps.2), h.2.exec hstep⟩
  · intro s op h hanswers hill
    -- the call is defined, so it stays in the table and must lose a frame
    have htable := inTable_of_answers h.2 hanswers
    have hloses : ¬ s.LosesNone op := fun hnone => hill ⟨htable, hnone⟩
    have hcalls : s.Calls op := by
      by_contra hno
      exact hloses (losesNone_of_not_calls hno)
    rcases Option.isSome_iff_exists.1 (hanswers hcalls) with ⟨s', hstep⟩
    rcases exec_effect hstep with ⟨K, hK, heff⟩
    exact ⟨s', hstep, heff.loses h.1 fun hkeeps => hloses (hK.2 hkeeps)⟩
  · exact ⟨start_accounted ramsz swpsz ramflg swpflg, fun pm hpm => absurd hpm List.not_mem_nil⟩

/-- One process grows by a page and ends: frame 0 of RAM is on no list and in no page table. -/
theorem finished_keeps_frame :
    ¬ AllStates FramesOwned (start 256 256 true true)
        (traceFn exec (start 256 256 true true)
          [.initMm, .incVmaLimit 0 0 256#32, .finish 0]) := by
  rintro ⟨_, howned⟩
  have hend : ∃ x ∈ traceFn exec (start 256 256 true true)
      [.initMm, .incVmaLimit 0 0 256#32, .finish 0],
      x.2.mram.freeFpList = [] ∧ x.2.mram.maxsz = 256 ∧ ∀ pm ∈ x.2.procs, pm.isNone := by
    decide
  rcases hend with ⟨⟨op, s⟩, hmem, hfree, hmaxsz, hfinished⟩
  dsimp only at hfree hmaxsz hfinished
  refine not_conserved_of_lost (f := 0) ?_ ?_ ?_ (howned _ hmem).ram
  · simp [Memphy.numfp, hmaxsz]
  · simp [hfree]
  · rintro ⟨p, pgn⟩ hname
    rcases Option.bind_eq_some_iff.1 hname with ⟨pgd, hpgd, _⟩
    rcases Option.map_eq_some_iff.1 hpgd with ⟨pm, hpm, _⟩
    have hnone := hfinished (some pm) (List.mem_of_getElem? (Option.join_eq_some_iff.1 hpm))
    cases hnone

end PagingSys
end MiniOs
