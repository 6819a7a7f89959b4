import MiniOs.Lib.Ownership
import MiniOs.Paging.Outcomes

/-!
# Frames — who owns the frames of RAM and swap

The holders of RAM frames are the online entries of the unfinished processes, those of swap frames
the swapped-out ones.  Frames are lost by a growth that finds too few of them, by one that maps a
page twice or a frame beyond the thirteen bits of an entry, by every page fault that takes a swap
frame, and by the end of a process that still has pages; nothing else loses any.  A call with a
region identifier outside the table may overwrite an entry, so it has no outcome here.
-/

namespace MiniOs
namespace PagingSys

open Lib

/-! ## Holders -/

/-- The frame that an entry holds, if it is online. -/
def onlineFrame (pte : Addr) : Option ℕ :=
  if pageOnline pte then some (pagingFpn pte).toNat else none

/-- The swap frame that an entry holds, if it is swapped out. -/
def swapFrame (pte : Addr) : Option ℕ :=
  if pageSwapped pte then some (pagingSwp pte).toNat else none

/-- The frames that the entries of all page directories hold; an entry is a process and a page. -/
def holds (frame : Addr → Option ℕ) (dirs : ℕ → Option (Fin pagingMaxPgn → Addr)) :
    ℕ × Fin pagingMaxPgn → Option ℕ :=
  fun k => (dirs k.1).bind fun pgd => frame (pgd k.2)

/-- Every frame of RAM is on the free list once or named by one online entry of one unfinished
process, and every swap frame is on its free list once or named by one swapped-out entry. -/
structure FramesOwned (s : PagingSys) : Prop where
  ram : Conserved s.mram.numfp s.mram.freeFpList (holds onlineFrame s.directory)
  swap : Conserved s.activeMswp.numfp s.activeMswp.freeFpList (holds swapFrame s.directory)

/-- The growth finds no frame at all, or all it needs, each with a number that fits into an entry,
for pages that are not online. -/
def GrowsWell (c : Caller) (vmaid incSz : Addr) : Prop :=
  c.MayGrow vmaid → 0 < Caller.growPages incSz → c.mram.freeFpList = [] ∨
    ((Caller.growPages incSz).toNat ≤ c.mram.freeFpList.length ∧
      (∀ f ∈ c.mram.freeFpList.take (Caller.growPages incSz).toNat, f < 8192) ∧
      ∀ i < (Caller.growPages incSz).toNat, pageOnline (c.mm.pgd (c.growPgn i)) = false)

/-- What a call writes to and reads from as a region is an entry of the region table. -/
def InTable (s : PagingSys) : Op → Prop
  | .liballoc p size rgid => ∀ c, s.caller p = some c → c.AllocInTable rgid size
  | .libfree p rgid | .libread p rgid _ _ | .libwrite p _ rgid _ => ∀ c, s.caller p = some c →
      rgid ≠ 30#32
  | .initMm | .incVmaLimit _ _ _ | .finish _ => True

/-- The condition on a call under which no frame is lost. -/
def LosesNone (s : PagingSys) : Op → Prop
  | .initMm | .libfree _ _ => True
  | .liballoc p size _ => ∀ c, s.caller p = some c → c.mm.mmap.vmFreergList = none →
      GrowsWell c 0 (pagingPageAlignsz size)
  | .libread p rgid offset _ | .libwrite p _ rgid offset => ∀ c, s.caller p = some c →
      c.RegionNeedsNoSwap rgid offset
  | .incVmaLimit p vmaid incSz => ∀ c, s.caller p = some c → GrowsWell c vmaid incSz
  | .finish p => ∀ c, s.caller p = some c → ∀ pgn, pageOnline (c.mm.pgd pgn) = false

/-- The condition on a call. -/
def Keeps (s : PagingSys) (op : Op) : Prop := s.InTable op ∧ s.LosesNone op

/-- The invariant: both devices are accounted for, and no entry is swapped out. -/
structure Accounted (s : PagingSys) : Prop where
  ram : Ledger s.mram.numfp s.mram.freeFpList (holds onlineFrame s.directory)
  swap : Ledger s.activeMswp.numfp s.activeMswp.freeFpList (holds swapFrame s.directory)
  noneSwapped : ∀ k, holds swapFrame s.directory k = none

theorem Accounted.framesOwned {s : PagingSys} (h : s.Accounted) : s.FramesOwned :=
  ⟨h.ram.conserved, h.swap.conserved⟩

theorem start_accounted (ramsz swpsz : Nat) (ramflg swpflg : Bool) :
    (start ramsz swpsz ramflg swpflg).Accounted := by
  have hfree : ∀ (size : ℕ) (flg : Bool),
      Ledger (Memphy.create size flg).numfp (Memphy.create size flg).freeFpList
        (fun _ : ℕ × Fin pagingMaxPgn => none) := by
    intro size flg
    rw [Memphy.create_freeFpList, Memphy.numfp, Memphy.create_maxsz]
    exact ledger_range (size / 256)
  -- without a process there is no holder
  exact ⟨hfree ramsz ramflg, hfree swpsz swpflg, fun _ => rfl⟩

theorem onlineFrame_eq_some {pte : Addr} {f : ℕ} (h : onlineFrame pte = some f) :
    pageOnline pte = true ∧ (pagingFpn pte).toNat = f := by
  unfold onlineFrame at h
  split at h
  · rename_i honline
    exact ⟨honline, Option.some.inj h⟩
  · cases h

theorem swapFrame_eq_none {pte : Addr} : swapFrame pte = none ↔ pageSwapped pte = false := by
  simp [swapFrame]

theorem onlineFrame_lt {pte : Addr} {f : ℕ} (h : onlineFrame pte = some f) : f < 8192 :=
  (onlineFrame_eq_some h).2 ▸ pagingFpn_lt pte

/-- An entry made by `pte_set_fpn` holds its frame. -/
theorem onlineFrame_pteSetFpn (pte : Addr) {f : ℕ} (h : f < 8192) :
    onlineFrame (pteSetFpn pte (BitVec.ofNat 32 f)) = some f := by
  have hfpn := pagingFpn_pteSetFpn pte (BitVec.ofNat 32 f)
  have hnat : (BitVec.ofNat 32 f).toNat % 8192 = f := by
    rw [BitVec.toNat_ofNat]
    omega
  rw [hnat] at hfpn
  simp [onlineFrame, pageOnline_pteSetFpn, hfpn]

variable {frame : Addr → Option ℕ} {dirs : ℕ → Option (Fin pagingMaxPgn → Addr)}

/-- Setting one entry changes what that entry holds. -/
theorem holds_update (p : ℕ) (pgd : Fin pagingMaxPgn → Addr) (pgn : Fin pagingMaxPgn)
    (pte : Addr) :
    holds frame (Function.update dirs p (some (Function.update pgd pgn pte))) =
      Function.update (holds frame (Function.update dirs p (some pgd))) (p, pgn) (frame pte) := by
  funext ⟨q, m⟩
  -- only the entry of process `p` and page `pgn` can differ
  by_cases hq : q = p
  · subst hq
    by_cases hm : m = pgn
    · subst hm
      simp [holds]
    · have hne : (q, m) ≠ (q, pgn) := fun heq => hm (Prod.mk.inj heq).2
      simp [holds, Function.update_of_ne hm, Function.update_of_ne hne]
  · have hne : (q, m) ≠ (p, pgn) := fun heq => hq (Prod.mk.inj heq).1
    simp [holds, Function.update_of_ne hq, Function.update_of_ne hne]

/-! ## Mapping -/

/-- The pages of one growth are different. -/
theorem pagingPgn_injective {addr : Addr} {i j : ℕ} (hi : i < 8192) (hj : j < 8192)
    (h : pagingPgn (addr + BitVec.ofNat 32 i * pagingPagesz) =
      pagingPgn (addr + BitVec.ofNat 32 j * pagingPagesz)) : i = j := by
  have hval := congrArg Fin.val h
  have hsize : pagingPagesz.toNat = 256 := rfl
  have haddr := addr.isLt
  simp only [pagingPgn_val, BitVec.toNat_add, BitVec.toNat_mul, BitVec.toNat_ofNat, hsize] at hval
  omega

/-- Run lemma for the mapping loop: frames from the free list go to pages that are not online. -/
theorem ledger_mapFrames {m p : ℕ} {free : List ℕ} (addr : Addr) (pgnum : ℤ) :
    ∀ (frames : List ℕ) (i : ℕ) (pgd : Fin pagingMaxPgn → Addr),
      Ledger m (frames ++ free) (holds onlineFrame (Function.update dirs p (some pgd))) →
      (∀ f ∈ frames, f < 8192) → i + frames.length ≤ 8192 → ((i + frames.length : ℕ) : ℤ) ≤ pgnum →
      (∀ j, i ≤ j → j < i + frames.length →
        pageOnline (pgd (pagingPgn (addr + BitVec.ofNat 32 j * pagingPagesz))) = false) →
      Ledger m free (holds onlineFrame
        (Function.update dirs p (some (Mm.mapFrames addr pgnum i frames pgd)))) := by
  intro frames
  induction frames with
  | nil =>
      intro i pgd h _ _ _ _
      exact h
  | cons f frames ih =>
      intro i pgd h hsmall hlen hnum hpages
      simp only [List.length_cons] at hlen hnum hpages
      have hi : (i : ℤ) < pgnum := by omega
      simp only [Mm.mapFrames, hi, if_true]
      have hnone : holds onlineFrame (Function.update dirs p (some pgd))
          (p, pagingPgn (addr + BitVec.ofNat 32 i * pagingPagesz)) = none := by
        simp [holds, onlineFrame, hpages i (Nat.le_refl i) (by omega)]
      -- the first frame of the list goes to the first page, which held none
      have hassign := Ledger.assign h hnone
      rw [← onlineFrame_pteSetFpn (pgd (pagingPgn (addr + BitVec.ofNat 32 i * pagingPagesz)))
        (hsmall f (List.mem_cons_self ..)), ← holds_update] at hassign
      refine ih (i + 1) _ hassign (fun g hg => hsmall g (List.mem_cons_of_mem f hg)) (by omega)
        (by omega) fun j hij hj => ?_
      -- the pages still to come are other ones, so they are not online either
      have hne : pagingPgn (addr + BitVec.ofNat 32 j * pagingPagesz) ≠
          pagingPgn (addr + BitVec.ofNat 32 i * pagingPagesz) := by
        intro heq
        have := pagingPgn_injective (by omega) (by omega) heq
        omega
      rw [Function.update_of_ne hne]
      exact hpages j (by omega) (by omega)

/-- An entry after the loop is an old one of a page outside the range, or holds one of the
frames. -/
theorem mapFrames_cases (addr : Addr) (pgnum : ℤ) :
    ∀ (frames : List ℕ) (i : ℕ) (pgd : Fin pagingMaxPgn → Addr) (pgn : Fin pagingMaxPgn),
      ((i + frames.length : ℕ) : ℤ) ≤ pgnum →
      (Mm.mapFrames addr pgnum i frames pgd pgn = pgd pgn ∧
        ∀ j, i ≤ j → j < i + frames.length →
          pagingPgn (addr + BitVec.ofNat 32 j * pagingPagesz) ≠ pgn) ∨
      ∃ f ∈ frames, ∃ pte,
        Mm.mapFrames addr pgnum i frames pgd pgn = pteSetFpn pte (BitVec.ofNat 32 f) := by
  intro frames
  induction frames with
  | nil =>
      intro i pgd pgn _
      refine Or.inl ⟨rfl, fun j hij hj => ?_⟩
      simp only [List.length_nil] at hj
      omega
  | cons f frames ih =>
      intro i pgd pgn hnum
      simp only [List.length_cons] at hnum
      have hi : (i : ℤ) < pgnum := by omega
      simp only [Mm.mapFrames, hi, if_true]
      -- the entry is set by a later round, by this one, or by none
      rcases ih (i + 1) (Function.update pgd
        (pagingPgn (addr + BitVec.ofNat 32 i * pagingPagesz)) _) pgn (by omega) with
        ⟨heq, hlater⟩ | ⟨g, hg, pte, heq⟩
      · rw [heq]
        by_cases hpgn : pagingPgn (addr + BitVec.ofNat 32 i * pagingPagesz) = pgn
        · subst hpgn
          rw [Function.update_self]
          exact Or.inr ⟨f, List.mem_cons_self .., _, rfl⟩
        · rw [Function.update_of_ne (Ne.symm hpgn)]
          refine Or.inl ⟨rfl, fun j hij hj => ?_⟩
          simp only [List.length_cons] at hj
          rcases Nat.eq_or_lt_of_le hij with rfl | hlt
          · exact hpgn
          · exact hlater j (by omega) (by omega)
      · exact Or.inr ⟨g, List.mem_cons_of_mem f hg, pte, heq⟩

/-! ## Good steps -/

theorem directory_update_self {s : PagingSys} {p : ℕ} {c : Caller} (h : s.caller p = some c) :
    Function.update s.directory p (some c.mm.pgd) = s.directory := by
  rw [← (caller_spec h).2.1, Function.update_eq_self]

/-- Accounts that list and name the same frames are the same accounts. -/
theorem Accounted.of_same {s s' : PagingSys} (h : s.Accounted) (hmram : s.mram.SameFrame s'.mram)
    (hmswp : s.activeMswp.SameFrame s'.activeMswp)
    (hram : holds onlineFrame s'.directory = holds onlineFrame s.directory)
    (hswap : holds swapFrame s'.directory = holds swapFrame s.directory) : s'.Accounted := by
  refine ⟨?_, ?_, ?_⟩
  · rw [hram, Memphy.numfp, hmram.maxsz, hmram.freeFpList]
    exact h.ram
  · rw [hswap, Memphy.numfp, hmswp.maxsz, hmswp.freeFpList]
    exact h.swap
  · rw [hswap]
    exact h.noneSwapped

/-- A call that takes no frame keeps the accounts. -/
theorem Accounted.quiet {s : PagingSys} {p : ℕ} {c c' : Caller} (h : s.Accounted)
    (hc : s.caller p = some c) (hquiet : c.Quiet c') : (s.setCaller p c').Accounted := by
  rcases caller_spec hc with ⟨hp, _, hmram, hmswp⟩
  have hdir : (s.setCaller p c').directory = s.directory := by
    rw [directory_setCaller hp, hquiet.pgd, directory_update_self hc]
  apply h.of_same
  · exact hmram ▸ hquiet.mram
  · exact hmswp ▸ hquiet.swap
  · rw [hdir]
  · rw [hdir]

/-- A new process names no frame. -/
theorem Accounted.initMm {s : PagingSys} (h : s.Accounted) :
    ({ s with procs := s.procs ++ [some loaded] } : PagingSys).Accounted := by
  have hholds : ∀ frame : Addr → Option ℕ, frame 0 = none →
      holds frame ({ s with procs := s.procs ++ [some loaded] } : PagingSys).directory =
        holds frame s.directory := by
    intro frame hzero
    funext ⟨q, pgn⟩
    -- an old process, the new one, or no process
    rcases Nat.lt_trichotomy q s.procs.length with hlt | rfl | hgt
    · simp [holds, directory, List.getElem?_append_left hlt]
    · simpa [holds, directory, loaded, Mm.initMm, Mm.zeroed] using hzero
    · have hnew : (s.procs ++ [some loaded])[q]? = none :=
        List.getElem?_eq_none (by simpa using hgt)
      simp [holds, directory, hnew, List.getElem?_eq_none hgt.le]
  apply h.of_same
  · exact Memphy.SameFrame.refl _
  · exact Memphy.SameFrame.refl _
  · exact hholds onlineFrame (by decide)
  · exact hholds swapFrame (by decide)

theorem directory_finish (s : PagingSys) (p : ℕ) :
    ({ s with procs := s.procs.set p none } : PagingSys).directory =
      Function.update s.directory p none := by
  funext q
  by_cases hq : q = p
  · subst hq
    by_cases hlt : q < s.procs.length
    · simp [directory, hlt]
    · have hset : (s.procs.set q none)[q]? = none :=
        List.getElem?_eq_none (by simpa using Nat.le_of_not_lt hlt)
      simp [directory, hset]
  · simp [directory, List.getElem?_set_ne (Ne.symm hq), Function.update_of_ne hq]

/-- The end of a process with no page in RAM keeps the accounts. -/
theorem Accounted.finish {s : PagingSys} {p : ℕ} {c : Caller} (h : s.Accounted)
    (hc : s.caller p = some c) (hoffline : ∀ pgn, pageOnline (c.mm.pgd pgn) = false) :
    ({ s with procs := s.procs.set p none } : PagingSys).Accounted := by
  have hholds : ∀ frame : Addr → Option ℕ, (∀ pgn, frame (c.mm.pgd pgn) = none) →
      holds frame (Function.update s.directory p none) = holds frame s.directory := by
    intro frame hnone
    funext ⟨q, pgn⟩
    by_cases hq : q = p
    · subst hq
      simp [holds, (caller_spec hc).2.1, hnone]
    · simp [holds, Function.update_of_ne hq]
  apply h.of_same
  · exact Memphy.SameFrame.refl _
  · exact Memphy.SameFrame.refl _
  · rw [directory_finish]
    exact hholds onlineFrame fun pgn => by simp [onlineFrame, hoffline pgn]
  · rw [directory_finish]
    refine hholds swapFrame fun pgn => ?_
    have hnone := h.noneSwapped (p, pgn)
    simpa only [holds, (caller_spec hc).2.1, Option.bind_some] using hnone

theorem mapFrames_swapped {addr : Addr} {pgnum : ℤ} {frames : List ℕ} {i : ℕ}
    {pgd : Fin pagingMaxPgn → Addr} (hnum : ((i + frames.length : ℕ) : ℤ) ≤ pgnum)
    (h : ∀ pgn, pageSwapped (pgd pgn) = false) (pgn : Fin pagingMaxPgn) :
    pageSwapped (Mm.mapFrames addr pgnum i frames pgd pgn) = false := by
  rcases mapFrames_cases addr pgnum frames i pgd pgn hnum with ⟨heq, _⟩ | ⟨f, _, pte, heq⟩
  · rw [heq]
    exact h pgn
  · rw [heq]
    exact pageSwapped_pteSetFpn pte _

/-- No entry of a caller is swapped out. -/
theorem Accounted.swapped {s : PagingSys} {p : ℕ} {c : Caller} (h : s.Accounted)
    (hc : s.caller p = some c) (pgn : Fin pagingMaxPgn) : pageSwapped (c.mm.pgd pgn) = false := by
  have hnone := h.noneSwapped (p, pgn)
  simp only [holds, (caller_spec hc).2.1, Option.bind_some] at hnone
  exact swapFrame_eq_none.1 hnone

/-- A growth that asks for `n` frames and gets them, in terms of the accounts. -/
theorem Accounted.grow {s : PagingSys} {p : ℕ} {c c' : Caller} {incSz : Addr} (h : s.Accounted)
    (hc : s.caller p = some c) (heff : c.GrowEffect incSz c')
    (henough : (Caller.growPages incSz).toNat ≤ c.mram.freeFpList.length)
    (hsmall : ∀ f ∈ c.mram.freeFpList.take (Caller.growPages incSz).toNat, f < 8192)
    (hpages : ∀ i < (Caller.growPages incSz).toNat,
      pageOnline (c.mm.pgd (c.growPgn i)) = false) : (s.setCaller p c').Accounted := by
  -- the list is split into the frames that are mapped and the rest
  rcases caller_spec hc with ⟨hp, hdir, hmram, hmswp⟩
  rcases heff.enough henough with ⟨hram', hpgd'⟩
  by_cases hpos : 0 < Caller.growPages incSz
  · have hlen : (c.mram.freeFpList.take (Caller.growPages incSz).toNat).length =
        (Caller.growPages incSz).toNat := List.length_take_of_le henough
    have hnum : ((0 + (c.mram.freeFpList.take (Caller.growPages incSz).toNat).length : ℕ) : ℤ) ≤
        Caller.growPages incSz := by
      rw [hlen]
      omega
    have hledger : Ledger s.mram.numfp
        (c.mram.freeFpList.take (Caller.growPages incSz).toNat ++
          c.mram.freeFpList.drop (Caller.growPages incSz).toNat)
        (holds onlineFrame (Function.update s.directory p (some c.mm.pgd))) := by
      rw [List.take_append_drop, directory_update_self hc, hmram]
      exact h.ram
    -- no more than 8192 different frames have numbers below 8192
    have hbound : (c.mram.freeFpList.take (Caller.growPages incSz).toNat).length ≤ 8192 := by
      refine length_le_of_nodup ?_ hsmall
      exact (List.take_sublist _ _).nodup (hmram ▸ h.ram.nodup)
    have hmapped := ledger_mapFrames (c.mm.mmap.vmEnd.setWidth 32)
      (Caller.growPages incSz) _ 0 c.mm.pgd hledger hsmall (by omega) hnum
      (fun j _ hj => hpages j (by omega))
    have hdir' : (s.setCaller p c').directory = Function.update s.directory p
        (some (Mm.mapFrames (c.mm.mmap.vmEnd.setWidth 32) (Caller.growPages incSz) 0
          (c.mram.freeFpList.take (Caller.growPages incSz).toNat) c.mm.pgd)) := by
      rw [directory_setCaller hp, hpgd']
    have hswapped : ∀ k, holds swapFrame (s.setCaller p c').directory k = none := by
      rintro ⟨q, pgn⟩
      rw [hdir']
      -- a mapped entry is online, and there was no swapped-out one before
      by_cases hq : q = p
      · subst hq
        simp only [holds, Function.update_self, Option.bind_some]
        exact swapFrame_eq_none.2 (mapFrames_swapped hnum (h.swapped hc) pgn)
      · simpa [holds, Function.update_of_ne hq] using h.noneSwapped (q, pgn)
    have hsame : holds swapFrame (s.setCaller p c').directory = holds swapFrame s.directory := by
      funext k
      rw [hswapped k, h.noneSwapped k]
    refine ⟨?_, ?_, hswapped⟩
    · rw [hdir']
      simpa [setCaller, hram', Memphy.numfp, hmram] using hmapped
    · rw [hsame]
      simpa [setCaller, heff.swap, hmswp] using h.swap
  · have hzero : (Caller.growPages incSz).toNat = 0 := Int.toNat_of_nonpos (not_lt.1 hpos)
    rw [hzero] at hram' hpgd'
    apply h.quiet hc
    refine ⟨by simpa [Mm.mapFrames] using hpgd', ?_, heff.swap ▸ Memphy.SameFrame.refl _⟩
    exact ⟨by rw [hram'], by rw [hram'], by rw [hram']; simp⟩

/-- What a call that grows the area, if it may, does. -/
structure Grown (c : Caller) (vmaid incSz : Addr) (c' : Caller) : Prop where
  refused : ¬ c.MayGrow vmaid → c.Quiet c'
  grows : c.MayGrow vmaid → c.GrowEffect incSz c'

theorem incVmaLimit_grown (c : Caller) (vmaid incSz : Addr) :
    Grown c vmaid incSz (c.incVmaLimit vmaid incSz).2 where
  refused hno := by
    rw [Caller.incVmaLimit_refused hno]
    exact ⟨rfl, Memphy.SameFrame.refl _, Memphy.SameFrame.refl _⟩
  grows hyes := Caller.incVmaLimit_effect incSz hyes

theorem alloc_grown {c c' : Caller} {rgid size : Addr} {addr : Option Addr}
    (hlist : c.mm.mmap.vmFreergList = none) (h : c.alloc rgid size = some (addr, c')) :
    Grown c 0 (pagingPageAlignsz size) c' := by
  rcases Caller.alloc_grows hlist h with ⟨hpgd, hmram, hmswp⟩
  have hgrown := incVmaLimit_grown c 0 (pagingPageAlignsz size)
  refine ⟨fun hno => ?_, fun hyes => ?_⟩
  · have hq := hgrown.refused hno
    exact ⟨hpgd.trans hq.pgd, hmram ▸ hq.mram, hmswp ▸ hq.swap⟩
  · have heff := hgrown.grows hyes
    exact ⟨hmswp.trans heff.swap, fun hle => hmram ▸ hpgd ▸ heff.enough hle,
      fun hlt => hmram ▸ hpgd ▸ heff.short hlt⟩

/-- A growth under the condition keeps the accounts. -/
theorem Accounted.grown {s : PagingSys} {p : ℕ} {c c' : Caller} {vmaid incSz : Addr}
    (h : s.Accounted) (hc : s.caller p = some c) (hgrown : Grown c vmaid incSz c')
    (hwell : GrowsWell c vmaid incSz) : (s.setCaller p c').Accounted := by
  -- a growth that is refused, or asks for no page, takes no frame
  by_cases hmay : c.MayGrow vmaid
  · have heff := hgrown.grows hmay
    by_cases hpos : 0 < Caller.growPages incSz
    · rcases hwell hmay hpos with hnil | ⟨henough, hsmall, hpages⟩
      · -- nothing is taken from an empty list
        rcases heff.short (by simp [hnil, hpos]) with ⟨hmram, hpgd⟩
        apply h.quiet hc
        refine ⟨hpgd, ?_, heff.swap ▸ Memphy.SameFrame.refl _⟩
        exact ⟨by rw [hmram], by rw [hmram], by rw [hmram, hnil]⟩
      · exact h.grow hc heff henough hsmall hpages
    · have hzero : (Caller.growPages incSz).toNat = 0 := Int.toNat_of_nonpos (not_lt.1 hpos)
      apply h.grow hc heff
      · simp [hzero]
      · simp [hzero]
      · intro i hi
        omega
  · exact h.quiet hc (hgrown.refused hmay)

end PagingSys
end MiniOs
