import MiniOs.Paging.Regions

/-!
# Effects — what the calls do to page tables and frame lists

One lemma for each function of `mm-vm.c` and `libmem.c`, about the part of the state that says
where a frame is: the page directory and the free lists of the two devices.
-/

namespace MiniOs

namespace Mm

/-- The loop of `alloc_pages_range` takes the first frames of the list; if there are too few, it
takes all and fails. -/
theorem takeFrames_eq (n : Nat) (mram : Memphy) :
    takeFrames n mram =
      if n ≤ mram.freeFpList.length then
        (some (mram.freeFpList.take n), { mram with freeFpList := mram.freeFpList.drop n })
      else (none, { mram with freeFpList := [] }) := by
  induction n generalizing mram with
  | zero => simp [takeFrames]
  | succ n ih =>
      -- an empty list fails here; otherwise the rest of the loop does or does not find enough
      cases hfree : mram.freeFpList with
      | nil =>
          rcases mram with ⟨storage, maxsz, rdmflg, cursor, freeFpList⟩
          obtain rfl : freeFpList = [] := hfree
          simp [takeFrames, Memphy.getFreefp]
      | cons fpn rest =>
          simp only [takeFrames, Memphy.getFreefp, hfree, ih, List.length_cons,
            Nat.add_le_add_iff_right]
          split <;> simp

end Mm

namespace Caller

/-! ## Growth -/

/-- `inc_vma_limit` gets as far as asking for frames: the area exists and the break pointer is
not below its end. -/
def MayGrow (c : Caller) (vmaid : Addr) : Prop :=
  vmaid.toInt ≤ 0 ∧ ¬ c.bp.signExtend 64 < c.mm.mmap.vmEnd

/-- `incnumpage` -/
def growPages (incSz : Addr) : Int := ((pagingPageAlignsz incSz).sdiv pagingPagesz).toInt

/-- Page `i` of a growth. -/
def growPgn (c : Caller) (i : Nat) : Fin pagingMaxPgn :=
  pagingPgn (c.mm.mmap.vmEnd.setWidth 32 + BitVec.ofNat 32 i * pagingPagesz)

theorem validateOverlapVmArea_lt (c : Caller) {vmaid : Addr} (h : vmaid.toInt ≤ 0)
    (start : Addr) :
    c.validateOverlapVmArea vmaid start < 0 ↔ start.signExtend 64 < c.mm.mmap.vmEnd := by
  have hvma : c.getVmaByNum vmaid = some c.mm.mmap := if_neg (not_lt.2 h)
  unfold validateOverlapVmArea
  rw [hvma]
  dsimp only
  split
  · rename_i hlt
    simp [hlt]
  · rename_i hlt
    simp [hlt]

/-- A refused growth only moves the break pointer. -/
theorem incVmaLimit_refused {c : Caller} {vmaid incSz : Addr} (h : ¬ c.MayGrow vmaid) :
    c.incVmaLimit vmaid incSz = (-1, { c with bp := c.bp + pagingPageAlignsz incSz }) := by
  -- refused for an overlap, or because there is no such area
  by_cases hvma : vmaid.toInt ≤ 0
  · have hlt : c.bp.signExtend 64 < c.mm.mmap.vmEnd := by
      by_contra hno
      exact h ⟨hvma, hno⟩
    have hval := (validateOverlapVmArea_lt { c with bp := c.bp + pagingPageAlignsz incSz } hvma
      c.bp).2 hlt
    have hget : ∀ c : Caller, c.getVmaByNum vmaid = some c.mm.mmap :=
      fun c => if_neg (not_lt.2 hvma)
    simp only [incVmaLimit, getVmAreaNodeAtBrk, hget]
    simp [hval]
  · have hget : ∀ c : Caller, c.getVmaByNum vmaid = none := fun c => if_pos (not_le.1 hvma)
    simp [incVmaLimit, getVmAreaNodeAtBrk, hget]

/-- The caller with `bp` and `vm_end` moved: so `inc_vma_limit` asks for frames. -/
def moveEnd (c : Caller) (incSz : Addr) : Caller :=
  let vmEnd := (c.bp + pagingPageAlignsz incSz).setWidth 64
  { c with
    bp := c.bp + pagingPageAlignsz incSz
    mm := { c.mm with mmap := { c.mm.mmap with vmEnd := vmEnd } } }

/-- An allowed growth is `vm_map_ram` behind the two moves. -/
theorem incVmaLimit_allowed {c : Caller} {vmaid : Addr} (incSz : Addr) (h : c.MayGrow vmaid) :
    c.incVmaLimit vmaid incSz =
      match (c.moveEnd incSz).mm.vmMapRam c.mram (c.mm.mmap.vmEnd.setWidth 32)
          ((pagingPageAlignsz incSz).sdiv pagingPagesz) with
      | (none, mm, mram) => (-1, { c.moveEnd incSz with mm := mm, mram := mram })
      | (some _, mm, mram) => (0, { c.moveEnd incSz with mm := mm, mram := mram }) := by
  have hget : ∀ c : Caller, c.getVmaByNum vmaid = some c.mm.mmap := fun c => if_neg (not_lt.2 h.1)
  have hval : ¬ validateOverlapVmArea { c with bp := c.bp + pagingPageAlignsz incSz } vmaid c.bp
      < 0 := by
    rw [validateOverlapVmArea_lt _ h.1]
    exact h.2
  have hwidth : (c.bp.setWidth 64).setWidth 32 = c.bp := by simp
  simp only [incVmaLimit, getVmAreaNodeAtBrk, hget, hwidth, hval, if_false]
  rfl

/-- A negative number of pages takes no frame and is refused. -/
theorem incVmaLimit_negative {c : Caller} {vmaid incSz : Addr} (h : c.MayGrow vmaid)
    (hneg : growPages incSz < 0) : c.incVmaLimit vmaid incSz = (-1, c.moveEnd incSz) := by
  have hneg' : ((pagingPageAlignsz incSz).sdiv pagingPagesz).toInt < 0 := hneg
  have hzero : ((pagingPageAlignsz incSz).sdiv pagingPagesz).toInt.toNat = 0 :=
    Int.toNat_of_nonpos hneg.le
  rw [incVmaLimit_allowed incSz h]
  simp only [Mm.vmMapRam, Mm.allocPagesRange, hzero, Mm.takeFrames, hneg', if_true]
  rfl

/-- Too few frames: those there are have been taken, and are lost. -/
theorem incVmaLimit_short {c : Caller} {vmaid incSz : Addr} (h : c.MayGrow vmaid)
    (hshort : c.mram.freeFpList.length < (growPages incSz).toNat) :
    c.incVmaLimit vmaid incSz =
      (-1, { c.moveEnd incSz with mram := { c.mram with freeFpList := [] } }) := by
  have hshort' : ¬ ((pagingPageAlignsz incSz).sdiv pagingPagesz).toInt.toNat ≤
      c.mram.freeFpList.length := not_le.2 hshort
  rw [incVmaLimit_allowed incSz h]
  simp only [Mm.vmMapRam, Mm.allocPagesRange, Mm.takeFrames_eq, hshort', if_false]

/-- Enough frames: they are mapped behind the old end of the area. -/
theorem incVmaLimit_enough {c : Caller} {vmaid incSz : Addr} (h : c.MayGrow vmaid)
    (hpos : 0 ≤ growPages incSz) (henough : (growPages incSz).toNat ≤ c.mram.freeFpList.length) :
    c.incVmaLimit vmaid incSz =
      (0, { c.moveEnd incSz with
        mm := ((c.moveEnd incSz).mm.vmapPageRange (c.mm.mmap.vmEnd.setWidth 32)
          ((pagingPageAlignsz incSz).sdiv pagingPagesz)
          (c.mram.freeFpList.take (growPages incSz).toNat)).2
        mram := { c.mram with
          freeFpList := c.mram.freeFpList.drop (growPages incSz).toNat } }) := by
  have hpos' : ¬ ((pagingPageAlignsz incSz).sdiv pagingPagesz).toInt < 0 := not_lt.2 hpos
  have henough' : ((pagingPageAlignsz incSz).sdiv pagingPagesz).toInt.toNat ≤
      c.mram.freeFpList.length := henough
  rw [incVmaLimit_allowed incSz h]
  simp only [Mm.vmMapRam, Mm.allocPagesRange, Mm.takeFrames_eq, henough', if_true, hpos', if_false]
  rfl

/-- What `inc_vma_limit` returns and leaves, by how far it gets. -/
inductive GrowthGot (c : Caller) (vmaid incSz : Addr) : Int × Caller → Prop
  | refused : ¬ c.MayGrow vmaid →
      GrowthGot c vmaid incSz (-1, { c with bp := c.bp + pagingPageAlignsz incSz })
  | negative : c.MayGrow vmaid → growPages incSz < 0 →
      GrowthGot c vmaid incSz (-1, c.moveEnd incSz)
  | short : c.MayGrow vmaid → c.mram.freeFpList.length < (growPages incSz).toNat →
      GrowthGot c vmaid incSz
        (-1, { c.moveEnd incSz with mram := { c.mram with freeFpList := [] } })
  | enough : c.MayGrow vmaid → 0 ≤ growPages incSz →
      (growPages incSz).toNat ≤ c.mram.freeFpList.length →
      GrowthGot c vmaid incSz (0, { c.moveEnd incSz with
        mm := ((c.moveEnd incSz).mm.vmapPageRange (c.mm.mmap.vmEnd.setWidth 32)
          ((pagingPageAlignsz incSz).sdiv pagingPagesz)
          (c.mram.freeFpList.take (growPages incSz).toNat)).2
        mram := { c.mram with
          freeFpList := c.mram.freeFpList.drop (growPages incSz).toNat } })

theorem incVmaLimit_got (c : Caller) (vmaid incSz : Addr) :
    GrowthGot c vmaid incSz (c.incVmaLimit vmaid incSz) := by
  by_cases hmay : c.MayGrow vmaid
  · by_cases hneg : growPages incSz < 0
    · rw [incVmaLimit_negative hmay hneg]
      exact .negative hmay hneg
    · by_cases henough : (growPages incSz).toNat ≤ c.mram.freeFpList.length
      · rw [incVmaLimit_enough hmay (not_lt.1 hneg) henough]
        exact .enough hmay (not_lt.1 hneg) henough
      · rw [incVmaLimit_short hmay (not_le.1 henough)]
        exact .short hmay (not_le.1 henough)
  · rw [incVmaLimit_refused hmay]
    exact .refused hmay

/-- What a growth does when frames are asked for. -/
structure GrowEffect (c : Caller) (incSz : Addr) (c' : Caller) : Prop where
  swap : c'.activeMswp = c.activeMswp
  enough : (growPages incSz).toNat ≤ c.mram.freeFpList.length →
    c'.mram = { c.mram with freeFpList := c.mram.freeFpList.drop (growPages incSz).toNat } ∧
    c'.mm.pgd = Mm.mapFrames (c.mm.mmap.vmEnd.setWidth 32) (growPages incSz) 0
      (c.mram.freeFpList.take (growPages incSz).toNat) c.mm.pgd
  short : c.mram.freeFpList.length < (growPages incSz).toNat →
    c'.mram = { c.mram with freeFpList := [] } ∧ c'.mm.pgd = c.mm.pgd

theorem incVmaLimit_effect {c : Caller} {vmaid : Addr} (incSz : Addr) (h : c.MayGrow vmaid) :
    GrowEffect c incSz (c.incVmaLimit vmaid incSz).2 := by
  have hgot := c.incVmaLimit_got vmaid incSz
  generalize c.incVmaLimit vmaid incSz = r at hgot ⊢
  cases hgot with
  | refused hno => exact absurd h hno
  | negative _ hneg =>
      have hzero : (growPages incSz).toNat = 0 := Int.toNat_of_nonpos hneg.le
      refine ⟨rfl, fun _ => ?_, fun hlt => by omega⟩
      simp [hzero, Mm.mapFrames, moveEnd]
  | short _ hshort => exact ⟨rfl, fun hle => absurd hle (not_le.2 hshort), fun _ => ⟨rfl, rfl⟩⟩
  | enough _ _ henough => exact ⟨rfl, fun _ => ⟨rfl, rfl⟩, fun hlt => by omega⟩

/-! ## Calls that take no frame -/

/-- Page directory and free lists stay as they were. -/
structure Quiet (c c' : Caller) : Prop where
  pgd : c'.mm.pgd = c.mm.pgd
  mram : c.mram.SameFrame c'.mram
  swap : c.activeMswp.SameFrame c'.activeMswp

theorem Quiet.refl (c : Caller) : Quiet c c :=
  ⟨rfl, Memphy.SameFrame.refl _, Memphy.SameFrame.refl _⟩

theorem free_quiet {c c' : Caller} {rgid : Addr} {ret : Int}
    (h : c.free rgid = some (ret, c')) : Quiet c c' := by
  cases free_freed h with
  | refused => exact Quiet.refl c
  | freed _ _ => exact ⟨rfl, Memphy.SameFrame.refl _, Memphy.SameFrame.refl _⟩

/-- An allocation out of a free list takes no frame. -/
theorem alloc_quiet {c c' : Caller} {rgid size : Addr} {addr : Option Addr}
    (hlist : c.mm.mmap.vmFreergList ≠ none) (h : c.alloc rgid size = some (addr, c')) :
    Quiet c c' := by
  rcases alloc_listed_cases hlist h with ⟨i, bounds, mm, _, hprobed, _, rfl⟩
  have hpgd := (Mm.probed_sameButNodes hprobed).pgd
  exact ⟨(Mm.setRg_pgd mm _ _).trans hpgd, Memphy.SameFrame.refl _, Memphy.SameFrame.refl _⟩

/-- `__alloc` on an empty list. -/
theorem alloc_growth {c : Caller} (rgid size : Addr) (h : c.mm.mmap.vmFreergList = none) :
    c.alloc rgid size =
      if (c.incVmaLimit 0#32 (pagingPageAlignsz size)).1 < 0 then
        some (none, (c.incVmaLimit 0#32 (pagingPageAlignsz size)).2)
      else
        let c₁ := (c.incVmaLimit 0#32 (pagingPageAlignsz size)).2
        let sbrk := ((c.mm.mmap.sbrk.setWidth 32 : Addr) + pagingPageAlignsz size).signExtend 64
        some (some (c.mm.mmap.sbrk.setWidth 32),
          { c₁ with mm := { c₁.mm with mmap := { c₁.mm.mmap with sbrk := sbrk } } }) := by
  have hget : c.mm.getFreeVmrgArea size = some (none, c.mm) := by
    simp [Mm.getFreeVmrgArea, h]
  simp only [alloc, hget, BitVec.ofNat_eq_ofNat]

/-- An allocation on an empty free list grows the area. -/
theorem alloc_grows {c c' : Caller} {rgid size : Addr} {addr : Option Addr}
    (hlist : c.mm.mmap.vmFreergList = none) (h : c.alloc rgid size = some (addr, c')) :
    c'.mm.pgd = (c.incVmaLimit 0 (pagingPageAlignsz size)).2.mm.pgd ∧
      c'.mram = (c.incVmaLimit 0 (pagingPageAlignsz size)).2.mram ∧
      c'.activeMswp = (c.incVmaLimit 0 (pagingPageAlignsz size)).2.activeMswp := by
  rw [alloc_growth rgid size hlist] at h
  split at h
  · obtain ⟨_, rfl⟩ := Prod.mk.inj (Option.some.inj h)
    exact ⟨rfl, rfl, rfl⟩
  · obtain ⟨_, rfl⟩ := Prod.mk.inj (Option.some.inj h)
    exact ⟨rfl, rfl, rfl⟩

/-! ## Page accesses -/

/-- The access needs no swap frame: the page is present, or `pg_getpage` fails before it takes
one. -/
def NeedsNoSwap (c : Caller) (pgn : Fin pagingMaxPgn) : Prop :=
  pagingPagePresent (c.mm.pgd pgn) = true ∨ c.mm.fifoPgn = [] ∨ c.activeMswp.freeFpList = []

/-- What a page fault does when it takes a swap frame. -/
structure FaultEffect (c c' : Caller) : Prop where
  mram : c.mram.SameFrame c'.mram
  taken : ∃ swpfpn rest, c.activeMswp.freeFpList = swpfpn :: rest ∧
    c'.activeMswp.freeFpList = rest
  maxsz : c'.activeMswp.maxsz = c.activeMswp.maxsz
  swapped : ∀ pgn, pageSwapped (c'.mm.pgd pgn) = pageSwapped (c.mm.pgd pgn)

theorem mmSwapPage_eq {c c' : Caller} {vicfpn swpfpn : Addr}
    (h : c.mmSwapPage vicfpn swpfpn = some c') :
    ∃ mswp, c' = { c with activeMswp := mswp } ∧ c.activeMswp.SameFrame mswp := by
  rcases Option.map_eq_some_iff.1 h with ⟨mswp, hcopy, rfl⟩
  exact ⟨mswp, rfl, swapCpPage_sameFrame hcopy⟩

theorem bringIn_eq {c c' : Caller} {pgn vicpgn : Fin pagingMaxPgn} {swpfpn : Nat}
    (h : c.bringIn pgn vicpgn swpfpn = some c') :
    c'.mram = c.mram ∧ c.activeMswp.SameFrame c'.activeMswp ∧
      c'.mm.pgd = Function.update c.mm.pgd pgn
        (ptePresent (c.mm.pgd pgn) (BitVec.ofNat 32 vicpgn.val)) := by
  rcases Option.bind_eq_some_iff.1 h with ⟨c₁, hout, hrest⟩
  rcases Option.map_eq_some_iff.1 hrest with ⟨c₂, hin, rfl⟩
  rcases mmSwapPage_eq hout with ⟨m₁, rfl, hsame₁⟩
  rcases mmSwapPage_eq hin with ⟨m₂, rfl, hsame₂⟩
  exact ⟨rfl, hsame₁.trans hsame₂, rfl⟩

theorem pgGetpage_present {c : Caller} {pgn : Fin pagingMaxPgn}
    (h : pagingPagePresent (c.mm.pgd pgn) = true) :
    c.pgGetpage pgn = some (some (pagingFpn (c.mm.pgd pgn)), c) := by
  simp [pgGetpage, h]

/-- Without a victim an absent page is refused, and nothing happens. -/
theorem pgGetpage_noVictim {c : Caller} {pgn : Fin pagingMaxPgn}
    (habsent : pagingPagePresent (c.mm.pgd pgn) = false) (hfifo : c.mm.fifoPgn = []) :
    c.pgGetpage pgn = some (none, c) := by
  simp [pgGetpage, habsent, findVictimPage, hfifo]

/-- Without a swap frame it is refused as well, but the victim has been unlinked. -/
theorem pgGetpage_noFrame {c : Caller} {pgn vicpgn : Fin pagingMaxPgn}
    {rest : List (Fin pagingMaxPgn)} (habsent : pagingPagePresent (c.mm.pgd pgn) = false)
    (hfifo : c.mm.fifoPgn = vicpgn :: rest) (hfree : c.activeMswp.freeFpList = []) :
    c.pgGetpage pgn = some (none, { c with mm := { c.mm with fifoPgn := rest } }) := by
  simp [pgGetpage, habsent, findVictimPage, hfifo, Memphy.getFreefp, hfree]

/-- With both, `pg_getpage` does not fail. -/
theorem pgGetpage_fault {c : Caller} {pgn vicpgn : Fin pagingMaxPgn} {swpfpn : Nat}
    {rest : List (Fin pagingMaxPgn)} {frames : List Nat}
    (habsent : pagingPagePresent (c.mm.pgd pgn) = false)
    (hfifo : c.mm.fifoPgn = vicpgn :: rest) (hfree : c.activeMswp.freeFpList = swpfpn :: frames) :
    c.pgGetpage pgn =
      (bringIn { c with
          mm := { c.mm with fifoPgn := rest }
          activeMswp := { c.activeMswp with freeFpList := frames } } pgn vicpgn swpfpn).map
        fun c => (some (pagingFpn (c.mm.pgd pgn)), c) := by
  simp [pgGetpage, habsent, findVictimPage, hfifo, Memphy.getFreefp, hfree]

/-- What `pg_getpage` gives and leaves, by what it finds. -/
inductive PageGot (c : Caller) (pgn : Fin pagingMaxPgn) : Option Addr → Caller → Prop
  | present : pagingPagePresent (c.mm.pgd pgn) = true →
      PageGot c pgn (some (pagingFpn (c.mm.pgd pgn))) c
  | noVictim : pagingPagePresent (c.mm.pgd pgn) = false → c.mm.fifoPgn = [] →
      PageGot c pgn none c
  | noFrame {vicpgn : Fin pagingMaxPgn} {rest : List (Fin pagingMaxPgn)} :
      pagingPagePresent (c.mm.pgd pgn) = false → c.mm.fifoPgn = vicpgn :: rest →
      c.activeMswp.freeFpList = [] →
      PageGot c pgn none { c with mm := { c.mm with fifoPgn := rest } }
  | fault {vicpgn : Fin pagingMaxPgn} {rest : List (Fin pagingMaxPgn)} {swpfpn : Nat}
      {frames : List Nat} {c' : Caller} :
      pagingPagePresent (c.mm.pgd pgn) = false → c.mm.fifoPgn = vicpgn :: rest →
      c.activeMswp.freeFpList = swpfpn :: frames →
      bringIn { c with
          mm := { c.mm with fifoPgn := rest }
          activeMswp := { c.activeMswp with freeFpList := frames } } pgn vicpgn swpfpn = some c' →
      PageGot c pgn (some (pagingFpn (c'.mm.pgd pgn))) c'

theorem pgGetpage_got {c c' : Caller} {pgn : Fin pagingMaxPgn} {fpn : Option Addr}
    (h : c.pgGetpage pgn = some (fpn, c')) : c.PageGot pgn fpn c' := by
  cases hpresent : pagingPagePresent (c.mm.pgd pgn) with
  | true =>
      rw [pgGetpage_present hpresent] at h
      obtain ⟨rfl, rfl⟩ := Prod.mk.inj (Option.some.inj h)
      exact .present hpresent
  | false =>
      -- an absent page: without a victim or a swap frame `pg_getpage` gives up
      cases hfifo : c.mm.fifoPgn with
      | nil =>
          rw [pgGetpage_noVictim hpresent hfifo] at h
          obtain ⟨rfl, rfl⟩ := Prod.mk.inj (Option.some.inj h)
          exact .noVictim hpresent hfifo
      | cons vicpgn rest =>
          cases hfree : c.activeMswp.freeFpList with
          | nil =>
              rw [pgGetpage_noFrame hpresent hfifo hfree] at h
              obtain ⟨rfl, rfl⟩ := Prod.mk.inj (Option.some.inj h)
              exact .noFrame hpresent hfifo hfree
          | cons swpfpn frames =>
              rw [pgGetpage_fault hpresent hfifo hfree] at h
              rcases Option.map_eq_some_iff.1 h with ⟨c₁, hbring, heq⟩
              obtain ⟨rfl, rfl⟩ := Prod.mk.inj heq
              exact .fault hpresent hfifo hfree hbring

theorem pgGetpage_effect {c c' : Caller} {pgn : Fin pagingMaxPgn} {fpn : Option Addr}
    (h : c.pgGetpage pgn = some (fpn, c')) :
    (c.NeedsNoSwap pgn → Quiet c c' ∧ c'.mram = c.mram) ∧
      (¬ c.NeedsNoSwap pgn → FaultEffect c c') := by
  cases pgGetpage_got h with
  | present hpresent =>
      exact ⟨fun _ => ⟨Quiet.refl c, rfl⟩, fun hno => absurd (Or.inl hpresent) hno⟩
  | noVictim _ hfifo =>
      exact ⟨fun _ => ⟨Quiet.refl c, rfl⟩, fun hno => absurd (Or.inr (Or.inl hfifo)) hno⟩
  | noFrame _ _ hfree =>
      exact ⟨fun _ => ⟨⟨rfl, Memphy.SameFrame.refl _, Memphy.SameFrame.refl _⟩, rfl⟩,
        fun hno => absurd (Or.inr (Or.inr hfree)) hno⟩
  | @fault vicpgn rest swpfpn frames _ habsent hfifo hfree hbring =>
      rcases bringIn_eq hbring with ⟨hmram, hswap, hpgd⟩
      -- it copies and takes the swap frame
      refine ⟨fun hno => ?_, fun _ => ?_⟩
      · simp [NeedsNoSwap, habsent, hfifo, hfree] at hno
      · refine ⟨hmram ▸ Memphy.SameFrame.refl _,
          ⟨swpfpn, frames, hfree, hswap.freeFpList⟩, hswap.maxsz, fun q => ?_⟩
        rw [hpgd]
        by_cases hq : q = pgn
        · subst hq
          simp [pageSwapped_ptePresent]
        · simp [Function.update_of_ne hq]

/-- How an access to an address leaves the caller, whether it reads or writes: as `pg_getpage` does,
but for what `MEMPHY_read` and `MEMPHY_write` do to RAM. -/
def Accessed (c : Caller) (addr : Addr) (c' : Caller) : Prop :=
  ∃ fpn c₁, c.pgGetpage (pagingPgn addr) = some (fpn, c₁) ∧ c'.mm = c₁.mm ∧
    c₁.mram.SameFrame c'.mram ∧ c'.activeMswp = c₁.activeMswp

theorem pgGetval_accessed {c c' : Caller} {addr : Addr} {data : Option Byte}
    (h : c.pgGetval addr = some (data, c')) : c.Accessed addr c' := by
  unfold pgGetval at h
  split at h
  · cases h
  · rename_i c₁ hpage
    obtain ⟨_, rfl⟩ := Prod.mk.inj (Option.some.inj h)
    exact ⟨none, _, hpage, rfl, Memphy.SameFrame.refl _, rfl⟩
  · rename_i fpn c₁ hpage
    rcases Option.map_eq_some_iff.1 h with ⟨⟨value, mram⟩, hread, heq⟩
    obtain ⟨_, rfl⟩ := Prod.mk.inj heq
    exact ⟨some fpn, c₁, hpage, rfl, Memphy.read_sameFrame hread, rfl⟩

theorem pgSetval_accessed {c c' : Caller} {addr : Addr} {value : Byte} {ret : Int}
    (h : c.pgSetval addr value = some (ret, c')) : c.Accessed addr c' := by
  unfold pgSetval at h
  split at h
  · cases h
  · rename_i c₁ hpage
    obtain ⟨_, rfl⟩ := Prod.mk.inj (Option.some.inj h)
    exact ⟨none, _, hpage, rfl, Memphy.SameFrame.refl _, rfl⟩
  · rename_i fpn c₁ hpage
    rcases Option.map_eq_some_iff.1 h with ⟨⟨val, mram⟩, hwrite, heq⟩
    obtain ⟨_, rfl⟩ := Prod.mk.inj heq
    exact ⟨some fpn, c₁, hpage, rfl, Memphy.write_sameFrame hwrite, rfl⟩

theorem Accessed.effect {c c' : Caller} {addr : Addr} (h : c.Accessed addr c') :
    (c.NeedsNoSwap (pagingPgn addr) → Quiet c c') ∧
      (¬ c.NeedsNoSwap (pagingPgn addr) → FaultEffect c c') := by
  rcases h with ⟨fpn, c₁, hpage, hmm, hmram, hswap⟩
  rcases pgGetpage_effect hpage with ⟨hquiet, hfault⟩
  refine ⟨fun hno => ?_, fun hyes => ?_⟩
  · rcases hquiet hno with ⟨hq, _⟩
    exact ⟨hmm ▸ hq.pgd, hq.mram.trans hmram, hswap ▸ hq.swap⟩
  · have hf := hfault hyes
    exact ⟨hf.mram.trans hmram, hswap ▸ hf.taken, hswap ▸ hf.maxsz, hmm ▸ hf.swapped⟩

/-- The access to a region needs no swap frame: there is no such region, or its page needs none. -/
def RegionNeedsNoSwap (c : Caller) (rgid offset : Addr) : Prop :=
  ∀ i, getSymrgByid rgid = .entry i → c.NeedsNoSwap (pagingPgn (c.rgAddr i offset))

theorem regionNeedsNoSwap_entry {c : Caller} {rgid offset : Addr} {i : Fin pagingMaxSymtblSz}
    (h : getSymrgByid rgid = .entry i) :
    c.RegionNeedsNoSwap rgid offset ↔ c.NeedsNoSwap (pagingPgn (c.rgAddr i offset)) := by
  constructor
  · intro hno
    exact hno i h
  · intro hno j hj
    rw [h] at hj
    cases hj
    exact hno

theorem regionNeedsNoSwap_null {c : Caller} {rgid offset : Addr} (h : getSymrgByid rgid = .null) :
    c.RegionNeedsNoSwap rgid offset := by
  intro i hi
  rw [h] at hi
  cases hi

/-- How an access to a region leaves the caller: if there is no such region, as it was. -/
inductive RegionAccessed (c : Caller) (rgid offset : Addr) : Caller → Prop
  | null : getSymrgByid rgid = .null → RegionAccessed c rgid offset c
  | entry {i : Fin pagingMaxSymtblSz} {c' : Caller} : getSymrgByid rgid = .entry i →
      c.Accessed (c.rgAddr i offset) c' → RegionAccessed c rgid offset c'

theorem read_accessed {c c' : Caller} {rgid offset : Addr} {r : Int × Option Byte}
    (h : c.read rgid offset = some (r, c')) : c.RegionAccessed rgid offset c' := by
  unfold read at h
  split at h
  · rename_i hnull
    obtain ⟨_, rfl⟩ := Prod.mk.inj (Option.some.inj h)
    exact .null hnull
  · cases h
  · rename_i i hentry
    rcases Option.map_eq_some_iff.1 h with ⟨⟨data, c₁⟩, hget, heq⟩
    obtain ⟨_, rfl⟩ := Prod.mk.inj heq
    exact .entry hentry (pgGetval_accessed hget)

theorem write_accessed {c c' : Caller} {rgid offset : Addr} {value : Byte} {ret : Int}
    (h : c.write rgid offset value = some (ret, c')) : c.RegionAccessed rgid offset c' := by
  unfold write at h
  split at h
  · rename_i hnull
    obtain ⟨_, rfl⟩ := Prod.mk.inj (Option.some.inj h)
    exact .null hnull
  · cases h
  · rename_i i hentry
    rcases Option.map_eq_some_iff.1 h with ⟨⟨val, c₁⟩, hset, heq⟩
    obtain ⟨_, rfl⟩ := Prod.mk.inj heq
    exact .entry hentry (pgSetval_accessed hset)

theorem RegionAccessed.effect {c c' : Caller} {rgid offset : Addr}
    (h : c.RegionAccessed rgid offset c') :
    (c.RegionNeedsNoSwap rgid offset → Quiet c c') ∧
      (¬ c.RegionNeedsNoSwap rgid offset → FaultEffect c c') := by
  cases h with
  | null hnull =>
      exact ⟨fun _ => Quiet.refl c, fun hno => absurd (regionNeedsNoSwap_null hnull) hno⟩
  | entry hentry haccessed =>
      rw [regionNeedsNoSwap_entry hentry]
      exact haccessed.effect

end Caller
end MiniOs
