import MiniOs.Paging.Resident

/-!
# PrivateBytes — the paged memory without page faults

A page fault moves the wrong frames, and the byte that is read never gets to the program.  What
lies below this works: as long as no page fault takes a swap frame and no growth maps a page again,
the RAM serves as one private memory per process, which begins with zeros.  Growths may fail and
processes may end in between, whatever frames are lost by this.
-/

namespace MiniOs
namespace PrivateBytes

open Lib PagingSys

/-! ## Cells -/

/-- A page and an offset in it. -/
abbrev Cell := Fin pagingMaxPgn × Fin 256

/-- The cell that `PAGING_PGN` and `PAGING_OFFST` make of an address. -/
def cellOf (addr : Addr) : Cell :=
  (pagingPgn addr, ⟨addr.toNat % 256, Nat.mod_lt _ (by decide)⟩)

/-- The bytes of RAM in the frames that the entries name. -/
def inFrames (names : ℕ × Fin pagingMaxPgn → Option ℕ) (p : ℕ) (cell : Cell) : Option ℕ :=
  (names (p, cell.1)).map fun f => f * 256 + cell.2.val

/-- The byte of RAM behind a cell of process `p`, if its page is present. -/
def behind (s : PagingSys) : ℕ → Cell → Option ℕ := inFrames (holds presentFrame s.directory)

/-- Process `p` has not ended; it may be still to come. -/
def Live (s : PagingSys) (p : ℕ) : Prop := s.procs[p]? ≠ some none

/-! ## The paged memory and what was stored in it -/

/-- The system, and the bytes stored by `pg_setval` so far, the last one first. -/
structure State where
  sys : PagingSys
  stored : List (ℕ × Cell × Byte)

/-- What a call stores: `libwrite` into a region of the table, if the page is present. -/
def newEntry (s : PagingSys) : Op → Option (ℕ × Cell × Byte)
  | .libwrite p data destination offset =>
      match s.caller p, getSymrgByid destination with
      | some c, .entry i =>
          if pagingPagePresent (c.mm.pgd (pagingPgn (c.rgAddr i offset))) then
            some (p, cellOf (c.rgAddr i offset), data)
          else none
      | _, _ => none
  | _ => none

def start (ramsz swpsz : Nat) (swpflg : Bool) : State :=
  ⟨PagingSys.start ramsz swpsz true swpflg, []⟩

def exec (st : State) (op : Op) : Option State :=
  (st.sys.exec op).map fun sys => ⟨sys, (newEntry st.sys op).toList ++ st.stored⟩

/-- The private memory of each process. -/
def State.memory (st : State) : ℕ → Cell → Byte := replay 0 st.stored

/-- Every access to a present page of a region of the table goes to the private memory: `__read`
finds the byte last stored there, and `pg_setval` succeeds. -/
structure Private (st : State) : Prop where
  read : ∀ p c rgid i offset, st.sys.caller p = some c → getSymrgByid rgid = .entry i →
    pagingPagePresent (c.mm.pgd (pagingPgn (c.rgAddr i offset))) = true →
    c.read rgid offset = some ((0, some (st.memory p (cellOf (c.rgAddr i offset)))), c)
  write : ∀ p c addr data, st.sys.caller p = some c →
    pagingPagePresent (c.mm.pgd (pagingPgn addr)) = true →
    ∃ c', c.pgSetval addr data = some (0, c') ∧ c'.mm = c.mm

/-! ## The condition -/

/-- The growth maps no page that is present. -/
def MapsFresh (c : Caller) (vmaid incSz : Addr) : Prop :=
  c.MayGrow vmaid → (Caller.growPages incSz).toNat ≤ c.mram.freeFpList.length →
    ∀ i < (Caller.growPages incSz).toNat, pagingPagePresent (c.mm.pgd (c.growPgn i)) = false

/-- No page fault takes a swap frame, and no page is mapped twice. -/
def Faultless (s : PagingSys) : Op → Prop
  | .initMm | .libfree _ _ | .finish _ => True
  | .liballoc p size _ => ∀ c, s.caller p = some c → c.mm.mmap.vmFreergList = none →
      MapsFresh c 0 (pagingPageAlignsz size)
  | .libread p rgid offset _ | .libwrite p _ rgid offset => ∀ c, s.caller p = some c →
      c.RegionNeedsNoSwap rgid offset
  | .incVmaLimit p vmaid incSz => ∀ c, s.caller p = some c → MapsFresh c vmaid incSz

instance (s : PagingSys) (p : ℕ) (P : Caller → Prop) [DecidablePred P] :
    Decidable (∀ c, s.caller p = some c → P c) :=
  decidable_of_iff (∀ c ∈ s.caller p, P c) Iff.rfl

instance (c : Caller) (vmaid incSz : Addr) : Decidable (MapsFresh c vmaid incSz) :=
  haveI : Decidable (c.MayGrow vmaid) := inferInstanceAs (Decidable (_ ∧ _))
  inferInstanceAs (Decidable (_ → _))

instance (c : Caller) (rgid offset : Addr) : Decidable (c.RegionNeedsNoSwap rgid offset) :=
  match h : getSymrgByid rgid with
  | .null | .pastEnd => isTrue fun i hi => by simp [h] at hi
  | .entry i =>
      haveI : Decidable (c.NeedsNoSwap (pagingPgn (c.rgAddr i offset))) :=
        inferInstanceAs (Decidable (_ ∨ _))
      decidable_of_iff _ (Caller.regionNeedsNoSwap_entry h).symm

instance (s : PagingSys) : (op : Op) → Decidable (Faultless s op)
  | .initMm | .libfree _ _ | .finish _ => isTrue trivial
  | .liballoc p _ _ => inferInstanceAs (Decidable (∀ c, s.caller p = some c → _ → _))
  | .libread p _ _ _ | .libwrite p _ _ _ | .incVmaLimit p _ _ =>
      inferInstanceAs (Decidable (∀ c, s.caller p = some c → _))

/-! ## The invariant -/

structure Inv (st : State) : Prop where
  random : st.sys.mram.rdmflg = true
  small : st.sys.mram.numfp ≤ 8192
  parted : Parted st.sys.mram.numfp st.sys.mram.freeFpList (holds presentFrame st.sys.directory)
  zeros : ∀ f ∈ st.sys.mram.freeFpList, ∀ i < 256, st.sys.mram.storage (f * 256 + i) = 0
  serves : Serves st.sys.mram.storage (behind st.sys) 0 (Live st.sys) st.memory

variable {st : State} {s : PagingSys} {p : ℕ} {c c' : Caller}

theorem Inv.framesApart (h : Inv st) : st.sys.FramesApart := ⟨h.parted.names_lt, h.parted.injective⟩

/-- Two cells in one byte are one cell of one process. -/
theorem inFrames_exclusive {names : ℕ × Fin pagingMaxPgn → Option ℕ}
    (h : ∀ k l f, names k = some f → names l = some f → k = l) : Exclusive (inFrames names) := by
  rintro p q ⟨pgn, off⟩ ⟨pgn', off'⟩ b hp hq
  rcases Option.map_eq_some_iff.1 hp with ⟨f, hf, hb⟩
  rcases Option.map_eq_some_iff.1 hq with ⟨g, hg, hb'⟩
  have hoff := off.isLt
  have hoff' := off'.isLt
  dsimp only at hf hg hb hb'
  obtain rfl : f = g := by omega
  obtain ⟨rfl, rfl⟩ := Prod.mk.inj (h _ _ f hf hg)
  obtain rfl : off = off' := Fin.ext (by omega)
  exact ⟨rfl, rfl⟩

theorem create_storage (maxSize : Nat) (randomflg : Bool) :
    (Memphy.create maxSize randomflg).storage = fun _ => 0 := by
  simp only [Memphy.create, Memphy.initMemphy, Memphy.format]
  split <;> split <;> rfl

theorem start_inv {ramsz : Nat} (hram : ramsz / 256 ≤ 8192) (swpsz : Nat) (swpflg : Bool) :
    Inv (start ramsz swpsz swpflg) where
  random := Memphy.create_rdmflg ramsz true
  small := by
    show (Memphy.create ramsz true).numfp ≤ 8192
    rwa [Memphy.numfp, Memphy.create_maxsz]
  parted := by
    show Parted (Memphy.create ramsz true).numfp (Memphy.create ramsz true).freeFpList
      (fun _ : ℕ × Fin pagingMaxPgn => none)
    rw [Memphy.create_freeFpList, Memphy.numfp, Memphy.create_maxsz]
    exact Parted.range (ramsz / 256)
  zeros f _ i _ := congrFun (create_storage ramsz true) (f * 256 + i)
  serves := by
    -- without a process there is no translation
    have hnone : ∀ p cell, behind (start ramsz swpsz swpflg).sys p cell = none := fun _ _ => rfl
    refine ⟨fun p q a b x hp => ?_, fun p a x hp => ?_, fun _ _ _ _ => rfl⟩
    · rw [hnone] at hp
      cases hp
    · rw [hnone] at hp
      cases hp

/-! ## Accesses -/

theorem phyaddr_behind (hc : s.caller p = some c) {addr : Addr}
    (hpresent : pagingPagePresent (c.mm.pgd (pagingPgn addr)) = true) :
    behind s p (cellOf addr) =
      some (Caller.phyaddr (pagingFpn (c.mm.pgd (pagingPgn addr))) addr).toNat := by
  rw [Caller.phyaddr_toNat (pagingFpn_lt _)]
  simp [behind, inFrames, cellOf, holds, (caller_spec hc).2.1, presentFrame, hpresent]

theorem pgGetval_behind (h : s.FramesApart) (hram : s.mram.rdmflg = true)
    (hc : s.caller p = some c) {addr : Addr}
    (hpresent : pagingPagePresent (c.mm.pgd (pagingPgn addr)) = true) :
    ∃ b, behind s p (cellOf addr) = some b ∧
      c.pgGetval addr = some (some (s.mram.storage b), c) := by
  refine ⟨_, phyaddr_behind hc hpresent, ?_⟩
  have hin := h.inBounds hc hpresent
  rw [← (caller_spec hc).2.2.1] at hram hin ⊢
  simp only [Caller.pgGetval, Caller.pgGetpage_present hpresent, Memphy.read_of_random hram hin,
    Option.map_some]

theorem pgSetval_behind (h : s.FramesApart) (hram : s.mram.rdmflg = true)
    (hc : s.caller p = some c) {addr : Addr}
    (hpresent : pagingPagePresent (c.mm.pgd (pagingPgn addr)) = true) (data : Byte) :
    ∃ b, behind s p (cellOf addr) = some b ∧
      c.pgSetval addr data = some (0, PagingSys.stored c b data) := by
  refine ⟨_, phyaddr_behind hc hpresent, ?_⟩
  have hin := h.inBounds hc hpresent
  rw [← (caller_spec hc).2.2.1] at hram hin
  simp only [Caller.pgSetval, Caller.pgGetpage_present hpresent,
    Memphy.write_of_random hram hin, Option.map_some, PagingSys.stored]

theorem Inv.isPrivate (h : Inv st) : Private st where
  read p c rgid i offset hc hentry hpresent := by
    rcases pgGetval_behind h.framesApart h.random hc hpresent with ⟨b, hb, hget⟩
    simp only [Caller.read, hentry, hget, Option.map_some]
    rw [h.serves.backs p _ b hb]
  write p c addr data hc hpresent := by
    rcases pgSetval_behind h.framesApart h.random hc hpresent data with ⟨b, _, hset⟩
    exact ⟨_, hset, rfl⟩

/-- An access that takes no swap frame hits a present page, or fails and changes no entry. -/
theorem pgGetpage_noSwap {pgn : Fin pagingMaxPgn} {fpn : Option Addr} (hno : c.NeedsNoSwap pgn)
    (h : c.pgGetpage pgn = some (fpn, c')) :
    pagingPagePresent (c.mm.pgd pgn) = true ∨
      pagingPagePresent (c.mm.pgd pgn) = false ∧ fpn = none ∧ c'.mm.pgd = c.mm.pgd ∧
        c'.mram = c.mram := by
  cases Caller.pgGetpage_got h with
  | present hpresent => exact Or.inl hpresent
  | noVictim habsent _ => exact Or.inr ⟨habsent, rfl, rfl, rfl⟩
  | noFrame habsent _ _ => exact Or.inr ⟨habsent, rfl, rfl, rfl⟩
  | fault habsent hfifo hfree _ =>
      -- it would take one
      simp [Caller.NeedsNoSwap, habsent, hfifo, hfree] at hno

/-! ## What a call does -/

/-- The effect of a call without fault on the frames of RAM and the bytes in them. -/
inductive Change (s : PagingSys) : Option (ℕ × Cell × Byte) → PagingSys → Prop
  | initMm : Change s none { s with procs := s.procs ++ [some loaded] }
  /-- no entry changes; frames may be lost -/
  | same {p : ℕ} {c c' : Caller} {free : List ℕ} (hc : s.caller p = some c)
      (hpgd : c'.mm.pgd = c.mm.pgd) (hfree : free.Sublist c.mram.freeFpList)
      (hram : c'.mram = { c.mram with freeFpList := free }) : Change s none (s.setCaller p c')
  | mapped {p n : ℕ} {c c' : Caller} (hc : s.caller p = some c)
      (hn : n ≤ c.mram.freeFpList.length)
      (habsent : ∀ i < n, pagingPagePresent (c.mm.pgd (c.growPgn i)) = false)
      (hram : c'.mram = { c.mram with freeFpList := c.mram.freeFpList.drop n })
      (hpgd : c'.mm.pgd = Mm.mapFrames (c.mm.mmap.vmEnd.setWidth 32) n 0
        (c.mram.freeFpList.take n) c.mm.pgd) : Change s none (s.setCaller p c')
  | written {p b : ℕ} {c : Caller} {cell : Cell} {data : Byte} (hc : s.caller p = some c)
      (hb : behind s p cell = some b) :
      Change s (some (p, cell, data)) (s.setCaller p (PagingSys.stored c b data))
  | finish {p : ℕ} {c : Caller} (hc : s.caller p = some c) :
      Change s none { s with procs := s.procs.set p none }

theorem same_self (hc : s.caller p = some c) (hpgd : c'.mm.pgd = c.mm.pgd)
    (hram : c'.mram = c.mram) : Change s none (s.setCaller p c') :=
  .same hc hpgd (List.Sublist.refl _) hram

/-- A growth that maps fresh pages, if it maps any. -/
theorem grown_change {vmaid incSz : Addr} (hc : s.caller p = some c)
    (hpgd : c'.mm.pgd = (c.incVmaLimit vmaid incSz).2.mm.pgd)
    (hram : c'.mram = (c.incVmaLimit vmaid incSz).2.mram) (hfresh : MapsFresh c vmaid incSz) :
    Change s none (s.setCaller p c') := by
  have hgot := c.incVmaLimit_got vmaid incSz
  generalize c.incVmaLimit vmaid incSz = r at hgot hpgd hram
  cases hgot with
  | refused | negative => exact same_self hc hpgd hram
  | short => exact .same hc hpgd (List.nil_sublist _) hram
  | enough hmay hpos henough =>
      have hn : ((Caller.growPages incSz).toNat : ℤ) = Caller.growPages incSz :=
        Int.toNat_of_nonneg hpos
      refine .mapped hc henough (hfresh hmay henough) hram ?_
      rw [hpgd, hn]
      rfl

/-- A page that is not present is neither read nor written. -/
theorem pgGetval_absent {addr : Addr} {data : Option Byte}
    (hno : c.NeedsNoSwap (pagingPgn addr))
    (habsent : pagingPagePresent (c.mm.pgd (pagingPgn addr)) = false)
    (h : c.pgGetval addr = some (data, c')) : c'.mm.pgd = c.mm.pgd ∧ c'.mram = c.mram := by
  unfold Caller.pgGetval at h
  split at h
  · cases h
  · rename_i c₁ hpage
    obtain ⟨_, rfl⟩ := Prod.mk.inj (Option.some.inj h)
    rcases pgGetpage_noSwap hno hpage with hpresent | ⟨_, _, hsame⟩
    · simp [habsent] at hpresent
    · exact hsame
  · rename_i fpn c₁ hpage
    rcases pgGetpage_noSwap hno hpage with hpresent | ⟨_, hnone, _⟩
    · simp [habsent] at hpresent
    · cases hnone

theorem pgSetval_absent {addr : Addr} {value : Byte} {ret : Int}
    (hno : c.NeedsNoSwap (pagingPgn addr))
    (habsent : pagingPagePresent (c.mm.pgd (pagingPgn addr)) = false)
    (h : c.pgSetval addr value = some (ret, c')) : c'.mm.pgd = c.mm.pgd ∧ c'.mram = c.mram := by
  unfold Caller.pgSetval at h
  split at h
  · cases h
  · rename_i c₁ hpage
    obtain ⟨_, rfl⟩ := Prod.mk.inj (Option.some.inj h)
    rcases pgGetpage_noSwap hno hpage with hpresent | ⟨_, _, hsame⟩
    · simp [habsent] at hpresent
    · exact hsame
  · rename_i fpn c₁ hpage
    rcases pgGetpage_noSwap hno hpage with hpresent | ⟨_, hnone, _⟩
    · simp [habsent] at hpresent
    · cases hnone

theorem read_change {rgid offset : Addr} {r : Int × Option Byte} (hin : s.FramesApart)
    (hrandom : s.mram.rdmflg = true) (hc : s.caller p = some c)
    (hno : c.RegionNeedsNoSwap rgid offset) (h : c.read rgid offset = some (r, c')) :
    Change s none (s.setCaller p c') := by
  unfold Caller.read at h
  split at h
  · obtain ⟨_, rfl⟩ := Prod.mk.inj (Option.some.inj h)
    exact same_self hc rfl rfl
  · cases h
  · rename_i i hentry
    rcases Option.map_eq_some_iff.1 h with ⟨⟨data, c₁⟩, hget, heq⟩
    obtain ⟨_, rfl⟩ := Prod.mk.inj heq
    cases hpresent : pagingPagePresent (c.mm.pgd (pagingPgn (c.rgAddr i offset))) with
    | true =>
        rcases pgGetval_behind hin hrandom hc hpresent with ⟨b, _, hval⟩
        rw [hval] at hget
        obtain ⟨_, rfl⟩ := Prod.mk.inj (Option.some.inj hget)
        exact same_self hc rfl rfl
    | false =>
        rcases pgGetval_absent (hno i hentry) hpresent hget with ⟨hpgd, hram⟩
        exact same_self hc hpgd hram

theorem write_change {rgid offset : Addr} {data : Byte} {ret : Int} (hin : s.FramesApart)
    (hrandom : s.mram.rdmflg = true) (hc : s.caller p = some c)
    (hno : c.RegionNeedsNoSwap rgid offset) (h : c.write rgid offset data = some (ret, c')) :
    Change s (newEntry s (.libwrite p data rgid offset)) (s.setCaller p c') := by
  unfold Caller.write at h
  split at h
  · rename_i hnull
    obtain ⟨_, rfl⟩ := Prod.mk.inj (Option.some.inj h)
    simp only [newEntry, hc, hnull]
    exact same_self hc rfl rfl
  · cases h
  · rename_i i hentry
    rcases Option.map_eq_some_iff.1 h with ⟨⟨val, c₁⟩, hset, heq⟩
    obtain ⟨_, rfl⟩ := Prod.mk.inj heq
    cases hpresent : pagingPagePresent (c.mm.pgd (pagingPgn (c.rgAddr i offset))) with
    | true =>
        rcases pgSetval_behind hin hrandom hc hpresent data with ⟨b, hb, hval⟩
        rw [hval] at hset
        obtain ⟨_, rfl⟩ := Prod.mk.inj (Option.some.inj hset)
        simp only [newEntry, hc, hentry, hpresent, if_true]
        exact .written hc hb
    | false =>
        rcases pgSetval_absent (hno i hentry) hpresent hset with ⟨hpgd, hram⟩
        simp only [newEntry, hc, hentry, hpresent, Bool.false_eq_true, if_false]
        exact same_self hc hpgd hram

/-- Every call without fault is one of these changes. -/
theorem Inv.change (h : Inv st) {op : Op} {s' : PagingSys} (hexec : st.sys.exec op = some s')
    (hok : Faultless st.sys op) : Change st.sys (newEntry st.sys op) s' := by
  rcases Option.map_eq_some_iff.1 hexec with ⟨⟨ret, s₁⟩, hperform, rfl⟩
  cases op with
  | initMm =>
      obtain ⟨_, rfl⟩ := Prod.mk.inj (Option.some.inj hperform)
      exact .initMm
  | liballoc p size regIndex =>
      rcases onProc_eq hperform with ⟨c, c', hc, hcall, rfl⟩
      rcases Option.map_eq_some_iff.1 hcall with ⟨⟨addr, c₁⟩, halloc, heq⟩
      obtain ⟨_, rfl⟩ := Prod.mk.inj heq
      by_cases hlist : c.mm.mmap.vmFreergList = none
      · rcases Caller.alloc_grows hlist halloc with ⟨hpgd, hram, _⟩
        exact grown_change hc hpgd hram (hok c hc hlist)
      · -- the region comes out of the free list
        rcases Caller.alloc_listed_cases hlist halloc with ⟨i, bounds, mm, _, hprobed, _, rfl⟩
        have hpgd := (Mm.probed_sameButNodes hprobed).pgd
        exact same_self hc ((Mm.setRg_pgd mm _ _).trans hpgd) rfl
  | libfree p regIndex =>
      rcases onProc_eq hperform with ⟨c, c', hc, hcall, rfl⟩
      cases Caller.free_freed hcall with
      | refused => exact same_self hc rfl rfl
      | freed _ _ => exact same_self hc rfl rfl
  | libread p source offset destination =>
      rcases onProc_eq hperform with ⟨c, c', hc, hcall, rfl⟩
      rcases Option.map_eq_some_iff.1 hcall with ⟨⟨⟨val, dest⟩, c₁⟩, hlibread, heq⟩
      obtain ⟨_, rfl⟩ := Prod.mk.inj heq
      rcases Option.map_eq_some_iff.1 hlibread with ⟨⟨⟨val', data⟩, c₂⟩, hread, heq⟩
      obtain ⟨_, rfl⟩ := Prod.mk.inj heq
      exact read_change h.framesApart h.random hc (hok c hc) hread
  | libwrite p data destination offset =>
      rcases onProc_eq hperform with ⟨c, c', hc, hcall, rfl⟩
      exact write_change h.framesApart h.random hc (hok c hc) hcall
  | incVmaLimit p vmaid incSz =>
      rcases onProc_eq hperform with ⟨c, c', hc, hcall, rfl⟩
      obtain ⟨_, rfl⟩ := Prod.mk.inj (Option.some.inj hcall)
      exact grown_change hc rfl rfl (hok c hc)
  | finish p =>
      rcases Option.map_eq_some_iff.1 hperform with ⟨c, hc, heq⟩
      obtain ⟨_, rfl⟩ := Prod.mk.inj heq
      exact .finish hc

/-! ## Mapping -/

theorem presentFrame_pteSetFpn (pte : Addr) {f : ℕ} (h : f < 8192) :
    presentFrame (pteSetFpn pte (BitVec.ofNat 32 f)) = some f := by
  have hfpn := pagingFpn_pteSetFpn pte (BitVec.ofNat 32 f)
  have hnat : (BitVec.ofNat 32 f).toNat % 8192 = f := by
    rw [BitVec.toNat_ofNat]
    omega
  rw [hnat] at hfpn
  simp [presentFrame, pagingPagePresent_pteSetFpn, hfpn]

/-- Run lemma for the mapping loop: absent pages get frames from the free list, one each. -/
theorem parted_mapFrames {dirs : ℕ → Option (Fin pagingMaxPgn → Addr)} {m : ℕ} {free : List ℕ}
    (addr : Addr) (pgnum : ℤ) : ∀ (frames : List ℕ) (i : ℕ) (pgd : Fin pagingMaxPgn → Addr),
      Parted m (frames ++ free) (holds presentFrame (Function.update dirs p (some pgd))) →
      (∀ f ∈ frames, f < 8192) → i + frames.length ≤ 8192 → ((i + frames.length : ℕ) : ℤ) ≤ pgnum →
      (∀ j, i ≤ j → j < i + frames.length →
        pagingPagePresent (pgd (pagingPgn (addr + BitVec.ofNat 32 j * pagingPagesz))) = false) →
      Parted m free (holds presentFrame
          (Function.update dirs p (some (Mm.mapFrames addr pgnum i frames pgd)))) ∧
        Handed frames (holds presentFrame (Function.update dirs p (some pgd)))
          (holds presentFrame
            (Function.update dirs p (some (Mm.mapFrames addr pgnum i frames pgd)))) := by
  intro frames
  induction frames with
  | nil =>
      intro i pgd h _ _ _ _
      exact ⟨h, Handed.refl _⟩
  | cons f frames ih =>
      intro i pgd h hsmall hlen hnum hpages
      simp only [List.length_cons] at hlen hnum hpages
      have hi : (i : ℤ) < pgnum := by omega
      simp only [Mm.mapFrames, hi, if_true]
      have hnone : holds presentFrame (Function.update dirs p (some pgd))
          (p, pagingPgn (addr + BitVec.ofNat 32 i * pagingPagesz)) = none := by
        simp [holds, presentFrame, hpages i (Nat.le_refl i) (by omega)]
      have hassign := Parted.assign h hnone
      have hentry := presentFrame_pteSetFpn
        (pgd (pagingPgn (addr + BitVec.ofNat 32 i * pagingPagesz)))
        (hsmall f (List.mem_cons_self ..))
      rw [← hentry, ← holds_update] at hassign
      -- the pages still to come are other ones
      have hrest := ih (i + 1) _ hassign (fun g hg => hsmall g (List.mem_cons_of_mem f hg))
        (by omega) (by omega) fun j hij hj => by
          have hne : pagingPgn (addr + BitVec.ofNat 32 j * pagingPagesz) ≠
              pagingPgn (addr + BitVec.ofNat 32 i * pagingPagesz) := by
            intro heq
            have := pagingPgn_injective (by omega) (by omega) heq
            omega
          rw [Function.update_of_ne hne]
          exact hpages j (by omega) (by omega)
      refine ⟨hrest.1, Handed.cons hnone ?_⟩
      rw [← hentry, ← holds_update]
      exact hrest.2

/-! ## Steps -/

theorem live_of_holds {q : ℕ} {pgn : Fin pagingMaxPgn} {f : ℕ}
    (h : holds presentFrame s.directory (q, pgn) = some f) : Live s q := by
  rcases Option.bind_eq_some_iff.1 h with ⟨pgd, hpgd, _⟩
  rcases Option.map_eq_some_iff.1 hpgd with ⟨pm, hpm, _⟩
  intro hended
  rw [hended] at hpm
  cases hpm

theorem live_setCaller (hc : s.caller p = some c) (c' : Caller) {q : ℕ} :
    Live (s.setCaller p c') q → Live s q := by
  intro hlive hended
  by_cases hq : q = p
  · subst hq
    simp [caller, hended] at hc
  · exact hlive (by simpa [setCaller, List.getElem?_set_ne (Ne.symm hq)] using hended)

/-- The step loses frames, entries or a process, if anything. -/
theorem Inv.lose (h : Inv st) {s' : PagingSys} {free : List ℕ}
    (hfree : free.Sublist st.sys.mram.freeFpList)
    (hram : s'.mram = { st.sys.mram with freeFpList := free })
    (hnames : ∀ k f, holds presentFrame s'.directory k = some f →
      holds presentFrame st.sys.directory k = some f)
    (hlive : ∀ p, Live s' p → Live st.sys p ∧
      ∀ pgn, holds presentFrame s'.directory (p, pgn) =
        holds presentFrame st.sys.directory (p, pgn)) : Inv ⟨s', st.stored⟩ where
  random := by
    rw [hram]
    exact h.random
  small := by
    rw [hram]
    exact h.small
  parted := by
    rw [hram]
    exact h.parted.lose hfree hnames
  zeros f hf i hi := by
    rw [hram] at hf ⊢
    exact h.zeros f (hfree.subset hf) i hi
  serves := by
    rw [hram]
    refine h.serves.drop (fun p cell b hb => ?_) fun p hp => ⟨(hlive p hp).1, ?_⟩
    · rcases Option.map_eq_some_iff.1 hb with ⟨f, hf, rfl⟩
      exact Option.map_eq_some_iff.2 ⟨f, hnames _ f hf, rfl⟩
    · funext cell
      simp only [behind, inFrames, (hlive p hp).2 cell.1]

theorem Inv.initMm (h : Inv st) :
    Inv ⟨{ st.sys with procs := st.sys.procs ++ [some loaded] }, st.stored⟩ := by
  have hnames : ∀ p pgn, holds presentFrame
      ({ st.sys with procs := st.sys.procs ++ [some loaded] } : PagingSys).directory (p, pgn) =
        holds presentFrame st.sys.directory (p, pgn) := by
    intro q pgn
    -- an old process, the new one, or no process
    rcases Nat.lt_trichotomy q st.sys.procs.length with hlt | rfl | hgt
    · simp [holds, directory, List.getElem?_append_left hlt]
    · have hzero : presentFrame 0#32 = none := by decide
      simpa [holds, directory, loaded, Mm.initMm, Mm.zeroed] using hzero
    · have hnew : (st.sys.procs ++ [some loaded])[q]? = none :=
        List.getElem?_eq_none (by simpa using hgt)
      simp [holds, directory, hnew, List.getElem?_eq_none hgt.le]
  refine h.lose (List.Sublist.refl _) rfl (fun k f hk => hnames k.1 k.2 ▸ hk) fun q hq =>
    ⟨fun hended => hq ?_, hnames q⟩
  have hlt : q < st.sys.procs.length := by
    by_contra hge
    rw [List.getElem?_eq_none (not_lt.1 hge)] at hended
    cases hended
  rw [List.getElem?_append_left hlt]
  exact hended

theorem Inv.same (h : Inv st) {free : List ℕ} (hc : st.sys.caller p = some c)
    (hpgd : c'.mm.pgd = c.mm.pgd) (hfree : free.Sublist c.mram.freeFpList)
    (hram : c'.mram = { c.mram with freeFpList := free }) :
    Inv ⟨st.sys.setCaller p c', st.stored⟩ := by
  rcases caller_spec hc with ⟨hp, _, hmram, _⟩
  have hdir : (st.sys.setCaller p c').directory = st.sys.directory := by
    rw [directory_setCaller hp, hpgd, directory_update_self hc]
  refine h.lose (hmram ▸ hfree) (hmram ▸ hram) (fun k f hk => ?_)
    fun q hq => ⟨live_setCaller hc c' hq, fun pgn => ?_⟩
  · rwa [hdir] at hk
  · rw [hdir]

theorem Inv.finish (h : Inv st) (hc : st.sys.caller p = some c) :
    Inv ⟨{ st.sys with procs := st.sys.procs.set p none }, st.stored⟩ := by
  have hp := (caller_spec hc).1
  refine h.lose (List.Sublist.refl _) rfl (fun k f hk => ?_) fun q hq => ?_
  · rw [directory_finish] at hk
    by_cases hkp : k.1 = p
    · simp [holds, hkp] at hk
    · simpa [holds, Function.update_of_ne hkp] using hk
  · have hne : q ≠ p := by
      rintro rfl
      exact hq (by simp [hp])
    refine ⟨fun hended => hq ?_, fun pgn => ?_⟩
    · simpa [List.getElem?_set_ne (Ne.symm hne)] using hended
    · simp [directory_finish, holds, Function.update_of_ne hne]

theorem Inv.mapped (h : Inv st) {n : ℕ} (hc : st.sys.caller p = some c)
    (hn : n ≤ c.mram.freeFpList.length)
    (habsent : ∀ i < n, pagingPagePresent (c.mm.pgd (c.growPgn i)) = false)
    (hram : c'.mram = { c.mram with freeFpList := c.mram.freeFpList.drop n })
    (hpgd : c'.mm.pgd = Mm.mapFrames (c.mm.mmap.vmEnd.setWidth 32) n 0
      (c.mram.freeFpList.take n) c.mm.pgd) : Inv ⟨st.sys.setCaller p c', st.stored⟩ := by
  rcases caller_spec hc with ⟨hp, _, hmram, _⟩
  rw [hmram] at hn hram hpgd
  have hram' : (st.sys.setCaller p c').mram =
      { st.sys.mram with freeFpList := st.sys.mram.freeFpList.drop n } := hram
  have hsplit := List.take_append_drop n st.sys.mram.freeFpList
  have hlen : (st.sys.mram.freeFpList.take n).length = n := List.length_take_of_le hn
  have hsmall : ∀ f ∈ st.sys.mram.freeFpList.take n, f < 8192 := fun f hf =>
    (h.parted.free_lt f (List.mem_of_mem_take hf)).trans_le h.small
  -- no more than 8192 different frames have numbers below 8192
  have hbound : (st.sys.mram.freeFpList.take n).length ≤ 8192 :=
    length_le_of_nodup ((List.take_sublist _ _).nodup h.parted.nodup) hsmall
  have hbefore : Parted st.sys.mram.numfp
      (st.sys.mram.freeFpList.take n ++ st.sys.mram.freeFpList.drop n)
      (holds presentFrame (Function.update st.sys.directory p (some c.mm.pgd))) := by
    rw [hsplit, directory_update_self hc]
    exact h.parted
  have hboth := parted_mapFrames (c.mm.mmap.vmEnd.setWidth 32) n _ 0 c.mm.pgd hbefore hsmall
    (by omega) (by omega) fun j _ hj => habsent j (by omega)
  rw [directory_update_self hc, ← hpgd, ← directory_setCaller hp] at hboth
  rcases hboth with ⟨hparted, hhanded⟩
  refine ⟨?_, ?_, ?_, fun f hf i hi => ?_, ?_⟩
  · rw [hram']
    exact h.random
  · rw [hram']
    exact h.small
  · rw [hram']
    exact hparted
  · rw [hram'] at hf ⊢
    exact h.zeros f (List.mem_of_mem_drop hf) i hi
  · rw [hram']
    -- the new pages are in frames that were free, so they are filled with zeros
    refine (h.serves.extend (inFrames_exclusive hparted.injective) (fun q cell b hb => ?_)
      fun q cell b hb => ?_).drop (fun _ _ _ hb => hb) fun q hq => ⟨live_setCaller hc c' hq, rfl⟩
    · rcases Option.map_eq_some_iff.1 hb with ⟨f, hf, rfl⟩
      exact Option.map_eq_some_iff.2 ⟨f, hhanded.keeps _ f hf, rfl⟩
    · rcases Option.map_eq_some_iff.1 hb with ⟨f, hf, rfl⟩
      rcases hhanded.fresh _ f hf with hold | ⟨hnone, hmem⟩
      · exact Or.inl (Option.map_eq_some_iff.2 ⟨f, hold, rfl⟩)
      · refine Or.inr ⟨live_setCaller hc c' (live_of_holds hf), ?_,
          h.zeros f (List.mem_of_mem_take hmem) cell.2.val cell.2.isLt⟩
        simp only [behind, inFrames, hnone, Option.map_none]

theorem Inv.written (h : Inv st) {b : ℕ} {cell : Cell} (hc : st.sys.caller p = some c)
    (hb : behind st.sys p cell = some b) (data : Byte) :
    Inv ⟨st.sys.setCaller p (PagingSys.stored c b data), (p, cell, data) :: st.stored⟩ := by
  have hdir := directory_stored hc b data
  have hmram := (caller_spec hc).2.2.1
  have hram : (st.sys.setCaller p (PagingSys.stored c b data)).mram =
      { st.sys.mram with storage := Function.update st.sys.mram.storage b data } := by
    simp [setCaller, PagingSys.stored, hmram]
  refine ⟨?_, ?_, ?_, fun f hf i hi => ?_, ?_⟩
  · rw [hram]
    exact h.random
  · rw [hram]
    exact h.small
  · rw [hram, hdir]
    exact h.parted
  · rw [hram] at hf ⊢
    -- the byte written to is in a frame that is not free
    rcases Option.map_eq_some_iff.1 hb with ⟨g, hg, rfl⟩
    have hne : f * 256 + i ≠ g * 256 + cell.2.val := by
      intro heq
      have hoff := cell.2.isLt
      obtain rfl : f = g := by omega
      exact h.parted.not_free _ f hg hf
    dsimp only
    rw [Function.update_of_ne hne]
    exact h.zeros f hf i hi
  · have hbehind : behind (st.sys.setCaller p (PagingSys.stored c b data)) = behind st.sys := by
      rw [behind, hdir, behind]
    rw [hram, hbehind]
    exact (h.serves.write hb data).drop (fun _ _ _ hx => hx) fun q hq =>
      ⟨live_setCaller hc _ hq, rfl⟩

/-- Step lemma. -/
theorem Inv.exec (h : Inv st) {op : Op} {st' : State} (hexec : exec st op = some st')
    (hok : Faultless st.sys op) : Inv st' := by
  rcases Option.map_eq_some_iff.1 hexec with ⟨s', hsys, rfl⟩
  have hchange := h.change hsys hok
  generalize newEntry st.sys op = entry at hchange
  cases hchange with
  | initMm => exact h.initMm
  | same hc hpgd hfree hram => exact h.same hc hpgd hfree hram
  | mapped hc hn habsent hram hpgd => exact h.mapped hc hn habsent hram hpgd
  | written hc hb => exact h.written hc hb _
  | finish hc => exact h.finish hc

/-! ## Runs -/

/-- For every size of RAM and swap within the thirteen bits of a frame number, every number of
processes and every interleaving of their calls, up to the first undefined one, in which no page
fault takes a swap frame and no page is mapped twice: the paged memory is one private memory per
process. -/
theorem faultless_private {ramsz : Nat} (hram : ramsz / 256 ≤ 8192) (swpsz : Nat) (swpflg : Bool)
    (ops : List Op)
    (hok : AllSteps (fun st op => Faultless st.sys op) (start ramsz swpsz swpflg)
      (traceFn exec (start ramsz swpsz swpflg) ops)) :
    AllStates Private (start ramsz swpsz swpflg)
      (traceFn exec (start ramsz swpsz swpflg) ops) := by
  rcases run_traceFn exec (start ramsz swpsz swpflg) ops with ⟨t, hrun⟩
  have hinv := hrun.allStates_of_allSteps (I := Inv) (fun h hexec hgood => h.exec hexec hgood)
    hok (start_inv hram swpsz swpflg)
  exact ⟨hinv.1.isPrivate, fun x hx => (hinv.2 x hx).isPrivate⟩

/-- Two processes get a page each and write to the same offset, and the first one ends. -/
def twoWriters : List Op :=
  [.initMm, .initMm, .incVmaLimit 0 0 256#32, .incVmaLimit 1 0 256#32, .libwrite 0 5 0 7,
    .libwrite 1 9 0 7, .finish 0]

theorem twoWriters_private :
    (runFn exec (start 512 512 true) twoWriters).map State.stored =
        some [(1, cellOf 7, 9), (0, cellOf 7, 5)] ∧
      AllStates Private (start 512 512 true) (traceFn exec (start 512 512 true) twoWriters) :=
  ⟨by decide +kernel, faultless_private (by decide) 512 true twoWriters (by decide +kernel)⟩

end PrivateBytes
end MiniOs
