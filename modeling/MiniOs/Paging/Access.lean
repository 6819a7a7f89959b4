import MiniOs.Paging.Effects

/-!
# Access — when a page access stays inside the arrays

`pg_getval` and `pg_setval` have an outcome exactly when no byte outside the storage of a device
is touched: neither by the access itself, nor by the two copies of a page fault.  An access to a
region needs an entry of the region table as well.
-/

namespace MiniOs

/-! ## Copies -/

/-- A copy reads a random access device, and neither side leaves its array. -/
def CopyInBounds (mpsrc : Memphy) (srcfpn : Addr) (mpdst : Memphy) (dstfpn : Addr) : Prop :=
  mpsrc.rdmflg = true ∧ ∀ cellidx < 256,
    mpsrc.InBounds (srcfpn * pagingPagesz + BitVec.ofNat 32 cellidx) ∧
      (mpdst.rdmflg = true → mpdst.InBounds (dstfpn * pagingPagesz + BitVec.ofNat 32 cellidx))

namespace Memphy

theorem SameFrame.inBounds_iff {mp mp' : Memphy} (h : mp.SameFrame mp') (addr : Addr) :
    mp'.InBounds addr ↔ mp.InBounds addr := by
  simp [InBounds, h.maxsz]

/-- A read that gives a byte was made on a random access device, inside its array. -/
theorem read_eq_some_iff (mp : Memphy) (addr : Addr) :
    (∃ data mp', mp.read addr = some (some data, mp')) ↔ mp.rdmflg = true ∧ mp.InBounds addr := by
  -- a sequential device refuses, so there is no byte
  unfold read seqRead
  cases hflag : mp.rdmflg with
  | false => simp
  | true => by_cases hin : mp.InBounds addr <;> simp [hin]

end Memphy

theorem swapCpCell_isSome_iff (mpsrc mpdst : Memphy) (srcfpn dstfpn : Addr) (cellidx : Nat) :
    (swapCpCell mpsrc srcfpn dstfpn mpdst cellidx).isSome ↔
      mpsrc.rdmflg = true ∧
        mpsrc.InBounds (srcfpn * pagingPagesz + BitVec.ofNat 32 cellidx) ∧
          (mpdst.rdmflg = true →
            mpdst.InBounds (dstfpn * pagingPagesz + BitVec.ofNat 32 cellidx)) := by
  have hread := mpsrc.read_eq_some_iff (srcfpn * pagingPagesz + BitVec.ofNat 32 cellidx)
  have hwrite := mpdst.write_isSome_iff (dstfpn * pagingPagesz + BitVec.ofNat 32 cellidx)
  unfold swapCpCell
  -- after a byte was read, the write decides; without one, the round has no outcome
  split
  · rename_i data mp' heq
    have hsrc := hread.1 ⟨data, mp', heq⟩
    simp [hsrc, hwrite]
  · rename_i hnone
    have hsrc : ¬ (mpsrc.rdmflg = true ∧
        mpsrc.InBounds (srcfpn * pagingPagesz + BitVec.ofNat 32 cellidx)) := by
      intro hin
      rcases hread.2 hin with ⟨data, mp', heq⟩
      exact hnone data mp' heq
    simp only [Option.isSome_none, Bool.false_eq_true, false_iff]
    exact fun hall => hsrc ⟨hall.1, hall.2.1⟩

/-- The rounds of a copy are all defined or the copy is not: no round changes what the later
ones depend on. -/
theorem foldlM_swapCpCell_isSome_iff (mpsrc : Memphy) (srcfpn dstfpn : Addr) (cells : List Nat)
    (mpdst : Memphy) :
    (cells.foldlM (swapCpCell mpsrc srcfpn dstfpn) mpdst).isSome ↔
      ∀ cellidx ∈ cells, (swapCpCell mpsrc srcfpn dstfpn mpdst cellidx).isSome := by
  induction cells generalizing mpdst with
  | nil => simp
  | cons cell cells ih =>
      rw [List.foldlM_cons]
      cases hcell : swapCpCell mpsrc srcfpn dstfpn mpdst cell with
      | none => simp [hcell]
      | some mp =>
          -- the device after the first round has the same bounds, so the later rounds do not notice
          have hsame := swapCpCell_sameFrame hcell
          have hfirst := (swapCpCell_isSome_iff mpsrc mpdst srcfpn dstfpn cell).1 (by simp [hcell])
          simp only [Option.bind_eq_bind, Option.bind_some, ih, List.mem_cons, forall_eq_or_imp,
            swapCpCell_isSome_iff, hsame.rdmflg, hsame.inBounds_iff]
          exact (and_iff_right hfirst).symm

theorem swapCpPage_isSome_iff (mpsrc mpdst : Memphy) (srcfpn dstfpn : Addr) :
    (swapCpPage mpsrc srcfpn mpdst dstfpn).isSome ↔ CopyInBounds mpsrc srcfpn mpdst dstfpn := by
  simp only [swapCpPage, foldlM_swapCpCell_isSome_iff, swapCpCell_isSome_iff, List.mem_range,
    CopyInBounds]
  constructor
  · intro hall
    -- every round asks for the mode of the source, and there is a round
    exact ⟨(hall 0 (by decide)).1, fun cellidx hlt => (hall cellidx hlt).2⟩
  · intro hcopy cellidx hlt
    exact ⟨hcopy.1, hcopy.2 cellidx hlt⟩

theorem CopyInBounds.congr {mpsrc mpdst mpdst' : Memphy} (h : mpdst.SameFrame mpdst')
    (srcfpn dstfpn : Addr) :
    CopyInBounds mpsrc srcfpn mpdst' dstfpn ↔ CopyInBounds mpsrc srcfpn mpdst dstfpn := by
  simp [CopyInBounds, h.rdmflg, h.inBounds_iff]

namespace Caller

/-! ## Accesses -/

/-- The two copies of a page fault stay inside RAM and swap. -/
def FaultInBounds (c : Caller) (pgn vicpgn : Fin pagingMaxPgn) (swpfpn : Nat) : Prop :=
  CopyInBounds c.mram (BitVec.ofNat 32 vicpgn.val) c.activeMswp (BitVec.ofNat 32 swpfpn) ∧
    CopyInBounds c.mram (pagingSwp (c.mm.pgd pgn)) c.activeMswp (BitVec.ofNat 32 vicpgn.val)

/-- The page can be had without leaving an array. -/
def PageInBounds (c : Caller) (pgn : Fin pagingMaxPgn) : Prop :=
  pagingPagePresent (c.mm.pgd pgn) = true ∨
    ∀ vicpgn ∈ c.mm.fifoPgn.head?, ∀ swpfpn ∈ c.activeMswp.freeFpList.head?,
      c.FaultInBounds pgn vicpgn swpfpn

/-- The frame number that an access to page `pgn` uses, if it gets one. -/
def frameUsed (c : Caller) (pgn : Fin pagingMaxPgn) : Option Addr :=
  if pagingPagePresent (c.mm.pgd pgn) then some (pagingFpn (c.mm.pgd pgn))
  else
    match c.mm.fifoPgn, c.activeMswp.freeFpList with
    | vicpgn :: _, _ :: _ =>
        some (pagingFpn (ptePresent (c.mm.pgd pgn) (BitVec.ofNat 32 vicpgn.val)))
    | _, _ => none

/-- An access to `addr` touches no byte outside the arrays. -/
def AccessInBounds (c : Caller) (addr : Addr) : Prop :=
  c.PageInBounds (pagingPgn addr) ∧ ∀ fpn ∈ c.frameUsed (pagingPgn addr),
    c.mram.rdmflg = true → c.mram.InBounds (phyaddr fpn addr)

theorem mmSwapPage_isSome_iff (c : Caller) (vicfpn swpfpn : Addr) :
    (c.mmSwapPage vicfpn swpfpn).isSome ↔ CopyInBounds c.mram vicfpn c.activeMswp swpfpn := by
  simp [mmSwapPage, swapCpPage_isSome_iff]

theorem bringIn_isSome_iff (c : Caller) (pgn vicpgn : Fin pagingMaxPgn) (swpfpn : Nat) :
    (c.bringIn pgn vicpgn swpfpn).isSome ↔ c.FaultInBounds pgn vicpgn swpfpn := by
  have hout := c.mmSwapPage_isSome_iff (BitVec.ofNat 32 vicpgn.val) (BitVec.ofNat 32 swpfpn)
  unfold bringIn
  dsimp only
  -- the second copy goes to the device that the first one has written
  cases hcopy : c.mmSwapPage (BitVec.ofNat 32 vicpgn.val) (BitVec.ofNat 32 swpfpn) with
  | none =>
      rw [hcopy] at hout
      simp only [Option.bind_none, Option.isSome_none, Bool.false_eq_true, false_iff] at hout ⊢
      exact fun hfault => hout hfault.1
  | some c₁ =>
      rw [hcopy] at hout
      rcases Option.map_eq_some_iff.1 hcopy with ⟨mswp, hswap, rfl⟩
      have hin := mmSwapPage_isSome_iff { c with activeMswp := mswp } (pagingSwp (c.mm.pgd pgn))
        (BitVec.ofNat 32 vicpgn.val)
      simp only [Option.isSome_some, true_iff] at hout
      simp only [Option.bind_some, Option.isSome_map, hin, FaultInBounds, hout, true_and]
      exact CopyInBounds.congr (swapCpPage_sameFrame hswap) _ _

/-- `pg_getpage` has an outcome exactly when the page can be had; it leaves the RAM alone and
gives the frame number `frameUsed`. -/
theorem pgGetpage_isSome_iff (c : Caller) (pgn : Fin pagingMaxPgn) :
    (c.pgGetpage pgn).isSome ↔ c.PageInBounds pgn := by
  unfold PageInBounds
  cases hpresent : pagingPagePresent (c.mm.pgd pgn) with
  | true => simp [pgGetpage_present hpresent]
  | false =>
      -- without a victim or a swap frame nothing is copied
      cases hfifo : c.mm.fifoPgn with
      | nil => simp [pgGetpage_noVictim hpresent hfifo]
      | cons vicpgn rest =>
          cases hfree : c.activeMswp.freeFpList with
          | nil => simp [pgGetpage_noFrame hpresent hfifo hfree]
          | cons swpfpn frames =>
              simp only [pgGetpage_fault hpresent hfifo hfree, Option.isSome_map,
                bringIn_isSome_iff, false_or, List.head?_cons, Option.mem_some_iff, forall_eq',
                Bool.false_eq_true]
              rfl

theorem pgGetpage_frameUsed {c c' : Caller} {pgn : Fin pagingMaxPgn} {fpn : Option Addr}
    (h : c.pgGetpage pgn = some (fpn, c')) : fpn = c.frameUsed pgn ∧ c'.mram = c.mram := by
  cases pgGetpage_got h with
  | present hpresent => simp [frameUsed, hpresent]
  | noVictim habsent hfifo => simp [frameUsed, habsent, hfifo]
  | noFrame habsent hfifo hfree => simp [frameUsed, habsent, hfifo, hfree]
  | fault habsent hfifo hfree hbring =>
      -- the frame number is read from the new entry of the page
      rcases bringIn_eq hbring with ⟨hmram, _, hpgd⟩
      refine ⟨?_, hmram⟩
      simp [frameUsed, habsent, hfifo, hfree, hpgd]

/-- Reading a byte has an outcome exactly when no byte outside the arrays is touched. -/
theorem pgGetval_isSome_iff (c : Caller) (addr : Addr) :
    (c.pgGetval addr).isSome ↔ c.AccessInBounds addr := by
  have hpage := c.pgGetpage_isSome_iff (pagingPgn addr)
  unfold pgGetval AccessInBounds
  rw [← hpage]
  split
  · rename_i hnone
    simp [hnone]
  · rename_i c' hget
    rcases pgGetpage_frameUsed hget with ⟨hused, _⟩
    simp [hget, ← hused]
  · rename_i fpn c' hget
    rcases pgGetpage_frameUsed hget with ⟨hused, hmram⟩
    simp [hget, ← hused, hmram, Memphy.read_isSome_iff]

theorem pgSetval_isSome_iff (c : Caller) (addr : Addr) (value : Byte) :
    (c.pgSetval addr value).isSome ↔ c.AccessInBounds addr := by
  have hpage := c.pgGetpage_isSome_iff (pagingPgn addr)
  unfold pgSetval AccessInBounds
  rw [← hpage]
  split
  · rename_i hnone
    simp [hnone]
  · rename_i c' hget
    rcases pgGetpage_frameUsed hget with ⟨hused, _⟩
    simp [hget, ← hused]
  · rename_i fpn c' hget
    rcases pgGetpage_frameUsed hget with ⟨hused, hmram⟩
    simp [hget, ← hused, hmram, Memphy.write_isSome_iff]

/-- `P` holds of the address in region `rgid`, if there is one.  The entry one past the end of the
region table says nothing about its address. -/
def RegionAll (P : Caller → Addr → Prop) (c : Caller) (rgid offset : Addr) : Prop :=
  match getSymrgByid rgid with
  | .null => True
  | .pastEnd => False
  | .entry i => P c (c.rgAddr i offset)

/-- An access to a region has an outcome exactly when it stays inside the arrays. -/
theorem libread_isSome_iff (c : Caller) (rgid offset destination : Addr) :
    (c.libread rgid offset destination).isSome ↔ c.RegionAll AccessInBounds rgid offset := by
  unfold libread read RegionAll
  cases getSymrgByid rgid with
  | null => simp
  | pastEnd => simp
  | entry i => simp [pgGetval_isSome_iff]

theorem libwrite_isSome_iff (c : Caller) (data : Byte) (rgid offset : Addr) :
    (c.libwrite data rgid offset).isSome ↔ c.RegionAll AccessInBounds rgid offset := by
  unfold libwrite write RegionAll
  cases getSymrgByid rgid with
  | null => simp
  | pastEnd => simp
  | entry i => simp [pgSetval_isSome_iff]

/-- The region exists, and the access to it touches no byte outside the arrays. -/
def RegionInBounds (c : Caller) (rgid offset : Addr) : Prop :=
  ∃ i, getSymrgByid rgid = .entry i ∧ c.AccessInBounds (c.rgAddr i offset)

/-- `libread` returns 0 exactly when its access is inside the arrays; the result of `pg_getval` does
not matter. -/
theorem libread_zero_iff (c : Caller) (rgid offset destination : Addr) :
    (∃ dest c', c.libread rgid offset destination = some ((0, dest), c')) ↔
      c.RegionInBounds rgid offset := by
  unfold libread read RegionInBounds
  cases hsym : getSymrgByid rgid with
  | null => simp
  | pastEnd => simp
  | entry i =>
      simp only [SymPtr.entry.injEq, exists_eq_left', ← pgGetval_isSome_iff]
      cases hget : c.pgGetval (c.rgAddr i offset) with
      | none => simp
      | some r => simp

end Caller
end MiniOs
