import MiniOs.Paging.Failures
import MiniOs.Paging.Frames

/-!
# Contents — whose bytes a page fault delivers

The content of a page is the bytes of the frame its entry names: a RAM frame when the entry was last
set online, a swap frame when `pte_set_swap` set it last.  `pte_set_swap` sets the present bit too,
which is the bit `pg_getpage` tests.  A page in swap is therefore never brought in: its entry is
read as if it named a frame of RAM.
-/

namespace MiniOs

/-! ## Entries -/

/-- The entry was last set by `pte_set_swap`. -/
def SetSwapped (pte : Addr) : Prop := pagingPagePresent pte = true ∧ pageSwapped pte = true

instance (pte : Addr) : Decidable (SetSwapped pte) := inferInstanceAs (Decidable (_ ∧ _))

/-- The page has a frame, in RAM or in swap. -/
def Allocated (pte : Addr) : Prop := pageOnline pte = true ∨ SetSwapped pte

theorem setSwapped_pteSetSwap (pte swptyp swpoff : Addr) :
    SetSwapped (pteSetSwap pte swptyp swpoff) := by
  have hbits : ∀ i (hi : i < 32), 30 ≤ i →
      pagingPteSwptypMask[i] = false ∧ pagingPteSwpoffMask[i] = false := by decide
  -- both bits lie above the two fields and were set before
  constructor
  · have hmasks := hbits 31 (by decide) (by decide)
    have hpres : pagingPtePresentMask[31] = true := by decide
    rw [pagingPagePresent_eq, pteSetSwap, getElem_setval (by decide) hmasks.2,
      getElem_setval (by decide) hmasks.1]
    simp [hpres]
  · have hmasks := hbits 30 (by decide) (by decide)
    have hswap : pagingPteSwappedMask[30] = true := by decide
    rw [pageSwapped_eq, pteSetSwap, getElem_setval (by decide) hmasks.2,
      getElem_setval (by decide) hmasks.1]
    simp [hswap]

/-- An allocated page is present, wherever its frame is. -/
theorem Allocated.present {pte : Addr} (h : Allocated pte) : pagingPagePresent pte = true := by
  rcases h with honline | hswapped
  · simp only [pageOnline, Bool.and_eq_true] at honline
    exact honline.1
  · exact hswapped.1

theorem Allocated.setSwapped_of_offline {pte : Addr} (h : Allocated pte)
    (hoff : pageOnline pte = false) : SetSwapped pte := by
  refine h.resolve_left ?_
  simp [hoff]

/-! ## Contents -/

/-- The bytes of frame `f`. -/
def Memphy.frameBytes (mp : Memphy) (f : Nat) : List Byte :=
  (List.range 256).map fun i => mp.storage (f * 256 + i)

/-- The page that `pg_getpage` evicts for page `pgn`, if any. -/
def Caller.evicted (c : Caller) (pgn : Fin pagingMaxPgn) : Option (Fin pagingMaxPgn) :=
  if pagingPagePresent (c.mm.pgd pgn) ∨ c.activeMswp.freeFpList = [] then none
  else c.mm.fifoPgn.head?

namespace PagingSys

/-- The content of the page with the entry `pte`. -/
def content (s : PagingSys) (pte : Addr) : Option (List Byte) :=
  if pageOnline pte then some (s.mram.frameBytes (pagingFpn pte).toNat)
  else if SetSwapped pte then some (s.activeMswp.frameBytes (pagingSwp pte).toNat)
  else none

/-- No two pages share a frame. -/
structure OwnFrames (s : PagingSys) : Prop where
  ram : ∀ k l f, holds onlineFrame s.directory k = some f →
    holds onlineFrame s.directory l = some f → k = l
  swap : ∀ k l f, holds swapFrame s.directory k = some f →
    holds swapFrame s.directory l = some f → k = l

/-- What a page fault of process `p` for page `pgn` must not spoil, `c'` being the caller behind
it. -/
structure Delivered (s : PagingSys) (p : Nat) (pgn : Fin pagingMaxPgn) (c : Caller) (fpn : Addr)
    (c' : Caller) : Prop where
  /-- the page is in RAM, in the frame returned -/
  online : pageOnline (c'.mm.pgd pgn) = true ∧ pagingFpn (c'.mm.pgd pgn) = fpn
  /-- the frame has the bytes of the page -/
  bytes : some (c'.mram.frameBytes fpn.toNat) = s.content (c.mm.pgd pgn)
  /-- the evicted page is in swap, with its bytes -/
  victim : ∀ vicpgn ∈ c.evicted pgn, SetSwapped (c'.mm.pgd vicpgn) ∧
    (s.setCaller p c').content (c'.mm.pgd vicpgn) = s.content (c.mm.pgd vicpgn)
  /-- every other page of every process is where it was, with the same bytes -/
  others : ∀ q pgd m, s.directory q = some pgd → (q, m) ≠ (p, pgn) →
    (q = p → m ∉ c.evicted pgn) → ∃ pgd', (s.setCaller p c').directory q = some pgd' ∧
      pgd' m = pgd m ∧ (s.setCaller p c').content (pgd' m) = s.content (pgd m)

/-- `pg_getpage` of process `p` delivers page `pgn` and keeps the contents of all pages; and if
`pte_set_swap` set the entry, it does not return 0 with nothing brought in, as it does for a page
that is online. -/
def PreservesContents (s : PagingSys) (p : Nat) (pgn : Fin pagingMaxPgn) : Prop :=
  ∀ c, s.caller p = some c →
    (∀ fpn c', c.pgGetpage pgn = some (some fpn, c') → s.Delivered p pgn c fpn c') ∧
    (SetSwapped (c.mm.pgd pgn) → ∀ fpn, c.pgGetpage pgn ≠ some (some fpn, c))

/-- Process `p` as it is. -/
theorem setCaller_self {s : PagingSys} {p : Nat} {c : Caller} (h : s.caller p = some c) :
    s.setCaller p c = s := by
  rcases Option.map_eq_some_iff.1 h with ⟨pm, hpm, rfl⟩
  have hget : s.procs[p]? = some (some pm) := by simpa [Option.join_eq_some_iff] using hpm
  rcases List.getElem?_eq_some_iff.1 hget with ⟨hlt, hval⟩
  -- writing back what is there
  have hset : s.procs.set p (some pm) = s.procs := by
    rw [← hval]
    exact List.set_getElem_self hlt
  simp only [setCaller, hset]

/-- An online page is delivered without a fault. -/
theorem delivered_online {s : PagingSys} {p : Nat} {pgn : Fin pagingMaxPgn} {c : Caller}
    (hc : s.caller p = some c) (honline : pageOnline (c.mm.pgd pgn) = true) :
    s.Delivered p pgn c (pagingFpn (c.mm.pgd pgn)) c := by
  have hpresent := Allocated.present (Or.inl honline)
  refine ⟨⟨honline, rfl⟩, ?_, ?_, ?_⟩
  · simp [content, honline, (caller_spec hc).2.2.1]
  · -- nobody was evicted
    intro vicpgn hvic
    simp [Caller.evicted, hpresent] at hvic
  · intro q pgd m hdir _ _
    rw [setCaller_self hc]
    exact ⟨pgd, hdir, rfl, rfl⟩

/-- What `pg_getpage` makes of a page in swap: it succeeds at once, with the frame number read out
of the bits that hold the swap type and offset, and the page stays where it is. -/
theorem not_delivered_setSwapped (s : PagingSys) (p : Nat) {pgn : Fin pagingMaxPgn} {c : Caller}
    (h : SetSwapped (c.mm.pgd pgn)) :
    c.pgGetpage pgn = some (some (pagingFpn (c.mm.pgd pgn)), c) ∧
      ¬ s.Delivered p pgn c (pagingFpn (c.mm.pgd pgn)) c := by
  refine ⟨Caller.pgGetpage_present h.1, fun hdel => ?_⟩
  have honline := hdel.online.1
  simp [pageOnline, h.2] at honline

/-- For every system, every process and every allocated page: `pg_getpage` preserves the contents
exactly when the page is online already. -/
theorem preservesContents_iff {s : PagingSys} {p : Nat} {pgn : Fin pagingMaxPgn} {c : Caller}
    (hc : s.caller p = some c) (halloc : Allocated (c.mm.pgd pgn)) :
    s.PreservesContents p pgn ↔ pageOnline (c.mm.pgd pgn) = true := by
  constructor
  · intro hpres
    by_contra hoff
    -- a page in swap passes the test for presence, and is left there
    have hswapped := halloc.setSwapped_of_offline (by simpa using hoff)
    rcases not_delivered_setSwapped s p hswapped with ⟨hget, hnot⟩
    exact hnot ((hpres c hc).1 _ c hget)
  · intro honline c₁ hc₁
    obtain rfl : c = c₁ := Option.some.inj (hc.symm.trans hc₁)
    refine ⟨fun fpn c' hget => ?_, fun hswapped fpn => ?_⟩
    · rw [Caller.pgGetpage_present halloc.present] at hget
      cases hget
      exact delivered_online hc honline
    · simp [pageOnline, hswapped.2] at honline

/-- A page directory with page 0 in RAM frame 0 and page 1 in frame 3 of the swap device. -/
def oneSwappedPgd : Fin pagingMaxPgn → Addr :=
  Function.update (Function.update (fun _ => 0#32) ⟨0, by decide⟩ (pteSetFpn 0#32 0#32))
    ⟨1, by decide⟩ (pteSetSwap 0#32 0#32 3#32)

/-- The only process has that directory. -/
def oneSwapped : PagingSys :=
  ⟨.create 512 true, .create 1024 true,
    [some ⟨pageSize, { Mm.initMm Mm.zeroed with pgd := oneSwappedPgd }⟩]⟩

theorem oneSwapped_caller : oneSwapped.caller 0 =
    some ⟨pageSize, { Mm.initMm Mm.zeroed with pgd := oneSwappedPgd }, .create 512 true,
      .create 1024 true⟩ := rfl

/-- The page in RAM is delivered. -/
theorem oneSwapped_front : oneSwapped.PreservesContents 0 ⟨0, by decide⟩ :=
  (preservesContents_iff oneSwapped_caller (Or.inl (by decide))).2 (by decide)

/-- A directory with one page in RAM and one in swap gives each its own frame. -/
theorem oneSwapped_ownFrames : oneSwapped.OwnFrames := by
  have hdir : ∀ (frame : Addr → Option ℕ) k f, holds frame oneSwapped.directory k = some f →
      k.1 = 0 ∧ frame (oneSwappedPgd k.2) = some f := by
    rintro frame ⟨q, m⟩ f h
    -- there is no second process
    cases q with
    | zero => exact ⟨rfl, h⟩
    | succ q => simp [holds, directory, oneSwapped] at h
  have hpgd : ∀ m : Fin pagingMaxPgn, m ≠ ⟨0, by decide⟩ → m ≠ ⟨1, by decide⟩ →
      oneSwappedPgd m = 0#32 := by
    intro m h₀ h₁
    rw [oneSwappedPgd, Function.update_of_ne h₁, Function.update_of_ne h₀]
  have hone : ∀ (frame : Addr → Option ℕ) (pgn : Fin pagingMaxPgn) k f,
      (∀ m, m ≠ pgn → frame (oneSwappedPgd m) = none) →
      holds frame oneSwapped.directory k = some f → k = (0, pgn) := by
    intro frame pgn k f hnone h
    rcases hdir frame k f h with ⟨hq, hframe⟩
    refine Prod.ext hq ?_
    by_contra hm
    rw [hnone k.2 hm] at hframe
    cases hframe
  have hram : ∀ m : Fin pagingMaxPgn, m ≠ ⟨0, by decide⟩ →
      onlineFrame (oneSwappedPgd m) = none := by
    intro m h₀
    by_cases h₁ : m = ⟨1, by decide⟩
    · rw [h₁]
      decide
    · rw [hpgd m h₀ h₁]
      decide
  have hswap : ∀ m : Fin pagingMaxPgn, m ≠ ⟨1, by decide⟩ →
      swapFrame (oneSwappedPgd m) = none := by
    intro m h₁
    by_cases h₀ : m = ⟨0, by decide⟩
    · rw [h₀]
      decide
    · rw [hpgd m h₀ h₁]
      decide
  refine ⟨fun k l f hk hl => ?_, fun k l f hk hl => ?_⟩
  · rw [hone onlineFrame _ k f hram hk, hone onlineFrame _ l f hram hl]
  · rw [hone swapFrame _ k f hswap hk, hone swapFrame _ l f hswap hl]

/-- The page in swap is not. -/
theorem oneSwapped_not_preserved :
    oneSwapped.OwnFrames ∧ Allocated (oneSwappedPgd ⟨1, by decide⟩) ∧
      ¬ oneSwapped.PreservesContents 0 ⟨1, by decide⟩ := by
  have hswapped : SetSwapped (oneSwappedPgd ⟨1, by decide⟩) := by decide
  refine ⟨oneSwapped_ownFrames, Or.inr hswapped, fun hpres => ?_⟩
  -- it is given as frame 96, of a RAM of two, and stays in swap
  rcases hpres _ oneSwapped_caller with ⟨hdelivered, _⟩
  rcases not_delivered_setSwapped oneSwapped 0 (c := ⟨pageSize,
    { Mm.initMm Mm.zeroed with pgd := oneSwappedPgd }, .create 512 true, .create 1024 true⟩)
    hswapped with ⟨hget, hnot⟩
  exact hnot (hdelivered _ _ hget)

end PagingSys
end MiniOs
