import MiniOs.Paging.Failures
import MiniOs.Paging.Machine

/-!
# Stale — storage that is read before it is set

`init_mm` does not set the page directory, the region table, the replacement list and the successor
of the first free region, `MEMPHY_format` may leave the last node of a free list without one, and
`load` sets the fields of an instruction that the program file has numbers for.  Two runs on
storage with different contents agree on everything that has been set (`Agree`), and go on doing so
as long as no instruction reads anything else.
-/

namespace MiniOs

open Lib

/-! ## What has been set -/

/-- The list of free regions of a process. -/
inductive FreeList
  /-- the node of `init_mm`, in front of whatever `vm_freerg_list` was -/
  | first
  /-- whatever `vm_freerg_list` was -/
  | stale
  /-- the entry of a freed region, and nothing behind it -/
  | freed (i : Fin pagingMaxSymtblSz)

/-- The storage of a process that has been set. -/
structure Shadow where
  pages : Set (Fin pagingMaxPgn)
  regions : Set (Fin pagingMaxSymtblSz)
  freeList : FreeList

def Shadow.init : Shadow := ⟨∅, ∅, .first⟩

/-! ## Agreement -/

/-- What has been taken off the front of a list. -/
def takenOff {α : Type} (l l' : List α) : List α := l.take (l.length - l'.length)

@[simp] theorem takenOff_self {α : Type} (l : List α) : takenOff l l = [] := by simp [takenOff]

@[simp] theorem takenOff_nil {α : Type} (l : List α) : takenOff l [] = l := by simp [takenOff]

@[simp] theorem takenOff_cons {α : Type} (a : α) (l : List α) : takenOff l (a :: l) = [] := by
  simp [takenOff]

theorem takenOff_drop {α : Type} {l : List α} {n : Nat} (h : n ≤ l.length) :
    takenOff l (l.drop n) = l.take n := by
  rw [takenOff, List.length_drop, Nat.sub_sub_self h]

/-- The entries of these pages name the same frames of RAM. -/
def PagesAgree (pages : Set (Fin pagingMaxPgn)) (pgd₁ pgd₂ : Fin pagingMaxPgn → Addr) : Prop :=
  ∀ pgn ∈ pages, pagingPagePresent (pgd₁ pgn) = true ∧ pagingPagePresent (pgd₂ pgn) = true ∧
    pagingFpn (pgd₁ pgn) = pagingFpn (pgd₂ pgn)

namespace Mm

/-- The list of free regions begins with the node of `init_mm`. -/
def FirstNode (mm : Mm) : Prop :=
  ∃ h next, mm.mmap.vmFreergList = some (.heap h) ∧ mm.rg (.heap h) = some ⟨0, 0, next⟩

/-- It is the entry `i` alone. -/
def OneNode (mm : Mm) (i : Fin pagingMaxSymtblSz) : Prop :=
  mm.mmap.vmFreergList = some (.sym i) ∧ (mm.symrgtbl i).rgNext = none

/-- The memory maps of a process in the two runs. -/
structure Agree (g : Shadow) (mm₁ mm₂ : Mm) : Prop where
  vmStart : mm₁.mmap.vmStart = mm₂.mmap.vmStart
  vmEnd : mm₁.mmap.vmEnd = mm₂.mmap.vmEnd
  sbrk : mm₁.mmap.sbrk = mm₂.mmap.sbrk
  pages : PagesAgree g.pages mm₁.pgd mm₂.pgd
  regions : ∀ i ∈ g.regions, (mm₁.symrgtbl i).rgStart = (mm₂.symrgtbl i).rgStart ∧
    (mm₁.symrgtbl i).rgEnd = (mm₂.symrgtbl i).rgEnd
  first : g.freeList = .first → mm₁.FirstNode ∧ mm₂.FirstNode
  freed : ∀ i, g.freeList = .freed i → i ∈ g.regions ∧ mm₁.OneNode i ∧ mm₂.OneNode i

end Mm

namespace Memphy

/-- Same bytes, size and mode. -/
structure SameCells (mp₁ mp₂ : Memphy) : Prop where
  storage : mp₁.storage = mp₂.storage
  maxsz : mp₁.maxsz = mp₂.maxsz
  rdmflg : mp₁.rdmflg = mp₂.rdmflg

/-- The first `k` free frames are the same; all of them without a `k`. -/
def FreeAgree (known : Option Nat) (l₁ l₂ : List Nat) : Prop :=
  match known with
  | none => l₁ = l₂
  | some k => k ≤ l₁.length ∧ k ≤ l₂.length ∧ l₁.take k = l₂.take k

/-- Taking frames that are known, or all the same, keeps the lists in agreement. -/
theorem FreeAgree.take_drop {known : Option Nat} {l₁ l₂ : List Nat} (h : FreeAgree known l₁ l₂)
    {n : Nat} (hknown : ∀ k ∈ known, n ≤ k) :
    (n ≤ l₁.length ↔ n ≤ l₂.length) ∧ l₁.take n = l₂.take n ∧
      FreeAgree (known.map (· - n)) (l₁.drop n) (l₂.drop n) := by
  cases known with
  | none =>
      obtain rfl : l₁ = l₂ := h
      exact ⟨Iff.rfl, rfl, rfl⟩
  | some k =>
      rcases h with ⟨hlen₁, hlen₂, htake⟩
      have hn : n ≤ k := hknown k rfl
      refine ⟨iff_of_true (hn.trans hlen₁) (hn.trans hlen₂), ?_, ?_, ?_, ?_⟩
      · -- the first `n` are among the first `k`
        calc
          l₁.take n = (l₁.take k).take n := by rw [List.take_take, min_eq_left hn]
          _ = (l₂.take k).take n := by rw [htake]
          _ = l₂.take n := by rw [List.take_take, min_eq_left hn]
      · rw [List.length_drop]
        exact Nat.sub_le_sub_right hlen₁ n
      · rw [List.length_drop]
        exact Nat.sub_le_sub_right hlen₂ n
      · calc
          (l₁.drop n).take (k - n) = (l₁.take k).drop n := List.drop_take.symm
          _ = (l₂.take k).drop n := by rw [htake]
          _ = (l₂.drop n).take (k - n) := List.drop_take

theorem SameCells.inBounds {mp₁ mp₂ : Memphy} (h : SameCells mp₁ mp₂) (addr : Addr) :
    mp₁.InBounds addr ↔ mp₂.InBounds addr := by
  simp [InBounds, h.maxsz]

/-- A read gives the same in both runs, and moves nothing. -/
theorem SameCells.read {mp₁ mp₂ : Memphy} (h : SameCells mp₁ mp₂) (addr : Addr) :
    (mp₁.read addr = none ∧ mp₂.read addr = none) ∨
      ∃ value, mp₁.read addr = some (value, mp₁) ∧ mp₂.read addr = some (value, mp₂) := by
  unfold Memphy.read seqRead
  rw [h.rdmflg, h.storage]
  cases mp₂.rdmflg with
  | false => exact Or.inr ⟨none, rfl, rfl⟩
  | true =>
      by_cases hin : mp₁.InBounds addr
      · have hin' := (h.inBounds addr).1 hin
        simp [hin, hin']
      · have hin' : ¬ mp₂.InBounds addr := fun hin' => hin ((h.inBounds addr).2 hin')
        simp [hin, hin']

/-- A write does the same in both runs. -/
theorem SameCells.write {mp₁ mp₂ : Memphy} (h : SameCells mp₁ mp₂) (addr : Addr) (data : Byte) :
    SameStep (fun mp₁' mp₂' => SameCells mp₁' mp₂' ∧ mp₁'.freeFpList = mp₁.freeFpList ∧
      mp₂'.freeFpList = mp₂.freeFpList) (mp₁.write addr data) (mp₂.write addr data) := by
  unfold Memphy.write seqWrite
  rw [h.rdmflg, h.storage]
  cases hflag : mp₂.rdmflg with
  | false => exact .defined (-1) ⟨h, rfl, rfl⟩
  | true =>
      by_cases hin : mp₁.InBounds addr
      · have hin' := (h.inBounds addr).1 hin
        simp only [hin, hin', if_true]
        exact .defined 0 ⟨⟨rfl, h.maxsz, rfl⟩, rfl, rfl⟩
      · have hin' : ¬ mp₂.InBounds addr := fun hin' => hin ((h.inBounds addr).2 hin')
        simp only [hin, hin', if_true, if_false]
        exact .undefined

end Memphy

/-- A copy does the same in both runs. -/
theorem swapCpPage_agree {mpsrc₁ mpsrc₂ : Memphy} (hsrc : mpsrc₁.SameCells mpsrc₂)
    {mpdst₁ mpdst₂ : Memphy} (hdst : mpdst₁.SameCells mpdst₂) (srcfpn dstfpn : Addr) :
    (swapCpPage mpsrc₁ srcfpn mpdst₁ dstfpn = none ∧
        swapCpPage mpsrc₂ srcfpn mpdst₂ dstfpn = none) ∨
      ∃ mp₁ mp₂, swapCpPage mpsrc₁ srcfpn mpdst₁ dstfpn = some mp₁ ∧
        swapCpPage mpsrc₂ srcfpn mpdst₂ dstfpn = some mp₂ ∧ mp₁.SameCells mp₂ := by
  unfold swapCpPage
  generalize List.range 256 = cells
  induction cells generalizing mpdst₁ mpdst₂ with
  | nil => exact Or.inr ⟨mpdst₁, mpdst₂, rfl, rfl, hdst⟩
  | cons cell cells ih =>
      simp only [List.foldlM_cons]
      -- the round reads the same, or is refused in both
      rcases hsrc.read (srcfpn * pagingPagesz + BitVec.ofNat 32 cell) with ⟨h₁, h₂⟩ |
        ⟨value, h₁, h₂⟩
      · exact Or.inl (by simp [swapCpCell, h₁, h₂])
      · cases value with
        | none => exact Or.inl (by simp [swapCpCell, h₁, h₂])
        | some data =>
            simp only [swapCpCell, h₁, h₂]
            have hwrite := hdst.write (dstfpn * pagingPagesz + BitVec.ofNat 32 cell) data
            generalize mpdst₁.write (dstfpn * pagingPagesz + BitVec.ofNat 32 cell) data = w₁
              at hwrite
            generalize mpdst₂.write (dstfpn * pagingPagesz + BitVec.ofNat 32 cell) data = w₂
              at hwrite
            cases hwrite with
            | undefined => exact Or.inl ⟨rfl, rfl⟩
            | defined b hR => simpa using ih hR.1

/-- The mapping loop maps the same frames in both runs. -/
theorem mapFrames_agree (addr : Addr) (pgnum : Int) :
    ∀ (frames : List Nat) (i : Nat) (pages : Set (Fin pagingMaxPgn))
      (pgd₁ pgd₂ : Fin pagingMaxPgn → Addr), PagesAgree pages pgd₁ pgd₂ →
      PagesAgree (pages ∪ {pgn | ∃ j, i ≤ j ∧ j < i + frames.length ∧ (j : Int) < pgnum ∧
          pagingPgn (addr + BitVec.ofNat 32 j * pagingPagesz) = pgn})
        (Mm.mapFrames addr pgnum i frames pgd₁) (Mm.mapFrames addr pgnum i frames pgd₂) := by
  intro frames
  induction frames with
  | nil =>
      intro i pages pgd₁ pgd₂ h pgn hpgn
      rcases hpgn with hold | ⟨j, hij, hj, _⟩
      · exact h pgn hold
      · simp only [List.length_nil] at hj
        omega
  | cons f frames ih =>
      intro i pages pgd₁ pgd₂ h pgn hpgn
      by_cases hi : (i : Int) < pgnum
      · simp only [Mm.mapFrames, hi, if_true]
        -- the page of this round joins the set
        have hround : PagesAgree
            (pages ∪ {pagingPgn (addr + BitVec.ofNat 32 i * pagingPagesz)})
            (Function.update pgd₁ (pagingPgn (addr + BitVec.ofNat 32 i * pagingPagesz))
              (pteSetFpn (pgd₁ (pagingPgn (addr + BitVec.ofNat 32 i * pagingPagesz)))
                (BitVec.ofNat 32 f)))
            (Function.update pgd₂ (pagingPgn (addr + BitVec.ofNat 32 i * pagingPagesz))
              (pteSetFpn (pgd₂ (pagingPgn (addr + BitVec.ofNat 32 i * pagingPagesz)))
                (BitVec.ofNat 32 f))) := by
          intro q hq
          by_cases heq : q = pagingPgn (addr + BitVec.ofNat 32 i * pagingPagesz)
          · subst heq
            simp only [Function.update_self]
            refine ⟨pagingPagePresent_pteSetFpn _ _, pagingPagePresent_pteSetFpn _ _, ?_⟩
            exact BitVec.eq_of_toNat_eq (by rw [pagingFpn_pteSetFpn, pagingFpn_pteSetFpn])
          · simp only [Function.update_of_ne heq]
            exact h q (hq.resolve_right heq)
        refine ih (i + 1) _ _ _ hround pgn ?_
        rcases hpgn with hold | ⟨j, hij, hj, hnum, hjpgn⟩
        · exact Or.inl (Or.inl hold)
        · rcases Nat.eq_or_lt_of_le hij with rfl | hlt
          · exact Or.inl (Or.inr hjpgn.symm)
          · simp only [List.length_cons] at hj
            exact Or.inr ⟨j, hlt, by omega, hnum, hjpgn⟩
      · simp only [Mm.mapFrames, hi, if_false]
        -- the loop has ended, and no page is added
        rcases hpgn with hold | ⟨j, hij, _, hnum, _⟩
        · exact h pgn hold
        · omega

namespace Mm

variable {g : Shadow} {mm mm₁ mm₂ : Mm}

/-! ## Free regions -/

/-- A request for nothing, or for a negative size, uses up the first node: then the head of the
list is what it was before `init_mm`. -/
theorem FirstNode.getFree (h : mm.FirstNode) {size : Addr} (hsize : size.toInt ≤ 0) :
    ∃ next heap, mm.getFreeVmrgArea size = some (some (0, size.signExtend 64),
      { mm with mmap := { mm.mmap with vmFreergList := next }, rgHeap := heap }) := by
  rcases h with ⟨n, next, hhead, hrg⟩
  refine ⟨next, mm.rgHeap.set n none, ?_⟩
  have hused : 0#64 ≤ size.signExtend 64 := by
    rw [BitVec.le_def]
    exact Nat.zero_le _
  simp [getFreeVmrgArea, hhead, findFreeRg, hrg, hsize, hused, unlinkRg, freeRg, setRg]

/-- A list of one entry gives its front, or nothing; used up, the entry would be freed. -/
theorem OneNode.getFree {i : Fin pagingMaxSymtblSz} (h : mm.OneNode i) (size : Addr) :
    mm.getFreeVmrgArea size =
      if size.toInt ≤
          (((mm.symrgtbl i).rgEnd - (mm.symrgtbl i).rgStart).setWidth 32 : Addr).toInt then
        if (mm.symrgtbl i).rgEnd ≤ (mm.symrgtbl i).rgStart + size.signExtend 64 then none
        else some (some ((mm.symrgtbl i).rgStart, (mm.symrgtbl i).rgStart + size.signExtend 64),
          mm.setRg (.sym i)
            { mm.symrgtbl i with rgStart := (mm.symrgtbl i).rgStart + size.signExtend 64 })
      else some (some (-1, -1), mm) := by
  simp only [getFreeVmrgArea, h.1, findFreeRg, rg, h.2]
  split
  · split
    · rfl
    · rfl
  · rfl

/-- The same bounds are entered into the region table; `rg_next` of the entry stays. -/
theorem Agree.setEntry (h : Agree g mm₁ mm₂) (i : Fin pagingMaxSymtblSz) (rg₁ rg₂ : VmRg)
    (hstart : rg₁.rgStart = rg₂.rgStart) (hend : rg₁.rgEnd = rg₂.rgEnd)
    (hnext₁ : rg₁.rgNext = (mm₁.symrgtbl i).rgNext)
    (hnext₂ : rg₂.rgNext = (mm₂.symrgtbl i).rgNext) :
    Agree { g with regions := insert i g.regions } (mm₁.setRg (.sym i) rg₁)
      (mm₂.setRg (.sym i) rg₂) := by
  have hone : ∀ (mm : Mm) (rg : VmRg) (j : Fin pagingMaxSymtblSz),
      rg.rgNext = (mm.symrgtbl i).rgNext → mm.OneNode j → (mm.setRg (.sym i) rg).OneNode j := by
    intro mm rg j hnext hone
    refine ⟨hone.1, ?_⟩
    by_cases hj : j = i
    · subst hj
      simpa [setRg, hnext] using hone.2
    · simpa [setRg, Function.update_of_ne hj] using hone.2
  refine ⟨h.vmStart, h.vmEnd, h.sbrk, h.pages, fun j hj => ?_, h.first, fun j hj => ?_⟩
  · by_cases heq : j = i
    · subst heq
      simpa [setRg] using ⟨hstart, hend⟩
    · simpa [setRg, Function.update_of_ne heq] using h.regions j (hj.resolve_left heq)
  · rcases h.freed j hj with ⟨hmem, h₁, h₂⟩
    exact ⟨Or.inr hmem, hone mm₁ rg₁ j hnext₁ h₁, hone mm₂ rg₂ j hnext₂ h₂⟩

/-- The list of free regions is forgotten. -/
theorem Agree.forget (h : Agree g mm₁ mm₂) (next₁ next₂ : Option RgPtr)
    (heap₁ heap₂ : List (Option VmRg)) :
    Agree { g with freeList := .stale }
      { mm₁ with mmap := { mm₁.mmap with vmFreergList := next₁ }, rgHeap := heap₁ }
      { mm₂ with mmap := { mm₂.mmap with vmFreergList := next₂ }, rgHeap := heap₂ } :=
  ⟨h.vmStart, h.vmEnd, h.sbrk, h.pages, h.regions, fun hf => (by cases hf),
    fun _ hf => (by cases hf)⟩

/-- The entry of a freed region becomes the whole list. -/
theorem Agree.freedEntry (h : Agree g mm₁ mm₂) {i : Fin pagingMaxSymtblSz} (hi : i ∈ g.regions) :
    Agree { g with freeList := .freed i } (mm₁.freedEntry i) (mm₂.freedEntry i) := by
  refine ⟨h.vmStart, h.vmEnd, h.sbrk, h.pages, fun j hj => ?_, fun hf => (by cases hf),
    fun j hj => ?_⟩
  · by_cases heq : j = i
    · subst heq
      simp [Mm.freedEntry, setRg]
    · simpa [Mm.freedEntry, setRg, Function.update_of_ne heq] using h.regions j hj
  · obtain rfl : i = j := by simpa using hj
    exact ⟨hi, ⟨rfl, by simp [Mm.freedEntry, setRg]⟩, ⟨rfl, by simp [Mm.freedEntry, setRg]⟩⟩

end Mm

/-- The region that ALLOC names is set, and the first node of `init_mm` is used up. -/
def Shadow.alloc (g : Shadow) (rgid : Addr) : Shadow where
  pages := g.pages
  regions := {i | getSymrgByid rgid = .entry i} ∪ g.regions
  freeList :=
    match g.freeList with
    | .first => .stale
    | l => l

/-- A growth sets the entries of the pages that it maps. -/
def Shadow.grow (g : Shadow) (c : Caller) (vmaid incSz : Addr) : Shadow :=
  { g with pages := g.pages ∪ {pgn | c.Grows vmaid incSz ∧
      ∃ j < (Caller.growPages incSz).toNat, c.growPgn j = pgn} }

namespace Caller

variable {g : Shadow} {known : Option Nat} {c c₁ c₂ : Caller}

/-- A process in the two runs; `known` is for the free list of RAM. -/
structure Agree (g : Shadow) (known : Option Nat) (c₁ c₂ : Caller) : Prop where
  bp : c₁.bp = c₂.bp
  mm : Mm.Agree g c₁.mm c₂.mm
  mram : c₁.mram.SameCells c₂.mram
  frames : Memphy.FreeAgree known c₁.mram.freeFpList c₂.mram.freeFpList
  mswp : c₁.activeMswp.SameCells c₂.activeMswp

/-- The frames and the victims that a call takes off their lists. -/
structure Taken where
  frames : List Nat
  swpFrames : List Nat
  victims : List (Fin pagingMaxPgn)
  deriving DecidableEq

def taken (c c' : Caller) : Taken where
  frames := takenOff c.mram.freeFpList c'.mram.freeFpList
  swpFrames := takenOff c.activeMswp.freeFpList c'.activeMswp.freeFpList
  victims := takenOff c.mm.fifoPgn c'.mm.fifoPgn

/-- No frame and no victim is taken. -/
structure Unmoved (c c' : Caller) : Prop where
  frames : c'.mram.freeFpList = c.mram.freeFpList
  swpFrames : c'.activeMswp.freeFpList = c.activeMswp.freeFpList
  fifoPgn : c'.mm.fifoPgn = c.mm.fifoPgn

theorem Unmoved.refl (c : Caller) : Unmoved c c := ⟨rfl, rfl, rfl⟩

theorem Unmoved.taken {c' : Caller} (h : Unmoved c c') : c.taken c' = ⟨[], [], []⟩ := by
  simp [Caller.taken, h.frames, h.swpFrames, h.fifoPgn]

/-- The processes agree behind a call that took nothing in either run. -/
def AgreeUnmoved (g : Shadow) (known : Option Nat) (c₁ c₂ c₁' c₂' : Caller) : Prop :=
  Agree g known c₁' c₂' ∧ Unmoved c₁ c₁' ∧ Unmoved c₂ c₂'

/-! ## ALLOC and FREE -/

/-- A region found in the free list is entered under `rgid`, if that is an identifier. -/
theorem alloc_of_found {rgid size : Addr} {bounds : ULong × ULong} {mm : Mm}
    (h : c.mm.getFreeVmrgArea size = some (some bounds, mm)) :
    c.alloc rgid size =
      if hr : 0 ≤ rgid.toInt ∧ rgid.toInt.toNat < pagingMaxSymtblSz then
        some (some (bounds.1.setWidth 32), { c with
          mm := mm.setRg (.sym ⟨rgid.toInt.toNat, hr.2⟩)
            { mm.symrgtbl ⟨rgid.toInt.toNat, hr.2⟩ with rgStart := bounds.1, rgEnd := bounds.2 } })
      else none := by
  rcases bounds with ⟨rgStart, rgEnd⟩
  simp [alloc, h]

theorem Agree.allocFound (h : Agree g known c₁ c₂) {g' : Shadow} (rgid : Addr) {size : Addr}
    {bounds : ULong × ULong} {mm₁ mm₂ : Mm} (hmm : Mm.Agree g' mm₁ mm₂)
    (h₁ : c₁.mm.getFreeVmrgArea size = some (some bounds, mm₁))
    (h₂ : c₂.mm.getFreeVmrgArea size = some (some bounds, mm₂))
    (hfifo₁ : mm₁.fifoPgn = c₁.mm.fifoPgn) (hfifo₂ : mm₂.fifoPgn = c₂.mm.fifoPgn) :
    SameStep (AgreeUnmoved
        { g' with regions := {i | getSymrgByid rgid = .entry i} ∪ g'.regions } known c₁ c₂)
      (c₁.alloc rgid size) (c₂.alloc rgid size) := by
  rw [alloc_of_found h₁, alloc_of_found h₂]
  by_cases hr : 0 ≤ rgid.toInt ∧ rgid.toInt.toNat < pagingMaxSymtblSz
  · have hregions : {i | getSymrgByid rgid = .entry i} ∪ g'.regions =
        insert ⟨rgid.toInt.toNat, hr.2⟩ g'.regions := by
      ext j
      simp [getSymrgByid_eq_entry hr, eq_comm]
    rw [dif_pos hr, dif_pos hr, hregions]
    refine .defined _ ⟨⟨h.bp, hmm.setEntry _ _ _ rfl rfl rfl rfl, h.mram, h.frames, h.mswp⟩, ?_, ?_⟩
    · exact ⟨rfl, rfl, hfifo₁⟩
    · exact ⟨rfl, rfl, hfifo₂⟩
  · rw [dif_neg hr, dif_neg hr]
    exact .undefined

/-- ALLOC, when it finds its region without reading what was not set. -/
theorem Agree.alloc (h : Agree g known c₁ c₂) {rgid size : Addr}
    (hfirst : g.freeList = .first → size.toInt ≤ 0) (hstale : g.freeList ≠ .stale) :
    SameStep (AgreeUnmoved (g.alloc rgid) known c₁ c₂) (c₁.alloc rgid size)
      (c₂.alloc rgid size) := by
  cases hl : g.freeList with
  | first =>
      rcases h.mm.first hl with ⟨hone₁, hone₂⟩
      rcases hone₁.getFree (hfirst hl) with ⟨next₁, heap₁, h₁⟩
      rcases hone₂.getFree (hfirst hl) with ⟨next₂, heap₂, h₂⟩
      have hstep := h.allocFound rgid (h.mm.forget next₁ next₂ heap₁ heap₂) h₁ h₂ rfl rfl
      simpa only [Shadow.alloc, hl] using hstep
  | stale => exact absurd hl hstale
  | freed i =>
      rcases h.mm.freed i hl with ⟨hmem, hone₁, hone₂⟩
      rcases h.mm.regions i hmem with ⟨hstart, hend⟩
      have h₁ := hone₁.getFree size
      have h₂ := hone₂.getFree size
      -- the tests on the entry have the same results
      simp only [← hstart, ← hend] at h₂
      have hgoal : Shadow.alloc g rgid =
          { g with regions := {i | getSymrgByid rgid = .entry i} ∪ g.regions } := by
        simp only [Shadow.alloc, hl]
      rw [hgoal]
      by_cases hfit : size.toInt ≤
          (((c₁.mm.symrgtbl i).rgEnd - (c₁.mm.symrgtbl i).rgStart).setWidth 32 : Addr).toInt
      · rw [if_pos hfit] at h₁ h₂
        by_cases hused : (c₁.mm.symrgtbl i).rgEnd ≤
            (c₁.mm.symrgtbl i).rgStart + size.signExtend 64
        · -- the entry would be freed
          rw [if_pos hused] at h₁ h₂
          simp only [Caller.alloc, h₁, h₂]
          exact .undefined
        · rw [if_neg hused] at h₁ h₂
          have hmm := h.mm.setEntry i
            ⟨(c₁.mm.symrgtbl i).rgStart + size.signExtend 64, (c₁.mm.symrgtbl i).rgEnd,
              (c₁.mm.symrgtbl i).rgNext⟩
            ⟨(c₁.mm.symrgtbl i).rgStart + size.signExtend 64, (c₁.mm.symrgtbl i).rgEnd,
              (c₂.mm.symrgtbl i).rgNext⟩ rfl rfl rfl rfl
          rw [Set.insert_eq_of_mem hmem] at hmm
          exact h.allocFound rgid hmm h₁ h₂ rfl rfl
      · rw [if_neg hfit] at h₁ h₂
        exact h.allocFound rgid h.mm h₁ h₂ rfl rfl

/-- The list of free regions behind FREE. -/
def freeListBehind (g : Shadow) (c : Caller) (rgid : Addr) : Shadow :=
  match getSymrgByid rgid with
  | .null | .pastEnd => g
  | .entry i => if c.ValidEntry i then { g with freeList := .freed i } else g

/-- FREE of a region that has been set.  The old head of the list is only copied to the entry, and
lost with it. -/
theorem Agree.free (h : Agree g known c₁ c₂) {rgid : Addr}
    (hset : ∀ i, getSymrgByid rgid = .entry i → i ∈ g.regions) :
    SameStep (AgreeUnmoved (freeListBehind g c₁ rgid) known c₁ c₂) (c₁.free rgid)
      (c₂.free rgid) := by
  cases hentry : getSymrgByid rgid with
  | null =>
      simp only [Caller.free, freeListBehind, hentry]
      exact .defined (-1) ⟨h, .refl c₁, .refl c₂⟩
  | pastEnd =>
      simp only [Caller.free, hentry]
      exact .undefined
  | entry i =>
      have hmem := hset i hentry
      rcases h.mm.regions i hmem with ⟨hstart, hend⟩
      have hiff : c₁.ValidEntry i ↔ c₂.ValidEntry i := by
        rw [ValidEntry, ValidEntry, hstart, hend]
      by_cases hvalid : c₁.ValidEntry i
      · have hbehind : freeListBehind g c₁ rgid = { g with freeList := .freed i } := by
          simp only [freeListBehind, hentry, if_pos hvalid]
        rw [hbehind, free_valid hentry hvalid, free_valid hentry (hiff.1 hvalid)]
        refine .defined 0 ⟨?_, ⟨rfl, rfl, rfl⟩, ⟨rfl, rfl, rfl⟩⟩
        exact ⟨h.bp, h.mm.freedEntry hmem, h.mram, h.frames, h.mswp⟩
      · have hbehind : freeListBehind g c₁ rgid = g := by
          simp only [freeListBehind, hentry, if_neg hvalid]
        rw [hbehind, free_invalid hentry hvalid,
          free_invalid hentry fun hvalid₂ => hvalid (hiff.2 hvalid₂)]
        exact .defined (-1) ⟨h, .refl c₁, .refl c₂⟩

/-! ## Growth -/

instance (c : Caller) (vmaid : Addr) : Decidable (c.MayGrow vmaid) :=
  inferInstanceAs (Decidable (_ ∧ _))

/-- How many free frames of RAM are known behind a growth. -/
def framesBehind (known : Option Nat) (c : Caller) (vmaid incSz : Addr) : Option Nat :=
  if c.MayGrow vmaid then known.map (· - (growPages incSz).toNat) else known

/-- A growth asks for known frames. -/
def GrowSet (known : Option Nat) (c : Caller) (vmaid incSz : Addr) : Prop :=
  c.MayGrow vmaid → ∀ k ∈ known, (growPages incSz).toNat ≤ k

/-- The growth of a process in the two runs. -/
structure AgreeGrown (g : Shadow) (known : Option Nat) (c₁ c₂ : Caller) (r₁ r₂ : Int × Caller) :
    Prop where
  ret : r₁.1 = r₂.1
  agree : Agree g known r₁.2 r₂.2
  taken : c₁.taken r₁.2 = c₂.taken r₂.2

theorem Agree.mayGrow_iff (h : Agree g known c₁ c₂) (vmaid : Addr) :
    c₁.MayGrow vmaid ↔ c₂.MayGrow vmaid := by
  rw [MayGrow, MayGrow, h.bp, h.mm.vmEnd]

/-- The two moves of `inc_vma_limit` before it asks for frames. -/
theorem Agree.moveEnd (h : Mm.Agree g c₁.mm c₂.mm) (hbp : c₁.bp = c₂.bp) (incSz : Addr) :
    Mm.Agree g (c₁.moveEnd incSz).mm (c₂.moveEnd incSz).mm :=
  ⟨h.vmStart, by simp [Caller.moveEnd, hbp], h.sbrk, h.pages, h.regions, h.first, h.freed⟩

/-- The pages of a growth are mapped to the same frames. -/
theorem Agree.mapped (h : Mm.Agree g c₁.mm c₂.mm) (hbp : c₁.bp = c₂.bp) (vmaid : Addr)
    {incSz : Addr} (frames : List Nat)
    (hframes : frames.length = (growPages incSz).toNat) :
    Mm.Agree (g.grow c₁ vmaid incSz)
      ((c₁.moveEnd incSz).mm.vmapPageRange (c₁.mm.mmap.vmEnd.setWidth 32)
        ((pagingPageAlignsz incSz).sdiv pagingPagesz) frames).2
      ((c₂.moveEnd incSz).mm.vmapPageRange (c₁.mm.mmap.vmEnd.setWidth 32)
        ((pagingPageAlignsz incSz).sdiv pagingPagesz) frames).2 := by
  have hmm := Agree.moveEnd h hbp incSz
  refine ⟨hmm.vmStart, hmm.vmEnd, hmm.sbrk, ?_, hmm.regions, hmm.first, hmm.freed⟩
  have hmap := mapFrames_agree (c₁.mm.mmap.vmEnd.setWidth 32) (growPages incSz) frames 0 g.pages _ _
    h.pages
  intro pgn hpgn
  refine hmap pgn (hpgn.imp_right ?_)
  rintro ⟨_, j, hj, rfl⟩
  exact ⟨j, Nat.zero_le j, by omega, by omega, rfl⟩

/-- A growth that asks for known frames does the same in both runs. -/
theorem Agree.incVmaLimit (h : Agree g known c₁ c₂) {vmaid incSz : Addr}
    (hset : c₁.GrowSet known vmaid incSz) :
    AgreeGrown (g.grow c₁ vmaid incSz) (framesBehind known c₁ vmaid incSz) c₁ c₂
      (c₁.incVmaLimit vmaid incSz) (c₂.incVmaLimit vmaid incSz) := by
  have hmay := h.mayGrow_iff vmaid
  -- without a mapping nothing is added to the pages
  have hsame : ¬ c₁.Grows vmaid incSz → g.grow c₁ vmaid incSz = g := by
    intro hnot
    simp [Shadow.grow, hnot]
  by_cases hgrow : c₁.MayGrow vmaid
  · have hgrow₂ := hmay.1 hgrow
    rcases h.frames.take_drop (hset hgrow) with ⟨hiff, htake, hdrop⟩
    have hbehind : framesBehind known c₁ vmaid incSz =
        known.map (· - (growPages incSz).toNat) := if_pos hgrow
    rw [hbehind]
    by_cases hneg : growPages incSz < 0
    · -- a negative number of pages
      have hzero : (growPages incSz).toNat = 0 := Int.toNat_of_nonpos hneg.le
      rw [hsame fun hgrows => absurd hgrows.2.1 (not_le.2 hneg), incVmaLimit_negative hgrow hneg,
        incVmaLimit_negative hgrow₂ hneg]
      refine ⟨rfl, ⟨by simp [Caller.moveEnd, h.bp], Agree.moveEnd h.mm h.bp incSz, h.mram, ?_,
        h.mswp⟩, by simp [Caller.taken, Caller.moveEnd]⟩
      simpa [hzero, Caller.moveEnd] using hdrop
    · by_cases henough : (growPages incSz).toNat ≤ c₁.mram.freeFpList.length
      · have henough₂ := hiff.1 henough
        rw [incVmaLimit_enough hgrow (not_lt.1 hneg) henough,
          incVmaLimit_enough hgrow₂ (not_lt.1 hneg) henough₂, ← htake, ← h.mm.vmEnd]
        refine ⟨rfl, ⟨by simp [Caller.moveEnd, h.bp],
          Agree.mapped h.mm h.bp vmaid _ (List.length_take_of_le henough),
          ⟨h.mram.storage, h.mram.maxsz, h.mram.rdmflg⟩, hdrop, h.mswp⟩, ?_⟩
        simp [Caller.taken, Caller.moveEnd, Mm.vmapPageRange, takenOff_drop henough,
          takenOff_drop henough₂, htake]
      · -- too few, which takes all there are
        have henough₂ := fun hle => henough (hiff.2 hle)
        rw [hsame fun hgrows => henough hgrows.2.2,
          incVmaLimit_short hgrow (not_le.1 henough), incVmaLimit_short hgrow₂ (not_le.1 henough₂)]
        have hframes := h.frames
        have hknown := hset hgrow
        cases known with
        | none =>
            have hlist : c₁.mram.freeFpList = c₂.mram.freeFpList := hframes
            refine ⟨rfl, ⟨by simp [Caller.moveEnd, h.bp], Agree.moveEnd h.mm h.bp incSz,
              ⟨h.mram.storage, h.mram.maxsz, h.mram.rdmflg⟩, rfl, h.mswp⟩, ?_⟩
            simp [Caller.taken, Caller.moveEnd, hlist]
        | some k => exact absurd ((hknown k rfl).trans hframes.1) henough
  · have hgrow₂ := fun hmay₂ => hgrow (hmay.2 hmay₂)
    have hbehind : framesBehind known c₁ vmaid incSz = known := if_neg hgrow
    rw [hbehind, hsame fun hgrows => hgrow hgrows.1, incVmaLimit_refused hgrow,
      incVmaLimit_refused hgrow₂]
    exact ⟨rfl, ⟨by simp [h.bp], h.mm, h.mram, h.frames, h.mswp⟩, by simp [Caller.taken]⟩

/-! ## READ and WRITE -/

/-- The entry of the region is set, and that of the page. -/
def ByteSet (g : Shadow) (c : Caller) (rgid offset : Addr) : Prop :=
  ∀ i, getSymrgByid rgid = .entry i → i ∈ g.regions ∧ pagingPgn (c.rgAddr i offset) ∈ g.pages

/-- A page that is set is found in the same frame, at the same address. -/
theorem Agree.address (h : Agree g known c₁ c₂) {rgid offset : Addr} {i : Fin pagingMaxSymtblSz}
    (hentry : getSymrgByid rgid = .entry i) (hset : c₁.ByteSet g rgid offset) :
    c₁.rgAddr i offset = c₂.rgAddr i offset ∧
      ∃ fpn, c₁.pgGetpage (pagingPgn (c₁.rgAddr i offset)) = some (some fpn, c₁) ∧
        c₂.pgGetpage (pagingPgn (c₁.rgAddr i offset)) = some (some fpn, c₂) := by
  rcases hset i hentry with ⟨hi, hpgn⟩
  have haddr : c₁.rgAddr i offset = c₂.rgAddr i offset := by
    rw [rgAddr, rgAddr, (h.mm.regions i hi).1]
  rcases h.mm.pages _ hpgn with ⟨hpres₁, hpres₂, hfpn⟩
  refine ⟨haddr, _, pgGetpage_present hpres₁, ?_⟩
  rw [hfpn]
  exact pgGetpage_present hpres₂

/-- A read of a byte that is set gives the same in both runs, and changes nothing. -/
theorem Agree.read (h : Agree g known c₁ c₂) {rgid offset : Addr}
    (hset : c₁.ByteSet g rgid offset) :
    (c₁.read rgid offset = none ∧ c₂.read rgid offset = none) ∨
      ∃ r, c₁.read rgid offset = some (r, c₁) ∧ c₂.read rgid offset = some (r, c₂) := by
  cases hentry : getSymrgByid rgid with
  | null => exact Or.inr ⟨(-1, none), by simp [Caller.read, hentry], by simp [Caller.read, hentry]⟩
  | pastEnd => exact Or.inl ⟨by simp [Caller.read, hentry], by simp [Caller.read, hentry]⟩
  | entry i =>
      rcases h.address hentry hset with ⟨haddr, fpn, hpage₁, hpage₂⟩
      rcases h.mram.read (phyaddr fpn (c₁.rgAddr i offset)) with ⟨h₁, h₂⟩ | ⟨value, h₁, h₂⟩
      · exact Or.inl (by simp [Caller.read, hentry, pgGetval, ← haddr, hpage₁, hpage₂, h₁, h₂])
      · refine Or.inr ⟨(0, value), ?_⟩
        simp [Caller.read, hentry, pgGetval, ← haddr, hpage₁, hpage₂, h₁, h₂]

/-- The processes agree with RAM written alike. -/
theorem Agree.setMram (h : Agree g known c₁ c₂) {mp₁ mp₂ : Memphy}
    (hmp : mp₁.SameCells mp₂ ∧ mp₁.freeFpList = c₁.mram.freeFpList ∧
      mp₂.freeFpList = c₂.mram.freeFpList) :
    AgreeUnmoved g known c₁ c₂ { c₁ with mram := mp₁ } { c₂ with mram := mp₂ } := by
  rcases hmp with ⟨hcells, hfree₁, hfree₂⟩
  refine ⟨⟨h.bp, h.mm, hcells, ?_, h.mswp⟩, ⟨hfree₁, rfl, rfl⟩, ⟨hfree₂, rfl, rfl⟩⟩
  simpa [hfree₁, hfree₂] using h.frames

/-- A write does the same in both runs. -/
theorem Agree.write (h : Agree g known c₁ c₂) {rgid offset : Addr} (value : Byte)
    (hset : c₁.ByteSet g rgid offset) :
    SameStep (AgreeUnmoved g known c₁ c₂) (c₁.write rgid offset value)
      (c₂.write rgid offset value) := by
  cases hentry : getSymrgByid rgid with
  | null =>
      simp only [Caller.write, hentry]
      exact .defined (-1) ⟨h, .refl c₁, .refl c₂⟩
  | pastEnd =>
      simp only [Caller.write, hentry]
      exact .undefined
  | entry i =>
      rcases h.address hentry hset with ⟨haddr, fpn, hpage₁, hpage₂⟩
      have hwrite := h.mram.write (phyaddr fpn (c₁.rgAddr i offset)) value
      simp only [Caller.write, hentry, pgSetval, ← haddr, hpage₁, hpage₂]
      rw [Option.map_map, Option.map_map]
      exact hwrite.map fun hR => ⟨rfl, h.setMram hR⟩

/-! ## SYSCALL -/

/-- What the reads of a name find. -/
def nameData (memrg : Addr) : (n : Nat) → (i : Nat) → Caller → List (Option Byte)
  | 0, _, _ => []
  | n + 1, i, c =>
      match c.read memrg (BitVec.ofNat 32 i) with
      | none => []
      | some ((_, data), c) => data :: nameData memrg n (i + 1) c

/-- The bytes of a name are set, up to a read that is undefined. -/
def NameSet (g : Shadow) (memrg : Addr) : (n : Nat) → (i : Nat) → Caller → Prop
  | 0, _, _ => True
  | n + 1, i, c => c.ByteSet g memrg (BitVec.ofNat 32 i) ∧
      ∀ r c', c.read memrg (BitVec.ofNat 32 i) = some (r, c') → NameSet g memrg n (i + 1) c'

/-- The name of SYSCALL 101 is the same in both runs, and reading it changes nothing. -/
theorem Agree.killallName (h : Agree g known c₁ c₂) {memrg : Addr} :
    ∀ {n i : Nat}, NameSet g memrg n i c₁ →
      nameData memrg n i c₁ = nameData memrg n i c₂ ∧
      ((killallName memrg n i c₁ = none ∧ killallName memrg n i c₂ = none) ∨
        ∃ name, killallName memrg n i c₁ = some (name, c₁) ∧
          killallName memrg n i c₂ = some (name, c₂)) := by
  intro n
  induction n with
  | zero => exact fun _ => ⟨rfl, Or.inr ⟨[], rfl, rfl⟩⟩
  | succ n ih =>
      intro i hset
      -- `libread` gives back the 0 that `data` holds, so the loop goes on
      rcases h.read hset.1 with ⟨h₁, h₂⟩ | ⟨r, h₁, h₂⟩
      · simp [nameData, Caller.killallName, libread, h₁, h₂]
      · rcases ih (hset.2 r c₁ h₁) with ⟨hdata, ⟨hrest₁, hrest₂⟩ | ⟨name, hrest₁, hrest₂⟩⟩
        · simp [nameData, Caller.killallName, libread, h₁, h₂, hdata, hrest₁, hrest₂]
        · simp [nameData, Caller.killallName, libread, h₁, h₂, hdata, hrest₁, hrest₂]

/-- A copy to swap does the same in both runs. -/
theorem Agree.mmSwapPage (h : Agree g known c₁ c₂) (vicfpn swpfpn : Addr) :
    (c₁.mmSwapPage vicfpn swpfpn = none ∧ c₂.mmSwapPage vicfpn swpfpn = none) ∨
      ∃ c₁' c₂', c₁.mmSwapPage vicfpn swpfpn = some c₁' ∧ c₂.mmSwapPage vicfpn swpfpn = some c₂' ∧
        AgreeUnmoved g known c₁ c₂ c₁' c₂' := by
  unfold Caller.mmSwapPage
  rcases swapCpPage_agree h.mram h.mswp vicfpn swpfpn with ⟨h₁, h₂⟩ | ⟨mp₁, mp₂, h₁, h₂, hcells⟩
  · exact Or.inl (by simp [h₁, h₂])
  · refine Or.inr ⟨{ c₁ with activeMswp := mp₁ }, { c₂ with activeMswp := mp₂ }, by simp [h₁],
      by simp [h₂], ⟨h.bp, h.mm, h.mram, h.frames, hcells⟩, ?_, ?_⟩
    · exact ⟨rfl, (swapCpPage_sameFrame h₁).freeFpList, rfl⟩
    · exact ⟨rfl, (swapCpPage_sameFrame h₂).freeFpList, rfl⟩

end Caller
end MiniOs
