import MiniOs.Paging.Libmem

/-!
# Regions — `__alloc` and `__free` on the list of free regions

The loop of `get_free_vmrg_area` ends at a region with room or behind the list; what it then does to
the node is a function of its own.  On a list that is not empty `__alloc` is this search and the
entry of its bounds.  `__free` refuses, or makes a reset entry the whole list.
-/

namespace MiniOs

/-- The test of the loop: the length, read as an `int`, against the size. -/
def VmRg.Fits (rg : VmRg) (size : Addr) : Prop :=
  size.toInt ≤ ((rg.rgEnd - rg.rgStart).setWidth 32 : Addr).toInt

instance (rg : VmRg) (size : Addr) : Decidable (rg.Fits size) :=
  inferInstanceAs (Decidable (_ ≤ _))

namespace Mm

@[simp] theorem setRg_pgd (mm : Mm) (p : RgPtr) (rg : VmRg) : (mm.setRg p rg).pgd = mm.pgd := by
  cases p <;> rfl

@[simp] theorem setRg_mmap (mm : Mm) (p : RgPtr) (rg : VmRg) :
    (mm.setRg p rg).mmap = mm.mmap := by
  cases p <;> rfl

theorem rg_setRg {mm : Mm} {p : RgPtr} {rg : VmRg} (h : mm.rg p = some rg) (rg' : VmRg) :
    (mm.setRg p rg').rg = Function.update mm.rg p (some rg') := by
  funext q
  by_cases hq : q = p
  · subst hq
    rw [Function.update_self]
    cases q with
    | sym i => simp [Mm.rg, setRg]
    | heap n =>
        -- the node is one that `malloc` has handed out
        have hlt : n < mm.rgHeap.length := by
          by_contra hno
          rw [Mm.rg, List.getElem?_eq_none (not_lt.1 hno)] at h
          cases h
        simp [Mm.rg, setRg, hlt]
  · rw [Function.update_of_ne hq]
    cases p with
    | sym i =>
        cases q with
        | heap m => rfl
        | sym j =>
            have hji : j ≠ i := fun heq => hq (by rw [heq])
            simp [Mm.rg, setRg, Function.update_of_ne hji]
    | heap n =>
        cases q with
        | sym j => rfl
        | heap m =>
            have hmn : n ≠ m := fun heq => hq (by rw [heq])
            simp [Mm.rg, setRg, List.getElem?_set_ne hmn]

/-! ## The loop -/

/-- The branch of the loop that has found room in the node `p` behind `prev`. -/
def giveFront (mm : Mm) (size : Addr) (prev : Option RgPtr) (p : RgPtr) (rgit : VmRg) :
    Option ((ULong × ULong) × Mm) :=
  let newEnd := rgit.rgStart + size.signExtend 64
  let mm := mm.setRg p { rgit with rgStart := newEnd }
  if rgit.rgEnd ≤ newEnd then
    (mm.unlinkRg prev rgit.rgNext).bind fun mm =>
      (mm.freeRg p).map fun mm => ((rgit.rgStart, newEnd), mm)
  else some ((rgit.rgStart, newEnd), mm)

theorem findFreeRg_cons (mm : Mm) (size : Addr) (fuel : ℕ) (prev : Option RgPtr) {p : RgPtr}
    {rgit : VmRg} (h : mm.rg p = some rgit) :
    mm.findFreeRg size (fuel + 1) prev (some p) =
      if rgit.Fits size then mm.giveFront size prev p rgit
      else mm.findFreeRg size fuel (some p) rgit.rgNext := by
  rw [findFreeRg, h]
  rfl

/-- Where the search ends: behind the list, or at a node with room, behind `prev`. -/
def search (mm : Mm) (size : Addr) : (fuel : ℕ) → (prev rgit : Option RgPtr) →
    Option (Option (Option RgPtr × RgPtr × VmRg))
  | 0, _, _ => none
  | _ + 1, _, none => some none
  | fuel + 1, prev, some p =>
      (mm.rg p).bind fun rgit =>
        if rgit.Fits size then some (some (prev, p, rgit))
        else search mm size fuel (some p) rgit.rgNext

theorem findFreeRg_search (mm : Mm) (size : Addr) (fuel : ℕ) :
    ∀ prev rgit, mm.findFreeRg size fuel prev rgit =
      (mm.search size fuel prev rgit).bind fun
        | none => some ((-1, -1), mm)
        | some (prev, p, rg) => mm.giveFront size prev p rg := by
  induction fuel with
  | zero => exact fun _ _ => rfl
  | succ fuel ih =>
      intro prev rgit
      cases rgit with
      | none => rfl
      | some p =>
          cases hrg : mm.rg p with
          | none => simp [findFreeRg, search, hrg]
          | some rg =>
              rw [mm.findFreeRg_cons size fuel prev hrg, search, hrg, Option.bind_some]
              by_cases hfits : rg.Fits size
              · rw [if_pos hfits, if_pos hfits, Option.bind_some]
              · rw [if_neg hfits, if_neg hfits, ih]

/-- The search has been at the nodes it ends with. -/
theorem search_visited {mm : Mm} {size : Addr} {p : RgPtr} {rg : VmRg} {last : Option RgPtr}
    (fuel : ℕ) : ∀ {prev rgit}, mm.search size fuel prev rgit = some (some (last, p, rg)) →
      mm.rg p = some rg ∧
        (last = prev ∨ ∃ q node, last = some q ∧ mm.rg q = some node) := by
  induction fuel with
  | zero =>
      intro prev rgit h
      cases h
  | succ fuel ih =>
      intro prev rgit h
      cases rgit with
      | none => cases h
      | some q =>
          rcases Option.bind_eq_some_iff.1 h with ⟨node, hnode, hrest⟩
          split at hrest
          · obtain ⟨rfl, rfl, rfl⟩ : prev = last ∧ q = p ∧ node = rg := by simpa using hrest
            exact ⟨hnode, Or.inl rfl⟩
          · rcases ih hrest with ⟨hp, rfl | hlast⟩
            · exact ⟨hp, Or.inr ⟨q, node, rfl, hnode⟩⟩
            · exact ⟨hp, Or.inr hlast⟩

/-- The first node with room, in the whole list. -/
def found (mm : Mm) (size : Addr) : Option (Option (Option RgPtr × RgPtr × VmRg)) :=
  mm.search size (mm.rgHeap.length + pagingMaxSymtblSz + 1) none mm.mmap.vmFreergList

/-- The bounds of `newrg` after the loop over the whole list. -/
def probed (mm : Mm) (size : Addr) : Option ((ULong × ULong) × Mm) :=
  (mm.found size).bind fun
    | none => some ((-1, -1), mm)
    | some (prev, p, rg) => mm.giveFront size prev p rg

theorem getFreeVmrgArea_listed {mm : Mm} (size : Addr) (h : mm.mmap.vmFreergList ≠ none) :
    mm.getFreeVmrgArea size = (mm.probed size).map fun r => (some r.1, r.2) := by
  rcases Option.ne_none_iff_exists'.1 h with ⟨p, hp⟩
  have hfind := mm.findFreeRg_search size (mm.rgHeap.length + pagingMaxSymtblSz + 1) none
    mm.mmap.vmFreergList
  rw [hp] at hfind
  rw [getFreeVmrgArea, probed, found, hp]
  exact congrArg (Option.map fun r => (some r.1, r.2)) hfind

/-! ## What the search changes -/

section

variable {mm mm' : Mm} {size : Addr} {prev : Option RgPtr} {p : RgPtr} {rg : VmRg}
  {bounds : ULong × ULong}

/-- Inversion: the region gets a new start, and if it is used up its node is unlinked and freed. -/
theorem giveFront_cases (h : mm.giveFront size prev p rg = some (bounds, mm')) :
    bounds = (rg.rgStart, rg.rgStart + size.signExtend 64) ∧
      (mm' = mm.setRg p { rg with rgStart := rg.rgStart + size.signExtend 64 } ∨
        ∃ mm₁, (mm.setRg p { rg with rgStart := rg.rgStart + size.signExtend 64 }).unlinkRg prev
            rg.rgNext = some mm₁ ∧ mm₁.freeRg p = some mm') := by
  unfold giveFront at h
  dsimp only at h
  split at h
  · rcases Option.bind_eq_some_iff.1 h with ⟨mm₁, hunlink, hrest⟩
    rcases Option.map_eq_some_iff.1 hrest with ⟨mm₂, hfree, heq⟩
    obtain ⟨rfl, rfl⟩ := Prod.mk.inj heq
    exact ⟨rfl, Or.inr ⟨mm₁, hunlink, hfree⟩⟩
  · obtain ⟨rfl, rfl⟩ := Prod.mk.inj (Option.some.inj h)
    exact ⟨rfl, Or.inl rfl⟩

/-- Only nodes differ, and the head of the list. -/
structure SameButNodes (mm mm' : Mm) : Prop where
  pgd : mm'.pgd = mm.pgd
  mmap : mm'.mmap = { mm.mmap with vmFreergList := mm'.mmap.vmFreergList }

theorem SameButNodes.refl (mm : Mm) : SameButNodes mm mm := ⟨rfl, rfl⟩

theorem SameButNodes.trans {mm₁ mm₂ mm₃ : Mm} (h : SameButNodes mm₁ mm₂)
    (h' : SameButNodes mm₂ mm₃) : SameButNodes mm₁ mm₃ := by
  refine ⟨h'.pgd.trans h.pgd, ?_⟩
  rw [h'.mmap, h.mmap]

theorem setRg_sameButNodes (mm : Mm) (p : RgPtr) (rg : VmRg) : SameButNodes mm (mm.setRg p rg) :=
  ⟨setRg_pgd mm p rg, by rw [setRg_mmap]⟩

theorem unlinkRg_sameButNodes {next : Option RgPtr} (h : mm.unlinkRg prev next = some mm') :
    SameButNodes mm mm' := by
  cases prev with
  | none =>
      obtain rfl := Option.some.inj h
      exact ⟨rfl, rfl⟩
  | some q =>
      rcases Option.map_eq_some_iff.1 h with ⟨node, _, rfl⟩
      exact setRg_sameButNodes mm q _

theorem freeRg_sameButNodes (h : mm.freeRg p = some mm') : SameButNodes mm mm' := by
  cases p with
  | sym i => cases h
  | heap n =>
      obtain rfl := Option.some.inj h
      exact ⟨rfl, rfl⟩

theorem giveFront_sameButNodes (h : mm.giveFront size prev p rg = some (bounds, mm')) :
    SameButNodes mm mm' := by
  have hset := setRg_sameButNodes mm p { rg with rgStart := rg.rgStart + size.signExtend 64 }
  rcases (giveFront_cases h).2 with rfl | ⟨mm₁, hunlink, hfree⟩
  · exact hset
  · exact (hset.trans (unlinkRg_sameButNodes hunlink)).trans (freeRg_sameButNodes hfree)

theorem probed_sameButNodes (h : mm.probed size = some (bounds, mm')) : SameButNodes mm mm' := by
  rcases Option.bind_eq_some_iff.1 h with ⟨found, _, hgive⟩
  cases found with
  | none =>
      obtain ⟨_, rfl⟩ := Prod.mk.inj (Option.some.inj hgive)
      exact SameButNodes.refl mm
  | some r => exact giveFront_sameButNodes hgive

end

/-- The entry is the head of the list, and has neither bounds nor a successor. -/
def freedEntry (mm : Mm) (i : Fin pagingMaxSymtblSz) : Mm :=
  { mm.setRg (.sym i) ⟨-1, -1, none⟩ with
    mmap := { mm.mmap with vmFreergList := some (.sym i) } }

end Mm

namespace Caller

/-! ## Allocation out of a list -/

/-- The bounds entered as region `i`. -/
def enter (c : Caller) (mm : Mm) (i : Fin pagingMaxSymtblSz) (newrg : ULong × ULong) : Caller :=
  let rg := { mm.symrgtbl i with rgStart := newrg.1, rgEnd := newrg.2 }
  { c with mm := mm.setRg (.sym i) rg }

theorem enter_symrgtbl (c : Caller) (mm : Mm) (i : Fin pagingMaxSymtblSz)
    (newrg : ULong × ULong) : (c.enter mm i newrg).mm.symrgtbl i =
      { mm.symrgtbl i with rgStart := newrg.1, rgEnd := newrg.2 } := by
  simp [enter, Mm.setRg]

/-- `__alloc` on a list that is not empty. -/
theorem alloc_listed {c : Caller} (rgid size : Addr) (h : c.mm.mmap.vmFreergList ≠ none) :
    c.alloc rgid size =
      if hid : 0 ≤ rgid.toInt ∧ rgid.toInt.toNat < pagingMaxSymtblSz then
        (c.mm.probed size).map fun r =>
          (some (r.1.1.setWidth 32), c.enter r.2 ⟨rgid.toInt.toNat, hid.2⟩ r.1)
      else none := by
  rw [alloc, c.mm.getFreeVmrgArea_listed size h]
  cases c.mm.probed size with
  | none => simp
  | some r => rfl

/-- Inversion: the search has ended, and its bounds are entered as a region of the table. -/
theorem alloc_listed_cases {c c' : Caller} {rgid size : Addr} {addr : Option Addr}
    (hlist : c.mm.mmap.vmFreergList ≠ none) (h : c.alloc rgid size = some (addr, c')) :
    ∃ i bounds mm, getSymrgByid rgid = .entry i ∧ c.mm.probed size = some (bounds, mm) ∧
      addr = some (bounds.1.setWidth 32) ∧ c' = c.enter mm i bounds := by
  rw [alloc_listed rgid size hlist] at h
  split at h
  · rename_i hid
    rcases Option.map_eq_some_iff.1 h with ⟨⟨bounds, mm⟩, hprobed, heq⟩
    obtain ⟨rfl, rfl⟩ := Prod.mk.inj heq
    exact ⟨_, bounds, mm, getSymrgByid_eq_entry hid, hprobed, rfl, rfl⟩
  · cases h

/-! ## Freeing -/

/-- The bounds in the entry allow FREE. -/
def ValidEntry (c : Caller) (i : Fin pagingMaxSymtblSz) : Prop :=
  ¬ ((c.mm.symrgtbl i).rgStart = -1 ∨ (c.mm.symrgtbl i).rgEnd = -1 ∨
    (c.mm.symrgtbl i).rgEnd ≤ (c.mm.symrgtbl i).rgStart)

instance (c : Caller) (i : Fin pagingMaxSymtblSz) : Decidable (c.ValidEntry i) :=
  inferInstanceAs (Decidable (¬ _))

theorem free_valid {c : Caller} {rgid : Addr} {i : Fin pagingMaxSymtblSz}
    (hentry : getSymrgByid rgid = .entry i) (hvalid : c.ValidEntry i) :
    c.free rgid = some (0, { c with mm := c.mm.freedEntry i }) := by
  have hlt : ¬ (c.mm.symrgtbl i).rgEnd ≤ (c.mm.symrgtbl i).rgStart :=
    fun hle => hvalid (Or.inr (Or.inr hle))
  simp only [free, hentry]
  rw [if_neg hvalid, Mm.enlistVmFreergList, if_neg hlt]
  -- what linking has written to the entry is overwritten
  simp only [Mm.freedEntry, Mm.setRg, Function.update_idem]

theorem free_invalid {c : Caller} {rgid : Addr} {i : Fin pagingMaxSymtblSz}
    (hentry : getSymrgByid rgid = .entry i) (hinvalid : ¬ c.ValidEntry i) :
    c.free rgid = some (-1, c) := by
  simp only [free, hentry]
  exact if_pos (not_not.1 hinvalid)

/-- How `__free` ends. -/
inductive Freed (c : Caller) (rgid : Addr) : Int → Caller → Prop
  | refused : Freed c rgid (-1) c
  | freed {i : Fin pagingMaxSymtblSz} : getSymrgByid rgid = .entry i → c.ValidEntry i →
      Freed c rgid 0 { c with mm := c.mm.freedEntry i }

theorem free_freed {c c' : Caller} {rgid : Addr} {ret : Int} (h : c.free rgid = some (ret, c')) :
    c.Freed rgid ret c' := by
  cases hentry : getSymrgByid rgid with
  | null =>
      simp only [free, hentry] at h
      obtain ⟨rfl, rfl⟩ := Prod.mk.inj (Option.some.inj h)
      exact .refused
  | pastEnd =>
      simp only [free, hentry] at h
      cases h
  | entry i =>
      by_cases hvalid : c.ValidEntry i
      · rw [free_valid hentry hvalid] at h
        obtain ⟨rfl, rfl⟩ := Prod.mk.inj (Option.some.inj h)
        exact .freed hentry hvalid
      · rw [free_invalid hentry hvalid] at h
        obtain ⟨rfl, rfl⟩ := Prod.mk.inj (Option.some.inj h)
        exact .refused

end Caller
end MiniOs
