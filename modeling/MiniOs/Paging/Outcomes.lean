import MiniOs.Paging.Cpu
import MiniOs.Paging.System

/-!
# Outcomes — when `__alloc` and `__free` have an outcome

With a free list that is not empty, `__alloc` writes to the region table at any identifier, and
frees the node of a region that it uses up, also when the node is an entry of the table.  `__free`
lets the identifier 30 through.  Both are undefined there and nowhere else, as long as the free list
can be walked; in a process on storage filled with zeros it has one node at most.
-/

namespace MiniOs

/-- The identifier is an index of the region table. -/
def IsRegionId (rgid : Addr) : Prop := 0 ≤ rgid.toInt ∧ rgid.toInt < pagingMaxSymtblSz

/-! ## Identifiers -/

theorem getSymrgByid_pastEnd : getSymrgByid 30#32 = .pastEnd := rfl

theorem isRegionId_of_entry {rgid : Addr} {i : Fin pagingMaxSymtblSz}
    (h : getSymrgByid rgid = .entry i) : IsRegionId rgid := by
  unfold getSymrgByid at h
  split at h
  · cases h
  · rename_i hrange
    split at h
    · rename_i hlt
      exact ⟨by omega, by omega⟩
    · cases h

/-- Only the size of the table itself is let through. -/
theorem eq_of_pastEnd {rgid : Addr} (h : getSymrgByid rgid = .pastEnd) : rgid = 30#32 := by
  have hsize : (pagingMaxSymtblSz : ℤ) = 30 := rfl
  unfold getSymrgByid at h
  split at h
  · cases h
  · rename_i hrange
    split at h
    · cases h
    · rename_i hge
      have hint : rgid.toInt = (30#32 : Addr).toInt := by
        have hthirty : (30#32 : Addr).toInt = 30 := by decide
        omega
      exact BitVec.eq_of_toInt_eq hint

/-- The test of `__alloc` in the model. -/
theorem isRegionId_iff {rgid : Addr} :
    IsRegionId rgid ↔ 0 ≤ rgid.toInt ∧ rgid.toInt.toNat < pagingMaxSymtblSz := by
  unfold IsRegionId
  constructor
  · rintro ⟨hlow, hhigh⟩
    exact ⟨hlow, by omega⟩
  · rintro ⟨hlow, hhigh⟩
    exact ⟨hlow, by omega⟩

namespace Mm

/-! ## The search -/

/-- A region that the search uses up has a node from `malloc`. -/
def SparesEntries (mm : Mm) (size : Addr) : Prop :=
  ∀ prev i rg, mm.found size = some (some (prev, .sym i, rg)) →
    rg.rgStart + size.signExtend 64 < rg.rgEnd

section

variable {mm : Mm} {size : Addr} {prev : Option RgPtr} {p : RgPtr} {rg : VmRg}

/-- It is undefined only where a used-up node cannot be freed. -/
theorem giveFront_isSome_iff (hrg : mm.rg p = some rg)
    (hprev : prev = none ∨ ∃ q node, prev = some q ∧ mm.rg q = some node) :
    (mm.giveFront size prev p rg).isSome ↔
      (rg.rgEnd ≤ rg.rgStart + size.signExtend 64 → ∃ n, p = .heap n) := by
  have hunlink : ∀ rg' next, ∃ mm₁, (mm.setRg p rg').unlinkRg prev next = some mm₁ := by
    intro rg' next
    rcases hprev with rfl | ⟨q, node, rfl, hnode⟩
    · exact ⟨_, rfl⟩
    · -- the node before is still one
      obtain ⟨node', hnode'⟩ : ∃ node', (mm.setRg p rg').rg q = some node' := by
        rw [rg_setRg hrg]
        by_cases hq : q = p
        · exact ⟨rg', by rw [hq, Function.update_self]⟩
        · exact ⟨node, by rw [Function.update_of_ne hq, hnode]⟩
      exact ⟨_, by rw [unlinkRg, hnode', Option.map_some]⟩
  unfold giveFront
  dsimp only
  by_cases hused : rg.rgEnd ≤ rg.rgStart + size.signExtend 64
  · rcases hunlink { rg with rgStart := rg.rgStart + size.signExtend 64 } rg.rgNext with ⟨mm₁, h₁⟩
    rw [if_pos hused, h₁, Option.bind_some, Option.isSome_map]
    cases p with
    | heap n => simp [freeRg]
    | sym i => simp [freeRg, hused]
  · rw [if_neg hused]
    simp [hused]

end

theorem probed_isSome_iff (mm : Mm) (size : Addr) :
    (mm.probed size).isSome ↔ (mm.found size).isSome ∧ mm.SparesEntries size := by
  unfold probed SparesEntries
  cases hfound : mm.found size with
  | none => simp
  | some r =>
      cases r with
      | none => simp
      | some r =>
          rcases r with ⟨prev, p, rg⟩
          rcases search_visited _ hfound with ⟨hrg, hprev⟩
          have hgive : (mm.giveFront size prev p rg).isSome ↔ _ := giveFront_isSome_iff hrg hprev
          cases p with
          | heap n => simpa using hgive
          | sym i => simpa [BitVec.not_le] using hgive

/-! ## Lists of one node -/

/-- The free list is empty or has one node. -/
def ShortList (mm : Mm) : Prop :=
  ∀ p, mm.mmap.vmFreergList = some p → ∃ node, mm.rg p = some node ∧ node.rgNext = none

theorem initMm_shortList : (initMm zeroed).ShortList := by
  intro p hp
  obtain rfl := Option.some.inj hp
  exact ⟨_, rfl, rfl⟩

/-- The search ends at once, or behind the only node. -/
theorem ShortList.found_cases {mm : Mm} (h : mm.ShortList) (size : Addr) :
    mm.found size = some none ∨ ∃ p node, mm.rg p = some node ∧ node.rgNext = none ∧
      mm.found size = some (some (none, p, node)) := by
  unfold found
  cases hlist : mm.mmap.vmFreergList with
  | none => exact Or.inl rfl
  | some p =>
      rcases h p hlist with ⟨node, hnode, hnext⟩
      rw [search, hnode, Option.bind_some, hnext]
      by_cases hfits : node.Fits size
      · exact Or.inr ⟨p, node, hnode, hnext, if_pos hfits⟩
      · exact Or.inl (if_neg hfits)

theorem ShortList.found_isSome {mm : Mm} (h : mm.ShortList) (size : Addr) :
    (mm.found size).isSome := by
  rcases h.found_cases size with hnone | ⟨p, node, _, _, hfound⟩
  · rw [hnone]
    rfl
  · rw [hfound]
    rfl

/-- The nodes and the head of the list are what they were. -/
structure SameNodes (mm mm' : Mm) : Prop where
  freeList : mm'.mmap.vmFreergList = mm.mmap.vmFreergList
  rgHeap : mm'.rgHeap = mm.rgHeap
  symrgtbl : mm'.symrgtbl = mm.symrgtbl

theorem SameNodes.refl (mm : Mm) : SameNodes mm mm := ⟨rfl, rfl, rfl⟩

theorem SameNodes.trans {mm₁ mm₂ mm₃ : Mm} (h : SameNodes mm₁ mm₂) (h' : SameNodes mm₂ mm₃) :
    SameNodes mm₁ mm₃ :=
  ⟨h'.freeList.trans h.freeList, h'.rgHeap.trans h.rgHeap, h'.symrgtbl.trans h.symrgtbl⟩

theorem ShortList.of_same {mm mm' : Mm} (h : mm.ShortList) (hsame : SameNodes mm mm') :
    mm'.ShortList := by
  intro p hp
  have hrg : mm'.rg p = mm.rg p := by
    cases p with
    | heap n => rw [rg, rg, hsame.rgHeap]
    | sym i => rw [rg, rg, hsame.symrgtbl]
  rw [hrg]
  exact h p (hsame.freeList ▸ hp)

/-- A node that keeps its successor keeps the list. -/
theorem ShortList.setRg {mm : Mm} {p : RgPtr} {node node' : VmRg} (h : mm.ShortList)
    (hnode : mm.rg p = some node) (hnext : node'.rgNext = node.rgNext) :
    (mm.setRg p node').ShortList := by
  intro q hq
  rw [setRg_mmap] at hq
  rcases h q hq with ⟨old, hold, hlast⟩
  rw [rg_setRg hnode]
  by_cases hqp : q = p
  · subst hqp
    obtain rfl : node = old := Option.some.inj (hnode.symm.trans hold)
    exact ⟨node', Function.update_self .., hnext.trans hlast⟩
  · exact ⟨old, by rw [Function.update_of_ne hqp, hold], hlast⟩

theorem ShortList.of_empty {mm : Mm} (h : mm.mmap.vmFreergList = none) : mm.ShortList := by
  intro p hp
  rw [h] at hp
  cases hp

theorem ShortList.probed {mm mm' : Mm} {size : Addr} {bounds : ULong × ULong} (h : mm.ShortList)
    (hprobed : mm.probed size = some (bounds, mm')) : mm'.ShortList := by
  rcases h.found_cases size with hfound | ⟨p, node, hnode, hnext, hfound⟩
  · rw [Mm.probed, hfound] at hprobed
    obtain ⟨_, rfl⟩ := Prod.mk.inj (Option.some.inj hprobed)
    exact h
  · rw [Mm.probed, hfound] at hprobed
    rcases (giveFront_cases hprobed).2 with rfl | ⟨mm₁, hunlink, hfree⟩
    · exact h.setRg hnode rfl
    · -- with its only node the list has gone
      obtain rfl := Option.some.inj hunlink
      apply ShortList.of_empty
      cases p with
      | sym i => cases hfree
      | heap n =>
          obtain rfl := Option.some.inj hfree
          exact hnext

theorem freedEntry_shortList (mm : Mm) (i : Fin pagingMaxSymtblSz) :
    (mm.freedEntry i).ShortList := by
  intro p hp
  obtain rfl := Option.some.inj hp
  exact ⟨⟨-1, -1, none⟩, by simp [rg, freedEntry, Mm.setRg], rfl⟩

end Mm

namespace Caller

/-! ## Outcomes -/

theorem alloc_isSome_iff (c : Caller) (rgid size : Addr) :
    (c.alloc rgid size).isSome ↔ (c.mm.mmap.vmFreergList ≠ none →
      IsRegionId rgid ∧ (c.mm.found size).isSome ∧ c.mm.SparesEntries size) := by
  by_cases hlist : c.mm.mmap.vmFreergList = none
  · refine iff_of_true ?_ fun hne => absurd hlist hne
    rw [alloc_growth rgid size hlist]
    split <;> rfl
  · rw [alloc_listed rgid size hlist, ← Mm.probed_isSome_iff, isRegionId_iff]
    simp only [hlist, ne_eq, not_false_eq_true, true_imp_iff]
    split
    · rename_i hid
      rw [Option.isSome_map, and_iff_right hid]
    · rename_i hid
      exact iff_of_false (by simp) fun hboth => hid hboth.1

theorem free_isSome_iff (c : Caller) (rgid : Addr) : (c.free rgid).isSome ↔ rgid ≠ 30#32 := by
  cases hentry : getSymrgByid rgid with
  | null =>
      refine iff_of_true (by simp [free, hentry]) fun hthirty => ?_
      rw [hthirty, getSymrgByid_pastEnd] at hentry
      cases hentry
  | pastEnd => exact iff_of_false (by simp [free, hentry]) (not_not.2 (eq_of_pastEnd hentry))
  | entry i =>
      refine iff_of_true ?_ fun hthirty => ?_
      · by_cases hvalid : c.ValidEntry i
        · simp [free_valid hentry hvalid]
        · simp [free_invalid hentry hvalid]
      · rw [hthirty, getSymrgByid_pastEnd] at hentry
        cases hentry

/-- The condition on an ALLOC of a process whose free list can be walked. -/
def AllocInTable (c : Caller) (rgid size : Addr) : Prop :=
  c.mm.mmap.vmFreergList ≠ none → IsRegionId rgid ∧ c.mm.SparesEntries size

theorem liballoc_isSome_iff {c : Caller} (h : c.mm.ShortList) (size rgid : Addr) :
    (c.liballoc size rgid).isSome ↔ c.AllocInTable rgid size := by
  rw [liballoc, Option.isSome_map, alloc_isSome_iff]
  simp only [h.found_isSome size, true_and, AllocInTable]

/-! ## Calls on a list of one node -/

theorem incVmaLimit_sameNodes (c : Caller) (vmaid incSz : Addr) :
    c.mm.SameNodes (c.incVmaLimit vmaid incSz).2.mm := by
  have hgot := c.incVmaLimit_got vmaid incSz
  generalize c.incVmaLimit vmaid incSz = r at hgot ⊢
  cases hgot <;> exact ⟨rfl, rfl, rfl⟩

theorem Accessed.sameNodes {c c' : Caller} {addr : Addr} (h : c.Accessed addr c') :
    c.mm.SameNodes c'.mm := by
  rcases h with ⟨fpn, c₁, hpage, hmm, _, _⟩
  rw [hmm]
  cases pgGetpage_got hpage with
  | present _ => exact Mm.SameNodes.refl _
  | noVictim _ _ => exact Mm.SameNodes.refl _
  | noFrame _ _ _ => exact ⟨rfl, rfl, rfl⟩
  | fault _ _ _ hbring =>
      -- both copies go to the swap device
      rcases Option.bind_eq_some_iff.1 hbring with ⟨c₂, hout, hrest⟩
      rcases Option.map_eq_some_iff.1 hrest with ⟨c₃, hin, rfl⟩
      rcases mmSwapPage_eq hout with ⟨m₁, rfl, _⟩
      rcases mmSwapPage_eq hin with ⟨m₂, rfl, _⟩
      exact ⟨rfl, rfl, rfl⟩

theorem RegionAccessed.sameNodes {c c' : Caller} {rgid offset : Addr}
    (h : c.RegionAccessed rgid offset c') : c.mm.SameNodes c'.mm := by
  cases h with
  | null _ => exact Mm.SameNodes.refl _
  | entry _ haccessed => exact haccessed.sameNodes

theorem libread_sameNodes {c c' : Caller} {rgid offset destination : Addr} {r : Int × Addr}
    (h : c.libread rgid offset destination = some (r, c')) : c.mm.SameNodes c'.mm := by
  rcases Option.map_eq_some_iff.1 h with ⟨⟨r₁, c₁⟩, hread, heq⟩
  obtain ⟨_, rfl⟩ := Prod.mk.inj heq
  exact (read_accessed hread).sameNodes

theorem shortList_liballoc {c c' : Caller} {size rgid : Addr} {ret : Int} (h : c.mm.ShortList)
    (hcall : c.liballoc size rgid = some (ret, c')) : c'.mm.ShortList := by
  rcases Option.map_eq_some_iff.1 hcall with ⟨⟨addr, c₁⟩, halloc, heq⟩
  obtain ⟨_, rfl⟩ := Prod.mk.inj heq
  by_cases hlist : c.mm.mmap.vmFreergList = none
  · -- the list stays empty
    have hsame := c.incVmaLimit_sameNodes 0#32 (pagingPageAlignsz size)
    apply Mm.ShortList.of_empty
    rw [alloc_growth rgid size hlist] at halloc
    split at halloc
    · obtain ⟨_, rfl⟩ := Prod.mk.inj (Option.some.inj halloc)
      exact hsame.freeList.trans hlist
    · obtain ⟨_, rfl⟩ := Prod.mk.inj (Option.some.inj halloc)
      exact hsame.freeList.trans hlist
  · rcases alloc_listed_cases hlist halloc with ⟨i, bounds, mm, _, hprobed, _, rfl⟩
    exact (h.probed hprobed).setRg rfl rfl

theorem shortList_libfree {c c' : Caller} {rgid : Addr} {ret : Int} (h : c.mm.ShortList)
    (hcall : c.libfree rgid = some (ret, c')) : c'.mm.ShortList := by
  cases free_freed hcall with
  | refused => exact h
  | @freed i _ _ => exact c.mm.freedEntry_shortList i

/-! ## Instructions -/

theorem killallName_sameNodes {memrg : Addr} :
    ∀ {k i : Nat} {c c' : Caller} {name : List Byte},
      killallName memrg k i c = some (name, c') → c.mm.SameNodes c'.mm := by
  intro k
  induction k with
  | zero =>
      intro i c c' name h
      obtain ⟨_, rfl⟩ := Prod.mk.inj (Option.some.inj h)
      exact Mm.SameNodes.refl _
  | succ k ih =>
      intro i c c' name h
      unfold killallName at h
      cases hread : c.libread memrg (BitVec.ofNat 32 i) 0#32 with
      | none => simp [hread] at h
      | some r =>
          rcases r with ⟨⟨ret, data⟩, c₁⟩
          have hfirst := libread_sameNodes hread
          simp only [hread] at h
          split at h
          · obtain ⟨_, rfl⟩ := Prod.mk.inj (Option.some.inj h)
            exact hfirst
          · rcases Option.map_eq_some_iff.1 h with ⟨⟨rest, c₂⟩, hrest, heq⟩
            obtain ⟨_, rfl⟩ := Prod.mk.inj heq
            exact hfirst.trans (ih hrest)

theorem sysMemmap_sameNodes {c c' : Caller} {a1 a2 a3 : Addr} {ret : Int}
    (h : c.sysMemmap a1 a2 a3 = some (ret, c')) : c.mm.SameNodes c'.mm := by
  unfold sysMemmap at h
  split at h
  · obtain ⟨_, rfl⟩ := Prod.mk.inj (Option.some.inj h)
    exact Mm.SameNodes.refl _
  · obtain ⟨_, rfl⟩ := Prod.mk.inj (Option.some.inj h)
    exact c.incVmaLimit_sameNodes a2 a3
  · rcases Option.map_eq_some_iff.1 h with ⟨c₁, hcopy, heq⟩
    obtain ⟨_, rfl⟩ := Prod.mk.inj heq
    rcases mmSwapPage_eq hcopy with ⟨mswp, rfl, _⟩
    exact Mm.SameNodes.refl _
  · rcases Option.map_eq_some_iff.1 h with ⟨r, _, heq⟩
    obtain ⟨_, rfl⟩ := Prod.mk.inj heq
    exact Mm.SameNodes.refl _
  · rcases Option.map_eq_some_iff.1 h with ⟨r, _, heq⟩
    obtain ⟨_, rfl⟩ := Prod.mk.inj heq
    exact Mm.SameNodes.refl _
  · obtain ⟨_, rfl⟩ := Prod.mk.inj (Option.some.inj h)
    exact Mm.SameNodes.refl _

theorem libsyscall_sameNodes {c c' : Caller} {nr a1 a2 a3 : Addr} {ret : Int}
    (h : c.libsyscall nr a1 a2 a3 = some (ret, c')) : c.mm.SameNodes c'.mm := by
  unfold libsyscall at h
  split at h
  · obtain ⟨_, rfl⟩ := Prod.mk.inj (Option.some.inj h)
    exact Mm.SameNodes.refl _
  · exact sysMemmap_sameNodes h
  · rcases Option.map_eq_some_iff.1 h with ⟨⟨name, c₁⟩, hname, heq⟩
    obtain ⟨_, rfl⟩ := Prod.mk.inj heq
    exact killallName_sameNodes hname
  · obtain ⟨_, rfl⟩ := Prod.mk.inj (Option.some.inj h)
    exact Mm.SameNodes.refl _
  · obtain ⟨_, rfl⟩ := Prod.mk.inj (Option.some.inj h)
    exact Mm.SameNodes.refl _

/-- Step lemma: no instruction makes the list longer. -/
theorem shortList_runInst {c c' : Caller} {ins : Inst} {ret : Int} (h : c.mm.ShortList)
    (hrun : c.runInst ins = some (ret, c')) : c'.mm.ShortList := by
  unfold runInst at hrun
  split at hrun
  · obtain ⟨_, rfl⟩ := Prod.mk.inj (Option.some.inj hrun)
    exact h
  · exact shortList_liballoc h hrun
  · exact shortList_libfree h hrun
  · rcases Option.map_eq_some_iff.1 hrun with ⟨⟨r, c₁⟩, hread, heq⟩
    obtain ⟨_, rfl⟩ := Prod.mk.inj heq
    exact h.of_same (libread_sameNodes hread)
  · exact h.of_same (write_accessed hrun).sameNodes
  · exact h.of_same (libsyscall_sameNodes hrun)

end Caller

namespace PagingSys

/-! ## All processes -/

/-- No process has a free list of more than one node. -/
def ShortLists (s : PagingSys) : Prop := ∀ pm, some pm ∈ s.procs → pm.mm.ShortList

variable {s : PagingSys} {p : ℕ} {c c' : Caller}

theorem ShortLists.caller (h : s.ShortLists) (hc : s.caller p = some c) : c.mm.ShortList := by
  rcases Option.map_eq_some_iff.1 hc with ⟨pm, hpm, rfl⟩
  exact h pm (List.mem_of_getElem? (Option.join_eq_some_iff.1 hpm))

theorem ShortLists.setCaller (h : s.ShortLists) (hc' : c'.mm.ShortList) :
    (s.setCaller p c').ShortLists := by
  intro pm hpm
  rcases List.mem_or_eq_of_mem_set hpm with hold | hnew
  · exact h pm hold
  · obtain rfl := Option.some.inj hnew
    exact hc'

theorem ShortLists.append (h : s.ShortLists) {pm : ProcMem} (hpm : pm.mm.ShortList) :
    ({ s with procs := s.procs ++ [some pm] } : PagingSys).ShortLists := by
  intro pm' hpm'
  rcases List.mem_append.1 hpm' with hold | hnew
  · exact h pm' hold
  · obtain rfl := Option.some.inj (List.mem_singleton.1 hnew)
    exact hpm

theorem ShortLists.finish (h : s.ShortLists) (p : ℕ) :
    ({ s with procs := s.procs.set p none } : PagingSys).ShortLists := by
  intro pm hpm
  rcases List.mem_or_eq_of_mem_set hpm with hold | hnew
  · exact h pm hold
  · cases hnew

/-- Step lemma: no call makes a list longer. -/
theorem ShortLists.exec {s' : PagingSys} {op : Op} (h : s.ShortLists)
    (hexec : s.exec op = some s') : s'.ShortLists := by
  rcases Option.map_eq_some_iff.1 hexec with ⟨⟨ret, s₁⟩, hperform, rfl⟩
  cases op with
  | initMm =>
      obtain ⟨_, rfl⟩ := Prod.mk.inj (Option.some.inj hperform)
      exact h.append Mm.initMm_shortList
  | liballoc p size regIndex =>
      rcases onProc_eq hperform with ⟨c, c', hc, hcall, rfl⟩
      exact h.setCaller (Caller.shortList_liballoc (h.caller hc) hcall)
  | libfree p regIndex =>
      rcases onProc_eq hperform with ⟨c, c', hc, hcall, rfl⟩
      exact h.setCaller (Caller.shortList_libfree (h.caller hc) hcall)
  | libread p source offset destination =>
      rcases onProc_eq hperform with ⟨c, c', hc, hcall, rfl⟩
      rcases Option.map_eq_some_iff.1 hcall with ⟨⟨r, c₁⟩, hread, heq⟩
      obtain ⟨_, rfl⟩ := Prod.mk.inj heq
      exact h.setCaller ((h.caller hc).of_same (Caller.libread_sameNodes hread))
  | libwrite p data destination offset =>
      rcases onProc_eq hperform with ⟨c, c', hc, hcall, rfl⟩
      exact h.setCaller ((h.caller hc).of_same (Caller.write_accessed hcall).sameNodes)
  | incVmaLimit p vmaid incSz =>
      rcases onProc_eq hperform with ⟨c, c', hc, hcall, rfl⟩
      obtain ⟨_, rfl⟩ := Prod.mk.inj (Option.some.inj hcall)
      exact h.setCaller ((h.caller hc).of_same (c.incVmaLimit_sameNodes vmaid incSz))
  | finish p =>
      rcases Option.map_eq_some_iff.1 hperform with ⟨c, _, heq⟩
      obtain ⟨_, rfl⟩ := Prod.mk.inj heq
      exact h.finish p

end PagingSys
end MiniOs
