import MiniOs.Lib.Count
import MiniOs.Lib.FirstFit
import MiniOs.Lib.LinkedList
import MiniOs.Paging.Partition
import MiniOs.Paging.Reports

/-!
# FreeList — first fit in the list of free regions

`get_free_vmrg_area` should give the front of the first region with room, and -1 if there is none.
It compares lengths as `int`, gives 0 for every list that is not empty, and frees the node of a
region that is used up, also when `malloc` does not own it.
-/

namespace MiniOs

open Lib

def VmRg.span (rg : VmRg) : Span := ⟨rg.rgStart.toNat, rg.rgEnd.toNat⟩

/-- A region that passes the test is as long as it says. -/
theorem VmRg.Fits.length_le {rg : VmRg} {size : Addr} (h : rg.Fits size)
    (hle : rg.rgStart ≤ rg.rgEnd) (hpos : 0 < size.toInt) : size.toNat ≤ rg.span.length := by
  have havail : 0 ≤ ((rg.rgEnd - rg.rgStart).setWidth 32 : Addr).toInt := hpos.le.trans h
  have hcut : ((rg.rgEnd - rg.rgStart).setWidth 32 : Addr).toNat =
      (rg.rgEnd.toNat - rg.rgStart.toNat) % 2 ^ 32 := by
    rw [BitVec.toNat_setWidth, BitVec.toNat_sub_of_le hle]
  unfold Fits at h
  rw [toInt_eq_toNat hpos.le, toInt_eq_toNat havail, hcut] at h
  calc
    size.toNat ≤ (rg.rgEnd.toNat - rg.rgStart.toNat) % 2 ^ 32 := by exact_mod_cast h
    _ ≤ rg.rgEnd.toNat - rg.rgStart.toNat := Nat.mod_le _ _

namespace Mm

/-! ## Nodes -/

def link (mm : Mm) (p : RgPtr) : Option (Option RgPtr) := (mm.rg p).map VmRg.rgNext

theorem freeChain_iff (mm : Mm) {head : Option RgPtr} {nodes : List RgPtr} :
    mm.FreeChain head nodes ↔ Segment mm.link head nodes none := by
  induction nodes generalizing head with
  | nil => exact Iff.rfl
  | cons p nodes ih => simp [FreeChain, Segment, link, ih]

theorem rg_freeRg {mm mm' : Mm} {p : RgPtr} (h : mm.freeRg p = some mm') :
    mm'.rg = Function.update mm.rg p none ∧ mm'.mmap = mm.mmap := by
  cases p with
  | sym i => cases h
  | heap n =>
      obtain rfl := Option.some.inj h
      refine ⟨funext fun q => ?_, rfl⟩
      by_cases hq : q = .heap n
      · subst hq
        rw [Function.update_self]
        by_cases hlt : n < mm.rgHeap.length
        · simp [Mm.rg, hlt]
        · have hset : (mm.rgHeap.set n none)[n]? = none :=
            List.getElem?_eq_none (by simpa using hlt)
          simp [Mm.rg, hset]
      · rw [Function.update_of_ne hq]
        cases q with
        | sym j => rfl
        | heap m =>
            have hmn : n ≠ m := fun heq => hq (by rw [heq])
            simp [Mm.rg, List.getElem?_set_ne hmn]

/-- A list has no more nodes than there are. -/
theorem FreeChain.length_le {mm : Mm} {head : Option RgPtr} {nodes : List RgPtr}
    (h : mm.FreeChain head nodes) : nodes.length ≤ mm.rgHeap.length + pagingMaxSymtblSz := by
  have hsegment := mm.freeChain_iff.1 h
  -- number the nodes: first the region table, then the nodes of `malloc`
  let number : RgPtr → ℕ := fun p =>
    match p with
    | .sym i => i.val
    | .heap n => n + pagingMaxSymtblSz
  have hinj : Function.Injective number := by
    intro p q heq
    cases p with
    | sym i =>
        cases q with
        | sym j => exact congrArg RgPtr.sym (Fin.ext heq)
        | heap m =>
            have hlt := i.isLt
            simp only [number] at heq
            omega
    | heap n =>
        cases q with
        | sym j =>
            have hlt := j.isLt
            simp only [number] at heq
            omega
        | heap m => exact congrArg RgPtr.heap (Nat.add_right_cancel heq)
  have hbound := length_le_of_nodup (hsegment.nodup.map hinj) fun x hx => by
    rcases List.mem_map.1 hx with ⟨p, hp, rfl⟩
    rcases hsegment.isSome hp with ⟨n, hn⟩
    cases p with
    | sym i =>
        have hlt := i.isLt
        show i.val < mm.rgHeap.length + pagingMaxSymtblSz
        omega
    | heap m =>
        have hlt : m < mm.rgHeap.length := by
          by_contra hno
          rw [link, Mm.rg, List.getElem?_eq_none (not_lt.1 hno)] at hn
          cases hn
        show m + pagingMaxSymtblSz < mm.rgHeap.length + pagingMaxSymtblSz
        omega
  rwa [List.length_map] at hbound

/-- The region of a node. -/
def span (mm : Mm) (p : RgPtr) : Option Span := (mm.rg p).map VmRg.span

/-- The regions of the nodes, in order. -/
def spans (mm : Mm) (nodes : List RgPtr) : List Span := nodes.filterMap mm.span

@[simp] theorem spans_append (mm : Mm) (nodes nodes' : List RgPtr) :
    mm.spans (nodes ++ nodes') = mm.spans nodes ++ mm.spans nodes' :=
  List.filterMap_append

theorem spans_cons {mm : Mm} {p : RgPtr} {rg : VmRg} (h : mm.rg p = some rg)
    (nodes : List RgPtr) : mm.spans (p :: nodes) = rg.span :: mm.spans nodes := by
  simp [spans, span, h]

theorem spans_congr {mm mm' : Mm} {nodes : List RgPtr} (h : ∀ p ∈ nodes, mm'.span p = mm.span p) :
    mm'.spans nodes = mm.spans nodes :=
  List.filterMap_congr h

/-! ## The search -/

/-- Run lemma for the loop: the nodes that do not pass the test are passed over. -/
theorem findFreeRg_append (mm : Mm) (size : Addr) (fuel : ℕ) {pre post : List RgPtr} :
    ∀ prev {head : Option RgPtr}, mm.FreeChain head (pre ++ post) →
      (∀ p ∈ pre, ∀ rg, mm.rg p = some rg → ¬ rg.Fits size) →
      ∃ mid, mm.FreeChain mid post ∧ mm.findFreeRg size (pre.length + fuel) prev head =
        mm.findFreeRg size fuel (pre.getLast?.or prev) mid := by
  induction pre with
  | nil =>
      intro prev head hchain _
      exact ⟨head, hchain, by simp⟩
  | cons p pre ih =>
      intro prev head hchain hno
      rcases hchain with ⟨rfl, rg, hrg, hrest⟩
      have hskip := hno p (List.mem_cons_self ..) rg hrg
      rcases ih (some p) hrest fun q hq => hno q (List.mem_cons_of_mem p hq) with ⟨mid, hmid, heq⟩
      refine ⟨mid, hmid, ?_⟩
      have hlen : (p :: pre).length + fuel = (pre.length + fuel) + 1 := by
        rw [List.length_cons]
        omega
      rw [hlen, mm.findFreeRg_cons size _ _ hrg, if_neg hskip, heq]
      -- the node before the rest is `p` or a later one
      cases pre with
      | nil => rfl
      | cons q pre =>
          have hlast : (q :: pre).getLast? = some ((q :: pre).getLast (List.cons_ne_nil q pre)) :=
            List.getLast?_eq_some_getLast _
          rw [List.getLast?_cons_cons, hlast]
          rfl

/-- A search that finds no room gives the bounds it began with. -/
theorem getFreeVmrgArea_notFound {mm : Mm} {nodes : List RgPtr} {size : Addr}
    (hchain : mm.FreeChain mm.mmap.vmFreergList nodes) (hne : nodes ≠ [])
    (hno : ∀ p ∈ nodes, ∀ rg, mm.rg p = some rg → ¬ rg.Fits size) :
    mm.getFreeVmrgArea size = some (some (-1, -1), mm) := by
  have hlen := hchain.length_le
  obtain ⟨fuel, hfuel⟩ : ∃ fuel, mm.rgHeap.length + pagingMaxSymtblSz + 1 =
      nodes.length + (fuel + 1) := ⟨mm.rgHeap.length + pagingMaxSymtblSz - nodes.length, by omega⟩
  rcases mm.findFreeRg_append size (fuel + 1) none ((List.append_nil nodes).symm ▸ hchain) hno
    with ⟨mid, rfl, heq⟩
  cases nodes with
  | nil => exact absurd rfl hne
  | cons p nodes =>
      rw [hchain.1] at heq
      rw [getFreeVmrgArea, hchain.1]
      dsimp only
      rw [hfuel, heq]
      rfl

/-- A search that finds room gives the front of the first node that passes the test. -/
theorem getFreeVmrgArea_found {mm : Mm} {pre post : List RgPtr} {p : RgPtr} {size : Addr}
    {rg : VmRg} (hchain : mm.FreeChain mm.mmap.vmFreergList (pre ++ p :: post))
    (hno : ∀ q ∈ pre, ∀ rg, mm.rg q = some rg → ¬ rg.Fits size) (hrg : mm.rg p = some rg)
    (hfits : rg.Fits size) :
    mm.getFreeVmrgArea size = (mm.giveFront size pre.getLast? p rg).map
      fun (newrg, mm) => (some newrg, mm) := by
  have hlen := hchain.length_le
  rw [List.length_append, List.length_cons] at hlen
  obtain ⟨fuel, hfuel⟩ : ∃ fuel, mm.rgHeap.length + pagingMaxSymtblSz + 1 =
      pre.length + (fuel + 1) := ⟨mm.rgHeap.length + pagingMaxSymtblSz - pre.length, by omega⟩
  rcases mm.findFreeRg_append size (fuel + 1) none hchain hno with ⟨mid, ⟨rfl, _⟩, heq⟩
  rw [mm.findFreeRg_cons size fuel _ hrg, if_pos hfits, Option.or_none] at heq
  have hhead : mm.mmap.vmFreergList ≠ none := by
    cases pre with
    | nil => exact hchain.1 ▸ Option.some_ne_none p
    | cons q pre => exact hchain.1 ▸ Option.some_ne_none q
  rcases Option.ne_none_iff_exists'.1 hhead with ⟨q, hq⟩
  rw [hq] at heq
  rw [getFreeVmrgArea, hq]
  dsimp only
  rw [hfuel, heq]

/-! ## The list afterwards -/

section

variable {mm : Mm} {pre post : List RgPtr} {p : RgPtr} {rg : VmRg} {size : Addr}

/-- The end of the front of a region with room, none of which wraps. -/
theorem newEnd_toNat (hpos : 0 < size.toInt) (hroom : size.toNat ≤ rg.span.length) :
    (rg.rgStart + size.signExtend 64).toNat = rg.rgStart.toNat + size.toNat := by
  have hend := rg.rgEnd.isLt
  rw [add_signExtend_toNat_eq_iff]
  unfold VmRg.span Span.length at hroom
  dsimp only at hroom
  exact ⟨hpos.le, by have := size.isLt; omega⟩

/-- New bounds for a node leave the list as it is. -/
theorem FreeChain.setRg {head : Option RgPtr} {nodes : List RgPtr} (h : mm.FreeChain head nodes)
    (hrg : mm.rg p = some rg) {rg' : VmRg} (hnext : rg'.rgNext = rg.rgNext) :
    (mm.setRg p rg').FreeChain head nodes := by
  have hlink : (mm.setRg p rg').link = mm.link := by
    funext q
    rw [link, rg_setRg hrg, link]
    by_cases hq : q = p
    · subst hq
      simp [hrg, hnext]
    · rw [Function.update_of_ne hq]
  rw [freeChain_iff, hlink]
  exact mm.freeChain_iff.1 h

theorem spans_setRg (hrg : mm.rg p = some rg) (rg' : VmRg) {nodes : List RgPtr}
    (hp : p ∉ nodes) : (mm.setRg p rg').spans nodes = mm.spans nodes := by
  refine spans_congr fun q hq => ?_
  have hqp : q ≠ p := fun heq => hp (heq ▸ hq)
  rw [span, rg_setRg hrg, Function.update_of_ne hqp, span]

/-- The node behind `pre` is taken out of the list. -/
theorem unlinkRg_list (hchain : mm.FreeChain mm.mmap.vmFreergList (pre ++ p :: post))
    (hrg : mm.rg p = some rg) :
    ∃ mm', mm.unlinkRg pre.getLast? rg.rgNext = some mm' ∧
      mm'.FreeChain mm'.mmap.vmFreergList (pre ++ post) ∧
      mm'.spans (pre ++ post) = mm.spans (pre ++ post) := by
  rcases List.eq_nil_or_concat pre with rfl | ⟨pre, q, rfl⟩
  · -- the head of the list moves on
    rcases hchain with ⟨_, rg', hrg', hrest⟩
    obtain rfl : rg = rg' := Option.some.inj (hrg.symm.trans hrg')
    refine ⟨_, rfl, (freeChain_iff _).2 ?_, rfl⟩
    exact (mm.freeChain_iff.1 hrest).congr fun _ _ => rfl
  · -- the node before it gets its successor
    rw [List.concat_append] at hchain
    have hsegment := mm.freeChain_iff.1 hchain
    rcases hsegment.isSome (List.mem_append_right pre (List.mem_cons_self ..)) with ⟨next, hnext⟩
    rcases Option.map_eq_some_iff.1 hnext with ⟨node, hnode, _⟩
    have hmap := rg_setRg hnode { node with rgNext := rg.rgNext }
    refine ⟨mm.setRg q { node with rgNext := rg.rgNext }, by simp [unlinkRg, hnode], ?_, ?_⟩
    · have hlink : mm.link p = some rg.rgNext := by rw [link, hrg, Option.map_some]
      rw [setRg_mmap, freeChain_iff, List.concat_append]
      refine (hsegment.unlink hlink).congr fun x _ => ?_
      rw [link, hmap]
      by_cases hxq : x = q
      · simp [hxq]
      · rw [Function.update_of_ne hxq, Function.update_of_ne hxq, link]
    · refine spans_congr fun x _ => ?_
      rw [span, hmap, span]
      by_cases hxq : x = q
      · simp [hxq, hnode, VmRg.span]
      · rw [Function.update_of_ne hxq]

/-- A node that is not on the list is freed. -/
theorem freeRg_list {mm' : Mm} {nodes : List RgPtr} (h : mm.freeRg p = some mm') (hp : p ∉ nodes)
    (hchain : mm.FreeChain mm.mmap.vmFreergList nodes) :
    mm'.FreeChain mm'.mmap.vmFreergList nodes ∧ mm'.spans nodes = mm.spans nodes := by
  rcases rg_freeRg h with ⟨hmap, hmmap⟩
  have hsame : ∀ x ∈ nodes, mm'.rg x = mm.rg x := by
    intro x hx
    have hxp : x ≠ p := fun heq => hp (heq ▸ hx)
    rw [hmap, Function.update_of_ne hxp]
  rw [hmmap, freeChain_iff]
  exact ⟨(mm.freeChain_iff.1 hchain).congr fun x hx => by rw [link, hsame x hx, link],
    spans_congr fun x hx => by rw [span, hsame x hx, span]⟩

/-- A region that is not used up keeps its place. -/
theorem giveFront_rest (hchain : mm.FreeChain mm.mmap.vmFreergList (pre ++ p :: post))
    (hrg : mm.rg p = some rg) (hpos : 0 < size.toInt) (hroom : size.toNat ≤ rg.span.length)
    (hleft : rg.rgStart.toNat + size.toNat < rg.rgEnd.toNat) (prev : Option RgPtr) :
    ∃ mm' nodes, mm.giveFront size prev p rg =
        some ((rg.rgStart, rg.rgStart + size.signExtend 64), mm') ∧
      mm'.FreeChain mm'.mmap.vmFreergList nodes ∧
      mm'.spans nodes = mm.spans pre ++ (rg.span.behind size.toNat ++ mm.spans post) := by
  have hend := newEnd_toNat hpos hroom
  have hno : ¬ rg.rgEnd ≤ rg.rgStart + size.signExtend 64 := by
    rw [BitVec.le_def, hend]
    omega
  have hp := (List.nodup_middle.1 (mm.freeChain_iff.1 hchain).nodup).notMem
  refine ⟨mm.setRg p { rg with rgStart := rg.rgStart + size.signExtend 64 }, pre ++ p :: post,
    ?_, ?_, ?_⟩
  · simp only [giveFront, hno, if_false]
  · rw [setRg_mmap]
    exact hchain.setRg hrg rfl
  · rw [spans_append, spans_cons (by rw [rg_setRg hrg, Function.update_self]),
      spans_setRg hrg _ fun hpre => hp (List.mem_append_left _ hpre),
      spans_setRg hrg _ fun hpost => hp (List.mem_append_right _ hpost)]
    simp [VmRg.span, Span.behind, hend, hleft]

/-- A region that is used up leaves the list with its node, if `malloc` owns it. -/
theorem giveFront_usedUp (hchain : mm.FreeChain mm.mmap.vmFreergList (pre ++ p :: post))
    (hrg : mm.rg p = some rg) (hpos : 0 < size.toInt) (hroom : size.toNat ≤ rg.span.length)
    (hleft : rg.rgEnd.toNat ≤ rg.rgStart.toNat + size.toNat) {n : ℕ} (hheap : p = .heap n) :
    ∃ mm' nodes, mm.giveFront size pre.getLast? p rg =
        some ((rg.rgStart, rg.rgStart + size.signExtend 64), mm') ∧
      mm'.FreeChain mm'.mmap.vmFreergList nodes ∧
      mm'.spans nodes = mm.spans pre ++ (rg.span.behind size.toNat ++ mm.spans post) := by
  have hyes : rg.rgEnd ≤ rg.rgStart + size.signExtend 64 := by
    rw [BitVec.le_def, newEnd_toNat hpos hroom]
    exact hleft
  have hbehind : rg.span.behind size.toNat = [] := by
    simp [VmRg.span, Span.behind, not_lt.2 hleft]
  have hp := (List.nodup_middle.1 (mm.freeChain_iff.1 hchain).nodup).notMem
  -- the node gets its new start, is taken out, and is freed
  have hmap := rg_setRg hrg { rg with rgStart := rg.rgStart + size.signExtend 64 }
  have hchain₁ : (mm.setRg p { rg with rgStart := rg.rgStart + size.signExtend 64 }).FreeChain
      mm.mmap.vmFreergList (pre ++ p :: post) := hchain.setRg hrg rfl
  have hspans := spans_setRg hrg { rg with rgStart := rg.rgStart + size.signExtend 64 } hp
  rw [← setRg_mmap mm p] at hchain₁
  rcases unlinkRg_list hchain₁ (by rw [hmap, Function.update_self]) with
    ⟨mm₂, hunlink, hchain₂, hspans₂⟩
  obtain ⟨mm₃, hfree⟩ : ∃ mm₃, mm₂.freeRg p = some mm₃ := ⟨_, by rw [hheap]; rfl⟩
  rcases freeRg_list hfree hp hchain₂ with ⟨hchain₃, hspans₃⟩
  refine ⟨mm₃, pre ++ post, ?_, hchain₃, ?_⟩
  · dsimp only at hunlink
    simp only [giveFront, hyes, if_true, hunlink, Option.bind_some, hfree, Option.map_some]
  · rw [hspans₃, hspans₂, hspans, hbehind, List.nil_append, spans_append]

end

/-! ## First fit -/

/-- What first fit asks of `get_free_vmrg_area`: the front of the first region with room, which
keeps the rest of it; without such a region -1, and nothing is changed. -/
def FirstFit (mm : Mm) (nodes : List RgPtr) (size : Addr) : Prop :=
  match Lib.firstFit size.toNat (mm.spans nodes) with
  | none => mm.getFreeVmrgArea size = some (none, mm)
  | some (got, rest) => ∃ rgStart rgEnd mm' nodes',
      mm.getFreeVmrgArea size = some (some (rgStart, rgEnd), mm') ∧
      rgStart.toNat = got.start ∧ rgEnd.toNat = got.stop ∧
      mm'.FreeChain mm'.mmap.vmFreergList nodes' ∧ mm'.spans nodes' = rest

/-- The list is empty; or there is a region with room, the first of them passes the test with its
length read as an `int`, and it is not used up unless its node is one of `malloc`. -/
def FirstServes (mm : Mm) (nodes : List RgPtr) (size : Addr) : Prop :=
  nodes = [] ∨ ∃ pre p post rg, nodes = pre ++ p :: post ∧
    (∀ r ∈ mm.spans pre, r.length < size.toNat) ∧ mm.rg p = some rg ∧
    size.toNat ≤ rg.span.length ∧ rg.Fits size ∧
    (rg.rgEnd.toNat ≤ rg.rgStart.toNat + size.toNat → ∃ n, p = .heap n)

/-- A list of disjoint regions, none of which ends before it begins. -/
structure FreeRegions (mm : Mm) (nodes : List RgPtr) : Prop where
  chain : mm.FreeChain mm.mmap.vmFreergList nodes
  bounds : ∀ p ∈ nodes, ∀ rg, mm.rg p = some rg → rg.rgStart ≤ rg.rgEnd
  apart : (mm.spans nodes).Pairwise Span.Apart

/-- The first node of a list with a property, if there is one. -/
theorem firstNode (mm : Mm) (Q : VmRg → Prop) (nodes : List RgPtr) :
    (∀ p ∈ nodes, ∀ rg, mm.rg p = some rg → ¬ Q rg) ∨
      ∃ pre p post rg, nodes = pre ++ p :: post ∧
        (∀ q ∈ pre, ∀ rg, mm.rg q = some rg → ¬ Q rg) ∧ mm.rg p = some rg ∧ Q rg := by
  induction nodes with
  | nil => exact Or.inl nofun
  | cons p nodes ih =>
      by_cases hp : ∃ rg, mm.rg p = some rg ∧ Q rg
      · rcases hp with ⟨rg, hrg, hQ⟩
        exact Or.inr ⟨[], p, nodes, rg, rfl, nofun, hrg, hQ⟩
      · have hno : ∀ rg, mm.rg p = some rg → ¬ Q rg := fun rg hrg hQ => hp ⟨rg, hrg, hQ⟩
        rcases ih with hnone | ⟨pre, q, post, rg, rfl, hpre, hrg, hQ⟩
        · exact Or.inl (List.forall_mem_cons.2 ⟨hno, hnone⟩)
        · exact Or.inr ⟨p :: pre, q, post, rg, rfl, List.forall_mem_cons.2 ⟨hno, hpre⟩, hrg, hQ⟩

theorem spans_short_iff (mm : Mm) (nodes : List RgPtr) (n : ℕ) :
    (∀ r ∈ mm.spans nodes, r.length < n) ↔
      ∀ p ∈ nodes, ∀ rg, mm.rg p = some rg → ¬ n ≤ rg.span.length := by
  constructor
  · intro h p hp rg hrg
    refine not_le.2 (h rg.span (List.mem_filterMap.2 ⟨p, hp, ?_⟩))
    rw [span, hrg, Option.map_some]
  · intro h r hr
    rcases List.mem_filterMap.1 hr with ⟨p, hp, hspan⟩
    rcases Option.map_eq_some_iff.1 hspan with ⟨rg, hrg, rfl⟩
    exact not_le.1 (h p hp rg hrg)

/-- An entry of the region table cannot be freed. -/
theorem giveFront_sym {mm : Mm} {size : Addr} {prev : Option RgPtr} {i : Fin pagingMaxSymtblSz}
    {rg : VmRg} (h : rg.rgEnd ≤ rg.rgStart + size.signExtend 64) :
    mm.giveFront size prev (.sym i) rg = none := by
  simp [giveFront, h, freeRg]

section

variable {mm : Mm} {nodes : List RgPtr} {size : Addr}

/-- A region that starts where the one found starts is that one. -/
theorem FreeRegions.start_ne (h : mm.FreeRegions nodes) {p q : RgPtr} {rg rg' : VmRg}
    (hp : p ∈ nodes) (hq : q ∈ nodes) (hpq : p ≠ q) (hrg : mm.rg p = some rg)
    (hrg' : mm.rg q = some rg') (hpos : 0 < rg.span.length) (hpos' : 0 < rg'.span.length) :
    rg.rgStart.toNat ≠ rg'.rgStart.toNat := by
  have hpair := List.pairwise_filterMap.1 h.apart
  have hsymm : Std.Symm fun a b => ∀ r, mm.span a = some r → ∀ r', mm.span b = some r' →
      r.Apart r' := ⟨fun a b hab r hr r' hr' => (hab r' hr' r hr).symm⟩
  have hspan : mm.span p = some rg.span := by rw [Mm.span, hrg, Option.map_some]
  have hspan' : mm.span q = some rg'.span := by rw [Mm.span, hrg', Option.map_some]
  have happ := hpair.forall hp hq hpq rg.span hspan rg'.span hspan'
  exact happ.start_ne hpos hpos'

theorem firstFit_of_serves (h : mm.FreeRegions nodes) (hpos : 0 < size.toInt)
    (hserves : mm.FirstServes nodes size) : mm.FirstFit nodes size := by
  unfold FirstFit
  rcases hserves with rfl | ⟨pre, p, post, rg, rfl, hshort, hrg, hroom, hfits, hheap⟩
  · have hhead : mm.mmap.vmFreergList = none := h.chain
    simp [spans, Lib.firstFit, getFreeVmrgArea, hhead]
  · rw [spans_append, spans_cons hrg, firstFit_found hshort hroom]
    have hno : ∀ q ∈ pre, ∀ rg, mm.rg q = some rg → ¬ rg.Fits size := by
      intro q hq rg' hrg' hfit
      refine (mm.spans_short_iff pre _).1 hshort q hq rg' hrg' ?_
      exact hfit.length_le (h.bounds q (List.mem_append_left _ hq) rg' hrg') hpos
    rw [getFreeVmrgArea_found h.chain hno hrg hfits]
    have hgive : ∃ mm' nodes', mm.giveFront size pre.getLast? p rg =
          some ((rg.rgStart, rg.rgStart + size.signExtend 64), mm') ∧
        mm'.FreeChain mm'.mmap.vmFreergList nodes' ∧
        mm'.spans nodes' = mm.spans pre ++ (rg.span.behind size.toNat ++ mm.spans post) := by
      by_cases hleft : rg.rgEnd.toNat ≤ rg.rgStart.toNat + size.toNat
      · rcases hheap hleft with ⟨n, hn⟩
        exact giveFront_usedUp h.chain hrg hpos hroom hleft hn
      · exact giveFront_rest h.chain hrg hpos hroom (not_le.1 hleft) _
    rcases hgive with ⟨mm', nodes', heq, hchain', hspans⟩
    exact ⟨_, _, mm', nodes', by rw [heq, Option.map_some], rfl, newEnd_toNat hpos hroom, hchain',
      hspans⟩

/-- A region with room whose front is given has passed the test. -/
theorem FreeRegions.fits_of_start (h : mm.FreeRegions nodes) (hpos : 0 < size.toInt) {p : RgPtr}
    {rg : VmRg} (hp : p ∈ nodes) (hrg : mm.rg p = some rg) (hroom : size.toNat ≤ rg.span.length)
    {rgStart rgEnd : ULong} {mm' : Mm}
    (hget : mm.getFreeVmrgArea size = some (some (rgStart, rgEnd), mm'))
    (hstart : rgStart.toNat = rg.rgStart.toNat) : rg.Fits size := by
  have hsize : 0 < size.toNat := by
    rw [toInt_eq_toNat hpos.le] at hpos
    omega
  by_contra hno
  rcases mm.firstNode (fun rg => rg.Fits size) nodes with
    hnone | ⟨pre, q, post, rg', rfl, hpre, hrg', hfits'⟩
  · -- no node passes the test, and the bounds are -1
    rw [getFreeVmrgArea_notFound h.chain (List.ne_nil_of_mem hp) hnone] at hget
    obtain ⟨⟨rfl, rfl⟩, rfl⟩ : (-1 = rgStart ∧ -1 = rgEnd) ∧ mm = mm' := by simpa using hget
    have htop : (-1 : ULong).toNat = 2 ^ 64 - 1 := rfl
    have hlt := rg.rgEnd.isLt
    have hlen : size.toNat ≤ rg.rgEnd.toNat - rg.rgStart.toNat := hroom
    omega
  · -- a later one passes it, which starts elsewhere
    rw [getFreeVmrgArea_found h.chain hpre hrg' hfits'] at hget
    rcases Option.map_eq_some_iff.1 hget with ⟨⟨bounds, mm₂⟩, hgive, hboth⟩
    obtain ⟨rfl, rfl⟩ : bounds = (rgStart, rgEnd) ∧ mm₂ = mm' := by simpa using hboth
    have hq : q ∈ pre ++ q :: post := by simp
    have hne : p ≠ q := by
      rintro rfl
      obtain rfl : rg = rg' := Option.some.inj (hrg.symm.trans hrg')
      exact hno hfits'
    have hlen' := hfits'.length_le (h.bounds q hq rg' hrg') hpos
    refine h.start_ne hp hq hne hrg hrg' (by omega) (by omega) ?_
    have hfront := congrArg Prod.fst (giveFront_cases hgive).1
    exact hstart.symm.trans (congrArg BitVec.toNat hfront)

theorem serves_of_firstFit (h : mm.FreeRegions nodes) (hpos : 0 < size.toInt)
    (hfirst : mm.FirstFit nodes size) : mm.FirstServes nodes size := by
  by_cases hne : nodes = []
  · exact Or.inl hne
  · refine Or.inr ?_
    have hlength : ∀ p ∈ nodes, ∀ rg, mm.rg p = some rg → rg.Fits size →
        size.toNat ≤ rg.span.length :=
      fun p hp rg hrg hfits => hfits.length_le (h.bounds p hp rg hrg) hpos
    unfold FirstFit at hfirst
    rcases mm.firstNode (fun rg => size.toNat ≤ rg.span.length) nodes with
      hshort | ⟨pre, p, post, rg, rfl, hshort, hrg, hroom⟩
    · -- no room: -1 was to be returned
      rw [firstFit_none ((mm.spans_short_iff nodes _).2 hshort),
        getFreeVmrgArea_notFound h.chain hne
          fun p hp rg hrg hfits => hshort p hp rg hrg (hlength p hp rg hrg hfits)] at hfirst
      cases hfirst
    · have hshort' := (mm.spans_short_iff pre _).2 hshort
      rw [spans_append, spans_cons hrg, firstFit_found hshort' hroom] at hfirst
      rcases hfirst with ⟨rgStart, rgEnd, mm', nodes', hget, hstart, hend, _, _⟩
      have hfits := h.fits_of_start hpos (by simp) hrg hroom hget hstart
      refine ⟨pre, p, post, rg, rfl, hshort', hrg, hroom, hfits, fun hleft => ?_⟩
      cases p with
      | heap n => exact ⟨n, rfl⟩
      | sym i =>
          have hused : rg.rgEnd ≤ rg.rgStart + size.signExtend 64 := by
            rw [BitVec.le_def, newEnd_toNat hpos hroom]
            exact hleft
          have hno : ∀ q ∈ pre, ∀ rg, mm.rg q = some rg → ¬ rg.Fits size :=
            fun q hq rg' hrg' hfit => hshort q hq rg' hrg'
              (hlength q (List.mem_append_left _ hq) rg' hrg' hfit)
          rw [getFreeVmrgArea_found h.chain hno hrg hfits, giveFront_sym hused] at hget
          cases hget

/-- For every list of disjoint regions and every size that is a positive `int`: `get_free_vmrg_area`
gives the first fit exactly if the list is empty, or the first region with room passes the test and
may be freed if it is used up. -/
theorem firstFit_iff (h : mm.FreeRegions nodes) (hpos : 0 < size.toInt) :
    mm.FirstFit nodes size ↔ mm.FirstServes nodes size :=
  ⟨serves_of_firstFit h hpos, firstFit_of_serves h hpos⟩

end

/-- The list of a new process is one region without a byte. -/
theorem initMm_freeRegions : (initMm zeroed).FreeRegions [.heap 0] where
  chain := ⟨rfl, _, rfl, rfl⟩
  bounds := by
    intro p hp rg hrg
    obtain rfl := List.mem_singleton.1 hp
    obtain rfl := Option.some.inj hrg
    exact BitVec.le_refl _
  apart := List.pairwise_singleton _ _

/-- The first allocation of a new process: there is no room, and 0 is returned. -/
theorem newProcess_not_firstFit :
    (initMm zeroed).FreeRegions [.heap 0] ∧ ¬ (initMm zeroed).FirstFit [.heap 0] 300#32 := by
  refine ⟨initMm_freeRegions, fun h => ?_⟩
  have hnone : Lib.firstFit (300#32).toNat ((initMm zeroed).spans [.heap 0]) = none := by decide
  have hget : ((initMm zeroed).getFreeVmrgArea 300#32).map Prod.fst = some (some (-1, -1)) := by
    decide
  rw [FirstFit, hnone] at h
  rw [h] at hget
  cases hget

/-- A list of 64, 100 and 256 bytes; the second node is an entry of the region table. -/
def threeRegions : Mm :=
  { zeroed with
    mmap := ⟨0, 1024, 1024, some (.heap 0)⟩
    rgHeap := [some ⟨512, 576, some (.sym 4)⟩, some ⟨256, 512, none⟩]
    symrgtbl := Function.update zeroed.symrgtbl 4 ⟨0, 100, some (.heap 1)⟩ }

theorem threeRegions_freeRegions : threeRegions.FreeRegions [.heap 0, .sym 4, .heap 1] where
  chain := ⟨rfl, _, rfl, rfl, _, rfl, rfl, _, rfl, rfl⟩
  bounds := by
    intro p hp rg hrg
    simp only [List.mem_cons, List.not_mem_nil, or_false] at hp
    rcases hp with rfl | rfl | rfl <;> (obtain rfl := Option.some.inj hrg; decide)
  apart := by
    have hspans : threeRegions.spans [.heap 0, .sym 4, .heap 1] =
        [⟨512, 576⟩, ⟨0, 100⟩, ⟨256, 512⟩] := by decide
    rw [hspans]
    simp [Span.Apart]

/-- The first region is too small for 80 bytes, which are the front of the second; 256 bytes are all
of the third. -/
theorem threeRegions_firstFit :
    threeRegions.FirstFit [.heap 0, .sym 4, .heap 1] 80#32 ∧
      threeRegions.FirstFit [.heap 0, .sym 4, .heap 1] 256#32 := by
  constructor
  · refine (firstFit_iff threeRegions_freeRegions (by decide)).2 (Or.inr ⟨[.heap 0], .sym 4,
      [.heap 1], ⟨0, 100, some (.heap 1)⟩, rfl, by decide, rfl, by decide, by decide, ?_⟩)
    intro hused
    exact absurd hused (by decide)
  · exact (firstFit_iff threeRegions_freeRegions (by decide)).2 (Or.inr ⟨[.heap 0, .sym 4],
      .heap 1, [], ⟨256, 512, none⟩, rfl, by decide, rfl, by decide, by decide,
      fun _ => ⟨1, rfl⟩⟩)

end Mm
end MiniOs
