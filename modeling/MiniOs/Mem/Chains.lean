import MiniOs.Lib.LinkedList
import MiniOs.Mem.Rows

/-!
# Chains — `_mem_stat` agrees with the page tables

Every successful `alloc_mem` leaves a chain in `_mem_stat`.  The account `grants` notes these calls;
the invariant `Recorded` says that each of them still has its chain, that the chains are disjoint,
and that every page in use is in one of them.
-/

namespace MiniOs

open Lib

/-- The page behind a page, as `next` says: -1 ends a chain. -/
def nextPage (memStat : Fin numPages → MemStat) (k : Fin numPages) :
    Option (Option (Fin numPages)) :=
  if (memStat k).next = -1 then some none
  else if h : 0 ≤ (memStat k).next ∧ (memStat k).next < 1024 then
    some (some ⟨(memStat k).next.toNat, (Int.toNat_lt h.1).2 h.2⟩)
  else none

theorem nextPage_of_next {memStat : Fin numPages → MemStat} {k : Fin numPages}
    {o : Option (Fin numPages)} (h : (memStat k).next = pageNumber o) :
    nextPage memStat k = some o := by
  cases o with
  | none =>
      have hend : (memStat k).next = -1 := h
      rw [nextPage, if_pos hend]
  | some j =>
      have hj : j.val < 1024 := j.isLt
      simp only [pageNumber] at h
      have hbounds : 0 ≤ (memStat k).next ∧ (memStat k).next < 1024 := by omega
      have hend : (memStat k).next ≠ -1 := by omega
      rw [nextPage, if_neg hend, dif_pos hbounds]
      simp [h]

/-- The pages of an allocation are a chain, whatever happens to other pages. -/
theorem Linked.segment {st₀ st : Alloc} {pages : List (Fin numPages)} (h : Linked st₀ pages st) :
    Segment (nextPage st.memStat) pages.head? pages none := by
  refine segment_head?.2 fun k hk => nextPage_of_next ?_
  rw [h.stat k hk]

namespace MemSys

/-- A successful call: who made it, what it returned, and how many pages it was for. -/
structure Grant (ι : Type) where
  caller : ι
  ret : Addr
  count : Nat

variable {ι : Type} [DecidableEq ι]

def grant (s : MemSys ι) : MemCall ι → List (Grant ι)
  | .allocMem i size =>
      if s.returns i size = 0#32 then [] else [⟨i, s.returns i size, pagesNeeded size⟩]
  | .writeMem _ _ _ | .readMem _ _ => []

/-- The successful calls of `alloc_mem`, the first one first. -/
def grants (s : MemSys ι) : List (MemCall ι) → List (Grant ι)
  | [] => []
  | c :: cs => s.grant c ++ (s.call c).grants cs

/-- `pages` is the chain of a call: `next` leads from page to page and ends in -1, and the `k`-th
page has index `k` and holds the `k`-th page of the addresses that the call returned. -/
structure IsChain (s : MemSys ι) (g : Grant ι) (pages : List (Fin numPages)) : Prop where
  follows : Segment (nextPage s.mem.memStat) pages.head? pages none
  length : pages.length = g.count
  nodup : pages.Nodup
  owned : ∀ k (h : k < pages.length), (s.mem.memStat pages[k]).proc = (s.proc g.caller).pid ∧
    (s.mem.memStat pages[k]).index = k
  translated : ∀ k (h : k < pages.length), ∃ q,
    s.translation g.caller (pageAt g.ret k) = some q ∧ q.toNat / 1024 = pages[k].val

/-- Every call has a chain, no two chains have a page in common, and the pages that no table maps
are the free ones. -/
structure Agree (s : MemSys ι) (gs : List (Grant ι)) (chains : List (List (Fin numPages))) :
    Prop where
  each : List.Forall₂ s.IsChain gs chains
  disjoint : chains.Pairwise List.Disjoint
  free_iff : ∀ k : Fin numPages, (s.mem.memStat k).proc = 0#32 ↔
    ∀ i, ∀ row ∈ (s.proc i).pageTable, ∀ e ∈ row.nextLv, e.pIndex ≠ BitVec.ofNat 32 k.val

/-! ## What a call keeps -/

/-- A call leaves the pages in use and the translations as they are. -/
structure Keeps (s s' : MemSys ι) : Prop where
  stat : ∀ k, (s.mem.memStat k).proc ≠ 0#32 → s'.mem.memStat k = s.mem.memStat k
  pid : ∀ i, (s'.proc i).pid = (s.proc i).pid
  translation : Extends s.translation s'.translation

variable {procs : Processes ι} {s s' : MemSys ι} {top : ι → Nat}

omit [DecidableEq ι] in
theorem IsChain.keeps {g : Grant ι} {pages : List (Fin numPages)} (h : s.IsChain g pages)
    (hkeeps : Keeps s s') (hpid : (s.proc g.caller).pid ≠ 0#32) : s'.IsChain g pages := by
  -- the pages of the chain are in use
  have hstat : ∀ k (hk : k < pages.length), s'.mem.memStat pages[k] = s.mem.memStat pages[k] :=
    fun k hk => hkeeps.stat _ ((h.owned k hk).1 ▸ hpid)
  have hlink : ∀ p ∈ pages, nextPage s'.mem.memStat p = nextPage s.mem.memStat p := by
    intro p hp
    rcases List.getElem_of_mem hp with ⟨k, hk, rfl⟩
    simp only [nextPage, hstat k hk]
  refine ⟨h.follows.congr hlink, h.length, h.nodup, fun k hk => ?_, fun k hk => ?_⟩
  · rw [hstat k hk, hkeeps.pid]
    exact h.owned k hk
  · rcases h.translated k hk with ⟨q, hq, hpage⟩
    exact ⟨q, hkeeps.translation _ _ _ hq, hpage⟩

/-! ## The invariant -/

structure Recorded (s : MemSys ι) (gs : List (Grant ι)) (chains : List (List (Fin numPages))) :
    Prop where
  each : List.Forall₂ s.IsChain gs chains
  disjoint : chains.Pairwise List.Disjoint
  used : ∀ k, (s.mem.memStat k).proc ≠ 0#32 ↔ ∃ pages ∈ chains, k ∈ pages

/-- A call that takes no page keeps the chains. -/
theorem Recorded.keeps {gs : List (Grant ι)} {chains : List (List (Fin numPages))}
    (h : s.Recorded gs chains) (hinv : Inv procs s top) (hkeeps : Keeps s s')
    (hfree : ∀ k, (s.mem.memStat k).proc = 0#32 → (s'.mem.memStat k).proc = 0#32) :
    s'.Recorded gs chains := by
  refine ⟨h.each.imp fun g pages hchain => hchain.keeps hkeeps (hinv.pid_ne_zero g.caller),
    h.disjoint, fun k => ?_⟩
  rw [← h.used k]
  by_cases hk : (s.mem.memStat k).proc = 0#32
  · exact iff_of_false (fun hne => hne (hfree k hk)) fun hne => hne hk
  · rw [hkeeps.stat k hk]

omit [DecidableEq ι] in
theorem recorded_init (procs : Processes ι) : (init procs).Recorded [] [] := by
  refine ⟨List.Forall₂.nil, List.Pairwise.nil, fun k => ?_⟩
  exact iff_of_false (fun hne => hne rfl) (by simp)

/-- The pages of a new allocation are the chain of its call. -/
theorem Inv.isChain (h : Inv procs s top) {i : ι} {size : Addr} (hfits : s.Fits size (top i)) :
    (s.grown i (allocDone s.mem size (s.proc i))).IsChain ⟨i, (s.proc i).bp, pagesNeeded size⟩
      (nextFree s.mem.memStat (pagesNeeded size)) := by
  rcases h.allocDone_spec hfits with ⟨hlinked, hgrows, _, hmapped⟩
  refine ⟨hlinked.segment, nextFree_length hfits.1, hlinked.nodup, fun k hk => ?_, fun k hk => ?_⟩
  · have hstat : (s.grown i (allocDone s.mem size (s.proc i))).mem.memStat
        (nextFree s.mem.memStat (pagesNeeded size))[k] = _ := hlinked.stat k hk
    rw [hstat, grown_proc_self, hgrows.pid]
    exact ⟨rfl, rfl⟩
  · rw [grown_translation_self, translate_eq, hmapped k hk]
    refine ⟨_, rfl, ?_⟩
    rw [physical_toNat (Fin.isLt _)]
    omega

theorem Inv.keeps_grown (h : Inv procs s top) {i : ι} {size : Addr} (hfits : s.Fits size (top i)) :
    Keeps s (s.grown i (allocDone s.mem size (s.proc i))) := by
  rcases h.allocDone_spec hfits with ⟨hlinked, hgrows, _, _⟩
  refine ⟨fun k hk => hlinked.others k fun hmem => hk (mem_nextFree hmem), fun j => ?_,
    (h.allocated hgrows).keeps⟩
  by_cases hj : j = i
  · subst hj
    rw [grown_proc_self]
    exact hgrows.pid
  · rw [(h.allocated hgrows).others j hj]

/-- Step lemma for `alloc_mem`. -/
theorem Recorded.allocMem {gs : List (Grant ι)} {chains : List (List (Fin numPages))}
    (h : s.Recorded gs chains) (hinv : Inv procs s top) (i : ι) (size : Addr) :
    ∃ chains', (s.call (.allocMem i size)).Recorded (gs ++ s.grant (.allocMem i size))
      chains' := by
  rcases hinv.outcomes i size with ⟨_, hfail⟩ | ⟨hfits, hok⟩
  · have hzero : s.returns i size = 0#32 := congrArg Prod.fst hfail
    have hsame : s.call (.allocMem i size) = s := by simp [call, hfail]
    rw [hsame, grant, if_pos hzero, List.append_nil]
    exact ⟨chains, h⟩
  · have hret : s.returns i size = (s.proc i).bp := congrArg Prod.fst hok
    have hne : s.returns i size ≠ 0#32 := by
      have hbp := hinv.bp i
      have hroom := hfits.2
      exact (hinv.exact i size).nonzero_iff.2 ⟨hfits.1, by omega⟩
    rw [call_allocDone hok, grant, if_neg hne, hret]
    refine ⟨chains ++ [nextFree s.mem.memStat (pagesNeeded size)], ?_, ?_, fun k => ?_⟩
    · have hold : List.Forall₂ (s.grown i (allocDone s.mem size (s.proc i))).IsChain gs chains :=
        h.each.imp fun g pages hchain => hchain.keeps (hinv.keeps_grown hfits)
          (hinv.pid_ne_zero g.caller)
      exact List.rel_append hold (List.Forall₂.cons (hinv.isChain hfits) List.Forall₂.nil)
    · -- the pages of the older chains were in use
      refine List.pairwise_append.2 ⟨h.disjoint, List.pairwise_singleton .., ?_⟩
      intro pages hpages pages' hpages' k hk hk'
      obtain rfl := List.mem_singleton.1 hpages'
      exact (h.used k).2 ⟨pages, hpages, hk⟩ (mem_nextFree hk')
    · rcases hinv.allocDone_spec hfits with ⟨hlinked, _, _, _⟩
      have hstat : (s.grown i (allocDone s.mem size (s.proc i))).mem.memStat =
          (allocDone s.mem size (s.proc i)).memStat := rfl
      simp only [List.mem_append, List.mem_singleton, or_and_right, exists_or, exists_eq_left]
      rw [hstat, ← h.used k]
      by_cases hk : k ∈ nextFree s.mem.memStat (pagesNeeded size)
      · refine iff_of_true ?_ (Or.inr hk)
        rcases List.getElem_of_mem hk with ⟨n, hn, rfl⟩
        rw [hlinked.stat n hn]
        exact hinv.pid_ne_zero i
      · rw [hlinked.others k hk, or_iff_left hk]

/-- Step lemma: every call keeps the record. -/
theorem Recorded.call {gs : List (Grant ι)} {chains : List (List (Fin numPages))}
    (h : s.Recorded gs chains) (hinv : Inv procs s top) (c : MemCall ι) :
    ∃ chains', (s.call c).Recorded (gs ++ s.grant c) chains' := by
  cases c with
  | allocMem i size => exact h.allocMem hinv i size
  | writeMem i a data =>
      rw [call_writeMem, grant, List.append_nil]
      refine ⟨chains, ?_⟩
      split
      · exact h
      · exact h.keeps hinv ⟨fun _ _ => rfl, fun _ => rfl, fun _ _ _ hq => hq⟩ fun _ hk => hk
  | readMem i a =>
      rw [grant, List.append_nil]
      exact ⟨chains, h⟩

/-- Run lemma. -/
theorem Recorded.calls (cs : List (MemCall ι)) : ∀ {s : MemSys ι} {top : ι → Nat}
    {gs : List (Grant ι)} {chains : List (List (Fin numPages))}, s.Recorded gs chains →
    Inv procs s top → ∃ chains', (s.calls cs).Recorded (gs ++ s.grants cs) chains' := by
  induction cs with
  | nil =>
      intro s top gs chains h _
      rw [grants, List.append_nil]
      exact ⟨chains, h⟩
  | cons c cs ih =>
      intro s top gs chains h hinv
      rcases h.call hinv c with ⟨_, h'⟩
      rcases hinv.call c with ⟨_, hinv'⟩
      rw [grants, ← List.append_assoc]
      exact ih h' hinv'

/-! ## Agreement -/

/-- A page in use is mapped: its call returned addresses that it holds. -/
theorem Recorded.mapped {gs : List (Grant ι)} {chains : List (List (Fin numPages))}
    (h : s.Recorded gs chains) (hinv : Inv procs s top) {k : Fin numPages}
    (hk : (s.mem.memStat k).proc ≠ 0#32) :
    ∃ i f e, lookup (s.proc i).pageTable f e = some (BitVec.ofNat 32 k.val) := by
  rcases (h.used k).1 hk with ⟨pages, hpages, hmem⟩
  rcases List.getElem_of_mem hpages with ⟨m, hm, rfl⟩
  have hchain := (List.forall₂_iff_get.1 h.each).2 m (h.each.length_eq ▸ hm) hm
  rcases List.getElem_of_mem hmem with ⟨n, hn, rfl⟩
  rcases hchain.translated n hn with ⟨q, hq, hpage⟩
  rcases (hinv.table _).translate_some hq with ⟨k', hlook, _, hnat⟩
  have hsame : k' = chains[m][n] := by
    apply Fin.ext
    simp only [List.get_eq_getElem] at hpage
    omega
  subst hsame
  exact ⟨_, _, _, hlook⟩

theorem Recorded.agree {gs : List (Grant ι)} {chains : List (List (Fin numPages))}
    (h : s.Recorded gs chains) (hinv : Inv procs s top) : s.Agree gs chains := by
  refine ⟨h.each, h.disjoint, fun k => ⟨fun hfree i row hrow e he heq => ?_, fun hnone => ?_⟩⟩
  · -- a mapped page has an owner
    have hlook := (hinv.table i).rows.lookup_iff.2 ⟨row, hrow, rfl, he⟩
    rcases (hinv.table i).owned _ _ _ hlook with ⟨k', hk', howned⟩
    obtain rfl := ofNat_fin_injective (heq.symm.trans hk')
    exact procs.pid_ne_zero i (howned.symm.trans hfree)
  · by_contra hused
    rcases h.mapped hinv hused with ⟨i, f, e, hlook⟩
    rcases (hinv.table i).rows.lookup_iff.1 hlook with ⟨row, hrow, _, hmem⟩
    exact hnone i row hrow _ hmem rfl

/-- In every state reached from `init_mem`. -/
theorem chains_agree (procs : Processes ι) (cs : List (MemCall ι)) :
    ∃ chains, ((init procs).calls cs).Agree ((init procs).grants cs) chains := by
  rcases (inv_init procs).calls cs with ⟨top, hinv⟩
  rcases (recorded_init procs).calls cs (inv_init procs) with ⟨chains, h⟩
  exact ⟨chains, h.agree hinv⟩

end MemSys
end MiniOs
