import Mathlib.Data.List.Nodup
import Mathlib.Logic.Function.Basic

/-!
# LinkedList — chains of nodes behind a pointer

`link p` is the successor stored in the node `p`, if `p` is a node.  `Segment link a l b` says that
the nodes from the pointer `a` up to the pointer `b` are `l`; a list ends in the null pointer.
The nodes of a list are determined by its head (`Segment.unique`) and different from each other
(`Segment.nodup`); `Segment.unlink` takes one out.
-/

namespace MiniOs
namespace Lib

universe u

variable {P : Type u} {link link' : P → Option (Option P)}

def Segment (link : P → Option (Option P)) : Option P → List P → Option P → Prop
  | a, [], b => a = b
  | a, p :: l, b => a = some p ∧ ∃ n, link p = some n ∧ Segment link n l b

theorem segment_append {a b : Option P} {l l' : List P} :
    Segment link a (l ++ l') b ↔ ∃ m, Segment link a l m ∧ Segment link m l' b := by
  induction l generalizing a with
  | nil =>
      constructor
      · intro h
        exact ⟨a, rfl, h⟩
      · rintro ⟨m, rfl, h⟩
        exact h
  | cons p l ih =>
      constructor
      · rintro ⟨rfl, n, hn, hrest⟩
        rcases ih.1 hrest with ⟨m, hm, htail⟩
        exact ⟨m, ⟨rfl, n, hn, hm⟩, htail⟩
      · rintro ⟨m, ⟨rfl, n, hn, hm⟩, htail⟩
        exact ⟨rfl, n, hn, ih.2 ⟨m, hm, htail⟩⟩

/-- Only the links of the nodes matter. -/
theorem Segment.congr {a b : Option P} {l : List P} (h : Segment link a l b)
    (hlink : ∀ p ∈ l, link' p = link p) : Segment link' a l b := by
  induction l generalizing a with
  | nil => exact h
  | cons p l ih =>
      rcases h with ⟨rfl, n, hn, hrest⟩
      refine ⟨rfl, n, ?_, ih hrest fun q hq => hlink q (List.mem_cons_of_mem p hq)⟩
      rw [hlink p (List.mem_cons_self ..), hn]

/-- Every node of a segment is one. -/
theorem Segment.isSome {a b : Option P} {l : List P} (h : Segment link a l b) {p : P}
    (hp : p ∈ l) : ∃ n, link p = some n := by
  rcases List.append_of_mem hp with ⟨pre, post, rfl⟩
  rcases segment_append.1 h with ⟨_, _, _, n, hn, _⟩
  exact ⟨n, hn⟩

/-- One head, one list. -/
theorem Segment.unique {a : Option P} {l l' : List P} (h : Segment link a l none)
    (h' : Segment link a l' none) : l = l' := by
  induction l generalizing a l' with
  | nil =>
      cases l' with
      | nil => rfl
      | cons p l' =>
          rcases h' with ⟨hhead, _⟩
          exact absurd (h.symm.trans hhead) nofun
  | cons p l ih =>
      rcases h with ⟨rfl, n, hn, hrest⟩
      cases l' with
      | nil => cases h'
      | cons q l' =>
          rcases h' with ⟨hhead, n', hn', hrest'⟩
          obtain rfl : p = q := Option.some.inj hhead
          obtain rfl : n = n' := Option.some.inj (hn.symm.trans hn')
          rw [ih hrest hrest']

/-- A list that came back to a node would not end. -/
theorem Segment.nodup {a : Option P} {l : List P} (h : Segment link a l none) : l.Nodup := by
  induction l generalizing a with
  | nil => exact List.nodup_nil
  | cons p l ih =>
      rcases h with ⟨rfl, n, hn, hrest⟩
      refine List.nodup_cons.2 ⟨fun hp => ?_, ih hrest⟩
      rcases List.append_of_mem hp with ⟨pre, post, rfl⟩
      rcases segment_append.1 hrest with ⟨m, _, rfl, n', hn', htail⟩
      -- behind the second `p` the same nodes follow as behind the first
      obtain rfl : n = n' := Option.some.inj (hn.symm.trans hn')
      have hsame := congrArg List.length (hrest.unique htail)
      simp only [List.length_append, List.length_cons] at hsame
      omega

/-- A list from its own first node on: every node but the last holds the next one. -/
theorem segment_head? {l : List P} :
    Segment link l.head? l none ↔ ∀ k (h : k < l.length), link l[k] = some l[k + 1]? := by
  induction l with
  | nil => exact ⟨fun _ k h => absurd h (Nat.not_lt_zero k), fun _ => rfl⟩
  | cons p l ih =>
      constructor
      · rintro ⟨_, n, hn, hrest⟩ k hk
        -- behind `p` comes the head of the rest
        have hhead : n = l.head? := by
          cases l with
          | nil => exact hrest
          | cons q l => exact hrest.1
        subst hhead
        cases k with
        | zero => simpa [List.head?_eq_getElem?] using hn
        | succ k => simpa using ih.1 hrest k (by simpa using hk)
      · intro h
        refine ⟨rfl, l.head?, ?_, ih.2 fun k hk => h (k + 1) (Nat.succ_lt_succ hk)⟩
        rw [List.head?_eq_getElem?]
        exact h 0 (Nat.succ_pos l.length)

/-- The node behind `q` is taken out: `q` gets its successor. -/
theorem Segment.unlink [DecidableEq P] {a : Option P} {pre post : List P} {q p : P}
    {n : Option P} (h : Segment link a (pre ++ q :: p :: post) none) (hp : link p = some n) :
    Segment (Function.update link q (some n)) a (pre ++ q :: post) none := by
  have hnodup := h.nodup
  have hother : ∀ x ∈ pre ++ post, Function.update link q (some n) x = link x := by
    intro x hx
    have hxq : x ≠ q := by
      rintro rfl
      have hmem : x ∈ pre ++ p :: post := by
        rcases List.mem_append.1 hx with hpre | hpost
        · exact List.mem_append_left _ hpre
        · exact List.mem_append_right _ (List.mem_cons_of_mem p hpost)
      exact (List.nodup_middle.1 hnodup).notMem hmem
    exact Function.update_of_ne hxq _ _
  rcases segment_append.1 h with ⟨m, hpre, rfl, n', _, rfl, n'', hn'', htail⟩
  obtain rfl : n = n'' := Option.some.inj (hp.symm.trans hn'')
  refine segment_append.2 ⟨some q, ?_, rfl, n, Function.update_self .., ?_⟩
  · exact hpre.congr fun x hx => hother x (List.mem_append_left _ hx)
  · exact htail.congr fun x hx => hother x (List.mem_append_right _ hx)

end Lib
end MiniOs
