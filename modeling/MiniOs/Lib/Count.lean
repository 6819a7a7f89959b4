import Mathlib.Algebra.BigOperators.Group.Finset.Basic
import Mathlib.Tactic

/-!
# Count — families in which one member changes, lists without repetition, tests that pass alike
-/

namespace MiniOs
namespace Lib

/-- Replacing member `i` of a family by `x` trades `g (f i)` for `g x` in the sum of `g`. -/
theorem sum_update_add {ι α : Type*} [Fintype ι] [DecidableEq ι] (f : ι → α) (i : ι) (x : α)
    (g : α → ℕ) : ∑ j, g (Function.update f i x j) + g (f i) = ∑ j, g (f j) + g x := by
  -- the sum is the term of `i` and the rest, which is the same for both families
  have hsplit : ∀ h : ι → α, ∑ j, g (h j) = g (h i) + ∑ j ∈ Finset.univ.erase i, g (h j) :=
    fun h => (Finset.add_sum_erase _ (fun j => g (h j)) (Finset.mem_univ i)).symm
  have hrest : ∑ j ∈ Finset.univ.erase i, g (Function.update f i x j) =
      ∑ j ∈ Finset.univ.erase i, g (f j) := by
    refine Finset.sum_congr rfl (fun j hj => ?_)
    rw [Function.update_of_ne (Finset.ne_of_mem_erase hj)]
  rw [hsplit (Function.update f i x), hsplit f, hrest, Function.update_self]
  omega

/-- A sum of which one term grows by at most `b - a` and the others do not grow. -/
theorem sum_add_le {ι : Type*} [Fintype ι] [DecidableEq ι] {f f' : ι → ℕ} (i : ι) {a b : ℕ}
    (hi : f' i + a ≤ f i + b) (hrest : ∀ j, j ≠ i → f' j ≤ f j) :
    ∑ j, f' j + a ≤ ∑ j, f j + b := by
  have hothers : ∑ j ∈ Finset.univ.erase i, f' j ≤ ∑ j ∈ Finset.univ.erase i, f j :=
    Finset.sum_le_sum fun j hj => hrest j (Finset.ne_of_mem_erase hj)
  rw [← Finset.add_sum_erase _ f' (Finset.mem_univ i),
    ← Finset.add_sum_erase _ f (Finset.mem_univ i)]
  omega

/-- Two families related member by member stay so when one member of each is replaced. -/
theorem update_related {ι α β : Type*} [DecidableEq ι] {R : ι → α → β → Prop} {f : ι → α}
    {g : ι → β} {i : ι} {x : α} {y : β} (hi : R i x y) (h : ∀ j, j ≠ i → R j (f j) (g j))
    (j : ι) : R j (Function.update f i x j) (Function.update g i y j) := by
  by_cases hj : j = i
  · subst hj
    rw [Function.update_self, Function.update_self]
    exact hi
  · rw [Function.update_of_ne hj, Function.update_of_ne hj]
    exact h j hj

/-- The same for the sum over a list, in which member `x` alone has the index `f x`. -/
theorem sum_map_update_add {ι α : Type*} [DecidableEq ι] (f : α → ι) (g : ι → ℕ) {l : List α}
    {x : α} (hnodup : (l.map f).Nodup) (hx : x ∈ l) (n : ℕ) :
    (l.map fun y => Function.update g (f x) n (f y)).sum + g (f x) =
      (l.map fun y => g (f y)).sum + n := by
  induction l with
  | nil => cases hx
  | cons y l ih =>
      rw [List.map_cons, List.nodup_cons] at hnodup
      rw [List.map_cons, List.sum_cons, List.map_cons, List.sum_cons]
      rcases List.mem_cons.1 hx with rfl | hx
      · -- the others have other indices
        have hrest : (l.map fun y => Function.update g (f x) n (f y)) = l.map fun y => g (f y) := by
          refine List.map_congr_left fun y hy => Function.update_of_ne (fun heq => ?_) _ _
          exact hnodup.1 (heq ▸ List.mem_map_of_mem hy)
        rw [hrest, Function.update_self]
        omega
      · have hne : f y ≠ f x := fun heq => hnodup.1 (heq ▸ List.mem_map_of_mem hx)
        have hrest := ih hnodup.2 hx
        rw [Function.update_of_ne hne]
        omega

/-- A list of different numbers below `n` has at most `n` entries. -/
theorem length_le_of_nodup {l : List ℕ} {n : ℕ} (hnodup : l.Nodup) (h : ∀ x ∈ l, x < n) :
    l.length ≤ n := by
  have hsub : l.toFinset ⊆ Finset.range n := by
    intro x hx
    exact Finset.mem_range.2 (h x (List.mem_toFinset.1 hx))
  have hcard := Finset.card_le_card hsub
  rw [List.toFinset_card_of_nodup hnodup] at hcard
  simpa using hcard

/-- Of two tests, one of which implies the other, both pass for the same members of a list if they
pass equally often. -/
theorem forall_of_countP_eq {α : Type*} {l : List α} {p q : α → Bool}
    (himp : ∀ x, q x = true → p x = true) (heq : l.countP q = l.countP p) :
    ∀ x ∈ l, p x = true → q x = true := by
  intro x hx hp
  have hsub : (l.filter q).Sublist (l.filter p) := List.monotone_filter_right l himp
  have hsame : l.filter q = l.filter p := by
    apply hsub.eq_of_length
    rw [← List.countP_eq_length_filter, ← List.countP_eq_length_filter, heq]
  have hmem : x ∈ l.filter q := hsame ▸ List.mem_filter.2 ⟨hx, hp⟩
  exact (List.mem_filter.1 hmem).2

end Lib
end MiniOs
