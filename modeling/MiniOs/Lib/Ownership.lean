import MiniOs.Lib.Count

/-!
# Ownership — resources that are free or held, and never lost

Resources `0, …, n - 1` are listed on a free list or named by a holder.  `Conserved` says that
each is in one place; a `Ledger` adds that nothing else is listed or named.  Giving a free
resource to a holder keeps a ledger (`Ledger.assign`), and a resource that is in neither place any
more is a loss (`not_conserved_of_lost`).  `Parted` allows losses and promises only
that no resource has two owners; `Handed` is what changes when some are given out.
-/

namespace MiniOs
namespace Lib

universe u

variable {κ : Type u}

/-- `f` is on the free list exactly once and held by nobody, or not on it and held by one. -/
def OwnedOnce (free : List ℕ) (names : κ → Option ℕ) (f : ℕ) : Prop :=
  (free.count f = 1 ∧ ∀ k, names k ≠ some f) ∨ (free.count f = 0 ∧ ∃! k, names k = some f)

/-- Every resource is in one place. -/
def Conserved (n : ℕ) (free : List ℕ) (names : κ → Option ℕ) : Prop :=
  ∀ f < n, OwnedOnce free names f

/-- Every resource is in one place, and there are no others. -/
structure Ledger (n : ℕ) (free : List ℕ) (names : κ → Option ℕ) : Prop where
  conserved : Conserved n free names
  free_lt : ∀ f ∈ free, f < n
  names_lt : ∀ k f, names k = some f → f < n

variable {n : ℕ} {free : List ℕ} {names : κ → Option ℕ}

/-- At the start everything is free. -/
theorem ledger_range (n : ℕ) : Ledger n (List.range n) (fun _ : κ => none) where
  conserved f hf := by
    have hcount : (List.range n).count f = 1 :=
      List.count_eq_one_of_mem List.nodup_range (List.mem_range.2 hf)
    exact Or.inl ⟨hcount, fun _ h => by cases h⟩
  free_lt f hf := List.mem_range.1 hf
  names_lt k f h := by cases h

theorem not_conserved_of_lost {f : ℕ} (hf : f < n) (hfree : f ∉ free)
    (hnames : ∀ k, names k ≠ some f) : ¬ Conserved n free names := by
  intro h
  -- neither place is left for `f`
  rcases h f hf with ⟨hcount, _⟩ | ⟨_, k, hk, _⟩
  · rw [List.count_eq_zero_of_not_mem hfree] at hcount
    cases hcount
  · exact hnames k hk

namespace Ledger

/-- A free resource is listed once and held by nobody. -/
theorem of_mem_free (h : Ledger n free names) {f : ℕ} (hf : f ∈ free) :
    free.count f = 1 ∧ ∀ k, names k ≠ some f := by
  rcases h.conserved f (h.free_lt f hf) with hfree | ⟨hcount, _⟩
  · exact hfree
  · exact absurd hcount (Nat.ne_of_gt (List.count_pos_iff.2 hf))

/-- A held resource is not listed, and held by one. -/
theorem of_name (h : Ledger n free names) {k : κ} {f : ℕ} (hk : names k = some f) :
    f ∉ free ∧ ∀ k', names k' = some f → k' = k := by
  rcases h.conserved f (h.names_lt k f hk) with ⟨_, hnone⟩ | ⟨hcount, k₀, _, huniq⟩
  · exact absurd hk (hnone k)
  · exact ⟨List.count_eq_zero.1 hcount, fun k' hk' => (huniq k' hk').trans (huniq k hk).symm⟩

theorem nodup (h : Ledger n free names) : free.Nodup :=
  List.nodup_iff_count_le_one.2 fun f => by
    by_cases hf : f ∈ free
    · exact (h.of_mem_free hf).1.le
    · simp [List.count_eq_zero_of_not_mem hf]

/-- The first free resource goes to a holder that has none. -/
theorem assign [DecidableEq κ] {f : ℕ} (h : Ledger n (f :: free) names) {k : κ}
    (hk : names k = none) : Ledger n free (Function.update names k (some f)) := by
  have hfirst := List.nodup_cons.1 h.nodup
  have hnobody := (h.of_mem_free (List.mem_cons_self ..)).2
  refine ⟨fun g hg => ?_, fun g hg => h.free_lt g (List.mem_cons_of_mem f hg), fun j g hj => ?_⟩
  · -- `f` moves from the list to `k`; for every other resource both places are as before
    by_cases hgf : g = f
    · subst hgf
      refine Or.inr ⟨List.count_eq_zero_of_not_mem hfirst.1, k, by simp, fun j hj => ?_⟩
      by_contra hjk
      exact hnobody j (by simpa [Function.update_of_ne hjk] using hj)
    · have hcount : (f :: free).count g = free.count g := by
        simp [Ne.symm hgf]
      -- `k` held nothing, so no name of `g` is overwritten
      have hnames : ∀ j, Function.update names k (some f) j = some g ↔ names j = some g := by
        intro j
        by_cases hjk : j = k
        · subst hjk
          simp [hk, Ne.symm hgf]
        · simp [Function.update_of_ne hjk]
      have hold := h.conserved g hg
      simp only [OwnedOnce, hcount] at hold
      simpa only [OwnedOnce, ne_eq, hnames] using hold
  · by_cases hjk : j = k
    · subst hjk
      obtain rfl : f = g := by simpa using hj
      exact h.free_lt f (List.mem_cons_self ..)
    · exact h.names_lt j g (by simpa [Function.update_of_ne hjk] using hj)

end Ledger
/-! ## With losses -/

/-- No resource has two owners; some may have none. -/
structure Parted (n : ℕ) (free : List ℕ) (names : κ → Option ℕ) : Prop where
  nodup : free.Nodup
  free_lt : ∀ f ∈ free, f < n
  names_lt : ∀ k f, names k = some f → f < n
  not_free : ∀ k f, names k = some f → f ∉ free
  injective : ∀ k l f, names k = some f → names l = some f → k = l

/-- The resources `frames` have been given to holders that had none. -/
structure Handed (frames : List ℕ) (names names' : κ → Option ℕ) : Prop where
  keeps : ∀ k f, names k = some f → names' k = some f
  fresh : ∀ k f, names' k = some f → names k = some f ∨ names k = none ∧ f ∈ frames

theorem Handed.refl (names : κ → Option ℕ) : Handed [] names names :=
  ⟨fun _ _ h => h, fun _ _ h => Or.inl h⟩

theorem Handed.cons [DecidableEq κ] {frames : List ℕ} {names' : κ → Option ℕ} {f : ℕ} {k : κ}
    (hk : names k = none) (h : Handed frames (Function.update names k (some f)) names') :
    Handed (f :: frames) names names' := by
  refine ⟨fun j g hj => h.keeps j g ?_, fun j g hj => ?_⟩
  · have hne : j ≠ k := by
      rintro rfl
      simp [hk] at hj
    rwa [Function.update_of_ne hne]
  · by_cases hjk : j = k
    · subst hjk
      -- it has `f` from here on
      have hf := h.keeps j f (Function.update_self ..)
      obtain rfl : f = g := Option.some.inj (hf.symm.trans hj)
      exact Or.inr ⟨hk, List.mem_cons_self ..⟩
    · rcases h.fresh j g hj with hold | ⟨hnone, hmem⟩
      · rw [Function.update_of_ne hjk] at hold
        exact Or.inl hold
      · rw [Function.update_of_ne hjk] at hnone
        exact Or.inr ⟨hnone, List.mem_cons_of_mem f hmem⟩

namespace Parted

theorem range (n : ℕ) : Parted n (List.range n) (fun _ : κ => none) where
  nodup := List.nodup_range
  free_lt _ hf := List.mem_range.1 hf
  names_lt _ _ h := by cases h
  not_free _ _ h := by cases h
  injective _ _ _ h := by cases h

/-- Free resources may be lost, and so may those of a holder. -/
theorem lose {free' : List ℕ} {names' : κ → Option ℕ} (h : Parted n free names)
    (hfree : free'.Sublist free) (hnames : ∀ k f, names' k = some f → names k = some f) :
    Parted n free' names' where
  nodup := hfree.nodup h.nodup
  free_lt f hf := h.free_lt f (hfree.subset hf)
  names_lt k f hk := h.names_lt k f (hnames k f hk)
  not_free k f hk hf := h.not_free k f (hnames k f hk) (hfree.subset hf)
  injective k l f hk hl := h.injective k l f (hnames k f hk) (hnames l f hl)

/-- The first free resource goes to a holder that has none. -/
theorem assign [DecidableEq κ] {f : ℕ} (h : Parted n (f :: free) names) {k : κ}
    (hk : names k = none) : Parted n free (Function.update names k (some f)) := by
  have hfirst := List.nodup_cons.1 h.nodup
  -- what a holder has now is `f`, if it is `k`, or what it had before
  have hcases : ∀ j g, Function.update names k (some f) j = some g →
      j = k ∧ g = f ∨ names j = some g := by
    intro j g hj
    by_cases hjk : j = k
    · subst hjk
      rw [Function.update_self] at hj
      exact Or.inl ⟨rfl, (Option.some.inj hj).symm⟩
    · rw [Function.update_of_ne hjk] at hj
      exact Or.inr hj
  refine ⟨hfirst.2, fun g hg => h.free_lt g (List.mem_cons_of_mem f hg), fun j g hj => ?_,
    fun j g hj hg => ?_, fun j l g hj hl => ?_⟩
  · rcases hcases j g hj with ⟨_, rfl⟩ | hold
    · exact h.free_lt g (List.mem_cons_self ..)
    · exact h.names_lt j g hold
  · rcases hcases j g hj with ⟨_, rfl⟩ | hold
    · exact hfirst.1 hg
    · exact h.not_free j g hold (List.mem_cons_of_mem f hg)
  · rcases hcases j g hj with ⟨rfl, rfl⟩ | hold
    · rcases hcases l g hl with ⟨rfl, _⟩ | hold'
      · rfl
      · exact absurd (List.mem_cons_self ..) (h.not_free l g hold')
    · rcases hcases l g hl with ⟨rfl, rfl⟩ | hold'
      · exact absurd (List.mem_cons_self ..) (h.not_free j g hold)
      · exact h.injective j l g hold hold'

end Parted

end Lib
end MiniOs
