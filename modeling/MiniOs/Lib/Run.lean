import Mathlib.Data.List.Basic

/-!
# Runs — labelled steps, invariants and exact step conditions

A transition system is a relation `step : σ → α → σ → Prop`.  This file collects the rules the
developments above it use:

* `Run step s tr t` — taking the labelled steps of `tr` from `s` ends in `t`; every entry of
  `tr` keeps the state that its step reached;
* `Run.allStates` — what every step preserves holds in every state of a run;
* `Run.pairwise` — a transitive relation kept by every step orders the states of a run;
* `Run.exact` — the *exact condition* rule: if good steps re-establish a strong invariant and a
  bad step falsifies `P` at once, then `P` holds along a run iff all its steps are good;
* `Run.potential` — the *potential* rule: what the steps of a run cost together, and `Run.balance`
  for steps that are paid exactly;
* `runFn` — the executable form for steps given by a partial function;
* `Along` — a condition on every step that is attempted, its invariant rules `along_iff` and
  `along_iff_of_kept`, and `along_append` for two runs one behind the other;
* `Answers` and `exact_along` — the exact condition rule for steps that may be undefined, which
  counts an undefined step as a failure;
* `outputs_eq` — the *two runs* rule: a relation that steps with equal outputs re-establish makes
  the outputs of two runs equal;
* `ownOutputs_eq` — the *company* rule: what one owner's steps put out is the same with the steps
  of the others between them as without.
-/

namespace MiniOs
namespace Lib

universe u v w

variable {σ τ : Type u} {α : Type v} {β : Type w}

/-! ## Runs -/

/-- `Run step s tr t`: the labelled steps `tr` lead from `s` to `t`. -/
inductive Run (step : σ → α → σ → Prop) : σ → List (α × σ) → σ → Prop where
  | nil (s : σ) : Run step s [] s
  | cons {s t u : σ} {a : α} {tr : List (α × σ)} :
      step s a t → Run step t tr u → Run step s ((a, t) :: tr) u

/-- `P` holds in the first state and in every state the run reaches. -/
def AllStates (P : σ → Prop) (s : σ) (tr : List (α × σ)) : Prop :=
  P s ∧ ∀ x ∈ tr, P x.2

/-- `ok` holds of every step: of the state before it and of its label. -/
def AllSteps (ok : σ → α → Prop) : σ → List (α × σ) → Prop
  | _, [] => True
  | s, (a, t) :: tr => ok s a ∧ AllSteps ok t tr

/-- The costs of the steps together; what a step costs may depend on the state before it. -/
def stepSum (cost : σ → α → Nat) : σ → List (α × σ) → Nat
  | _, [] => 0
  | s, (a, t) :: tr => cost s a + stepSum cost t tr

@[simp] theorem stepSum_nil (cost : σ → α → Nat) (s : σ) : stepSum cost s [] = 0 := rfl

@[simp] theorem stepSum_cons {cost : σ → α → Nat} {s t : σ} {a : α} {tr : List (α × σ)} :
    stepSum cost s ((a, t) :: tr) = cost s a + stepSum cost t tr := rfl

@[simp] theorem stepSum_zero (s : σ) (tr : List (α × σ)) : stepSum (fun _ _ => 0) s tr = 0 := by
  induction tr generalizing s with
  | nil => rfl
  | cons x tr ih => exact (Nat.zero_add _).trans (ih x.2)

@[simp] theorem allSteps_nil (ok : σ → α → Prop) (s : σ) : AllSteps ok s [] := trivial

@[simp] theorem allSteps_cons {ok : σ → α → Prop} {s t : σ} {a : α} {tr : List (α × σ)} :
    AllSteps ok s ((a, t) :: tr) ↔ ok s a ∧ AllSteps ok t tr := Iff.rfl

instance decidableAllSteps (ok : σ → α → Prop) [∀ s a, Decidable (ok s a)] :
    (s : σ) → (tr : List (α × σ)) → Decidable (AllSteps ok s tr)
  | _, [] => isTrue trivial
  | _, (_, t) :: tr => @instDecidableAnd _ _ _ (decidableAllSteps ok t tr)

theorem allStates_cons {P : σ → Prop} {s t : σ} {a : α} {tr : List (α × σ)} :
    AllStates P s ((a, t) :: tr) ↔ P s ∧ AllStates P t tr := by
  simp [AllStates]

theorem allStates_and {P Q : σ → Prop} {s : σ} {tr : List (α × σ)} :
    AllStates (fun t => P t ∧ Q t) s tr ↔ AllStates P s tr ∧ AllStates Q s tr := by
  constructor
  · rintro ⟨hs, htr⟩
    exact ⟨⟨hs.1, fun x hx => (htr x hx).1⟩, ⟨hs.2, fun x hx => (htr x hx).2⟩⟩
  · rintro ⟨hP, hQ⟩
    exact ⟨⟨hP.1, hQ.1⟩, fun x hx => ⟨hP.2 x hx, hQ.2 x hx⟩⟩

namespace Run

variable {step : σ → α → σ → Prop}

/-- The invariant rule: what holds at the start and is kept by every step holds in every state of
the run. -/
theorem allStates {I : σ → Prop} {s t : σ} {tr : List (α × σ)}
    (hrun : Run step s tr t) (hpres : ∀ {s a t}, I s → step s a t → I t) (h₀ : I s) :
    AllStates I s tr := by
  induction hrun with
  | nil s => exact ⟨h₀, by simp⟩
  | cons hstep _ ih => exact allStates_cons.2 ⟨h₀, ih (hpres h₀ hstep)⟩

/-- The invariant rule inside a set of states that the run does not leave. -/
theorem allStates_within {I S : σ → Prop} {s t : σ} {tr : List (α × σ)} (hrun : Run step s tr t)
    (hS : AllStates S s tr) (hpres : ∀ {s a t}, S s → S t → I s → step s a t → I t) (h₀ : I s) :
    AllStates I s tr := by
  induction hrun with
  | nil s => exact ⟨h₀, by simp⟩
  | cons hstep _ ih =>
      rw [allStates_cons] at hS
      exact allStates_cons.2 ⟨h₀, ih hS.2 (hpres hS.1 hS.2.1 h₀ hstep)⟩

/-- The invariant rule for runs whose steps all meet a condition. -/
theorem allStates_of_allSteps {I : σ → Prop} {ok : σ → α → Prop} {s t : σ} {tr : List (α × σ)}
    (hrun : Run step s tr t) (hpres : ∀ {s a t}, I s → step s a t → ok s a → I t)
    (hok : AllSteps ok s tr) (h₀ : I s) : AllStates I s tr := by
  induction hrun with
  | nil s => exact ⟨h₀, by simp⟩
  | cons hstep _ ih =>
      rw [allSteps_cons] at hok
      exact allStates_cons.2 ⟨h₀, ih hok.2 (hpres h₀ hstep hok.1)⟩

/-- The order rule: a transitive relation that every step respects relates every state of a run
to every later one. -/
theorem pairwise {R : σ → σ → Prop} {s t : σ} {tr : List (α × σ)} (hrun : Run step s tr t)
    (htrans : ∀ {x y z}, R x y → R y z → R x z) (hstep : ∀ {s a t}, step s a t → R s t) :
    (s :: tr.map Prod.snd).Pairwise R := by
  induction hrun with
  | nil s => simp
  | @cons s t u a tr hst _ ih =>
      refine List.pairwise_cons.2 ⟨fun x hx => ?_, ih⟩
      -- a later state is the next one or related to it already
      rcases List.mem_cons.1 hx with rfl | hlater
      · exact hstep hst
      · exact htrans (hstep hst) ((List.pairwise_cons.1 ih).1 x hlater)

/-- The exact condition rule.  Good steps keep `I`, which implies `P`; a bad step taken from `I`
falsifies `P` in the state it reaches.  Then `P` holds along a run exactly when its steps are
all good: the first bad step, if there is one, is taken from a state with `I`. -/
theorem exact {I P : σ → Prop} {ok : σ → α → Prop} {s t : σ} {tr : List (α × σ)}
    (hrun : Run step s tr t) (hIP : ∀ {s}, I s → P s)
    (hok : ∀ {s a t}, I s → step s a t → ok s a → I t)
    (hbad : ∀ {s a t}, I s → step s a t → ¬ ok s a → ¬ P t) (h₀ : I s) :
    AllStates P s tr ↔ AllSteps ok s tr := by
  induction hrun with
  | nil s => exact ⟨fun _ => trivial, fun _ => ⟨hIP h₀, by simp⟩⟩
  | @cons s t u a tr hstep _ ih =>
      rw [allStates_cons, allSteps_cons]
      constructor
      · rintro ⟨_, hrest⟩
        -- were the step bad, `P` would fail in the state it reaches
        have hgood : ok s a := by
          by_contra hno
          exact hbad h₀ hstep hno hrest.1
        exact ⟨hgood, (ih (hok h₀ hstep hgood)).1 hrest⟩
      · rintro ⟨hgood, hrest⟩
        exact ⟨hIP h₀, (ih (hok h₀ hstep hgood)).2 hrest⟩

/-- What holds in every state of a run holds at its end. -/
theorem last {P : σ → Prop} {s t : σ} {tr : List (α × σ)} (hrun : Run step s tr t)
    (h : AllStates P s tr) : P t := by
  induction hrun with
  | nil s => exact h.1
  | cons _ _ ih => exact ih (allStates_cons.1 h).2

/-- The potential rule.  Every step pays its cost out of the potential, which is filled up by the
credit of steps and by `K` for each tick of a clock.  Then the steps of a run cost no more than the
first potential, the credits and the ticks together. -/
theorem potential {I : σ → Prop} {s t : σ} {tr : List (α × σ)} (hrun : Run step s tr t)
    (pot clock : σ → Nat) (cost credit : σ → α → Nat) (K : Nat)
    (hpres : ∀ {s a t}, I s → step s a t → I t)
    (hpay : ∀ {s a t}, I s → step s a t →
      pot t + cost s a + K * clock s ≤ pot s + credit s a + K * clock t) (h₀ : I s) :
    pot t + stepSum cost s tr + K * clock s ≤ pot s + stepSum credit s tr + K * clock t := by
  induction hrun with
  | nil s => simp
  | cons hstep _ ih =>
      have hfirst := hpay h₀ hstep
      have hrest := ih (hpres h₀ hstep)
      simp only [stepSum_cons]
      omega

/-- The balance rule: what every step takes is what the steps take together. -/
theorem balance {s t : σ} {tr : List (α × σ)} (hrun : Run step s tr t) (stock : σ → Nat)
    (cost : σ → α → Nat) (hpay : ∀ {s a t}, step s a t → stock t + cost s a = stock s) :
    stock t + stepSum cost s tr = stock s := by
  induction hrun with
  | nil s => simp
  | cons hstep _ ih =>
      have hfirst := hpay hstep
      simp only [stepSum_cons]
      omega

end Run

/-! ## Executable runs -/

/-- The step relation of a partial step function. -/
def StepOf (exec : σ → α → Option σ) : σ → α → σ → Prop :=
  fun s a t => exec s a = some t

/-- Execute the labels in turn; `none` as soon as one step is undefined. -/
def runFn (exec : σ → α → Option σ) : σ → List α → Option σ
  | s, [] => some s
  | s, a :: as => (exec s a).bind fun t => runFn exec t as

/-- The run that executes the labels in turn; it ends early at a step that is undefined. -/
def traceFn (exec : σ → α → Option σ) : σ → List α → List (α × σ)
  | _, [] => []
  | s, a :: as =>
      match exec s a with
      | none => []
      | some t => (a, t) :: traceFn exec t as

theorem runFn_append (exec : σ → α → Option σ) (s : σ) (as bs : List α) :
    runFn exec s (as ++ bs) = (runFn exec s as).bind fun t => runFn exec t bs := by
  induction as generalizing s with
  | nil => rfl
  | cons a as ih =>
      simp only [List.cons_append, runFn, ih, Option.bind_assoc]

theorem run_traceFn (exec : σ → α → Option σ) (s : σ) (as : List α) :
    ∃ t, Run (StepOf exec) s (traceFn exec s as) t := by
  induction as generalizing s with
  | nil => exact ⟨s, .nil s⟩
  | cons a as ih =>
      -- an undefined step ends the run in `s`
      cases hexec : exec s a with
      | none => exact ⟨s, by simpa [traceFn, hexec] using Run.nil s⟩
      | some t =>
          rcases ih t with ⟨u, hu⟩
          exact ⟨u, by simpa [traceFn, hexec] using Run.cons hexec hu⟩

theorem run_of_runFn {exec : σ → α → Option σ} {s t : σ} {as : List α}
    (h : runFn exec s as = some t) : Run (StepOf exec) s (traceFn exec s as) t := by
  induction as generalizing s with
  | nil =>
      obtain rfl := Option.some.inj h
      exact .nil s
  | cons a as ih =>
      rcases Option.bind_eq_some_iff.1 h with ⟨u, hexec, hrest⟩
      simpa [traceFn, hexec] using Run.cons hexec (ih hrest)

/-- The invariant rule for runs whose labels all satisfy `Q`. -/
theorem allStates_traceFn {exec : σ → α → Option σ} {I : σ → Prop} {Q : α → Prop}
    (hpres : ∀ {s a t}, I s → exec s a = some t → Q a → I t) {as : List α}
    (hQ : ∀ a ∈ as, Q a) {s : σ} (h₀ : I s) : AllStates I s (traceFn exec s as) := by
  induction as generalizing s with
  | nil => exact ⟨h₀, by simp [traceFn]⟩
  | cons a as ih =>
      have hrest : ∀ b ∈ as, Q b := fun b hb => hQ b (List.mem_cons_of_mem a hb)
      cases hexec : exec s a with
      | none => exact ⟨h₀, by simp [traceFn, hexec]⟩
      | some t =>
          have ht := hpres h₀ hexec (hQ a (List.mem_cons_self ..))
          simpa only [traceFn, hexec] using allStates_cons.2 ⟨h₀, ih hrest ht⟩

/-! ## Attempted steps -/

/-- `P` holds of every step that is attempted, also of an undefined one, with which the run
ends. -/
def Along (exec : σ → α → Option σ) (P : σ → α → Prop) : σ → List α → Prop
  | _, [] => True
  | s, a :: as => P s a ∧ ∀ t, exec s a = some t → Along exec P t as

instance decidableAlong (exec : σ → α → Option σ) (P : σ → α → Prop) [∀ s a, Decidable (P s a)] :
    (s : σ) → (as : List α) → Decidable (Along exec P s as)
  | _, [] => isTrue trivial
  | s, a :: as =>
      haveI : ∀ t, Decidable (Along exec P t as) := fun t => decidableAlong exec P t as
      decidable_of_iff (P s a ∧ ∀ t ∈ exec s a, Along exec P t as) Iff.rfl

theorem Along.cons {exec : σ → α → Option σ} {P : σ → α → Prop} {s t : σ} {a : α} {as : List α}
    (hP : P s a) (hexec : exec s a = some t) (h : Along exec P t as) :
    Along exec P s (a :: as) := by
  refine ⟨hP, fun t' ht' => ?_⟩
  obtain rfl : t = t' := Option.some.inj (hexec.symm.trans ht')
  exact h

theorem along_and {exec : σ → α → Option σ} {P Q : σ → α → Prop} {s : σ} {as : List α} :
    Along exec (fun s a => P s a ∧ Q s a) s as ↔ Along exec P s as ∧ Along exec Q s as := by
  induction as generalizing s with
  | nil => exact ⟨fun _ => ⟨trivial, trivial⟩, fun _ => trivial⟩
  | cons a as ih =>
      constructor
      · rintro ⟨⟨hP, hQ⟩, hrest⟩
        exact ⟨⟨hP, fun t hexec => (ih.1 (hrest t hexec)).1⟩,
          ⟨hQ, fun t hexec => (ih.1 (hrest t hexec)).2⟩⟩
      · rintro ⟨⟨hP, hrest⟩, ⟨hQ, hrest'⟩⟩
        exact ⟨⟨hP, hQ⟩, fun t hexec => ih.2 ⟨hrest t hexec, hrest' t hexec⟩⟩

/-- Two runs one behind the other. -/
theorem along_append {exec : σ → α → Option σ} {P : σ → α → Prop} {s : σ} {as bs : List α} :
    Along exec P s (as ++ bs) ↔
      Along exec P s as ∧ ∀ t, runFn exec s as = some t → Along exec P t bs := by
  induction as generalizing s with
  | nil =>
      constructor
      · intro h
        exact ⟨trivial, fun t ht => Option.some.inj ht ▸ h⟩
      · rintro ⟨_, h⟩
        exact h s rfl
  | cons a as ih =>
      constructor
      · rintro ⟨hP, hrest⟩
        refine ⟨⟨hP, fun t hexec => (ih.1 (hrest t hexec)).1⟩, fun t hrun => ?_⟩
        rcases Option.bind_eq_some_iff.1 hrun with ⟨u, hexec, hrun'⟩
        exact (ih.1 (hrest u hexec)).2 t hrun'
      · rintro ⟨⟨hP, hrest⟩, hend⟩
        refine ⟨hP, fun u hexec => ih.2 ⟨hrest u hexec, fun t hrun => hend t ?_⟩⟩
        exact Option.bind_eq_some_iff.2 ⟨u, hexec, hrun⟩

/-- The invariant rule for attempted steps: conditions that agree under an invariant, which is kept
as long as they hold, agree along every run that begins with it. -/
theorem along_iff_of_kept {exec : σ → α → Option σ} {I : σ → Prop} {P Q : σ → α → Prop}
    (hiff : ∀ {s a}, I s → (P s a ↔ Q s a))
    (hpres : ∀ {s a t}, I s → Q s a → exec s a = some t → I t)
    {as : List α} {s : σ} (h₀ : I s) : Along exec P s as ↔ Along exec Q s as := by
  induction as generalizing s with
  | nil => exact Iff.rfl
  | cons a as ih =>
      -- the first step is judged alike, and if it is good it leaves the invariant for the rest
      constructor
      · rintro ⟨hP, hrest⟩
        have hQ := (hiff h₀).1 hP
        exact ⟨hQ, fun t hexec => (ih (hpres h₀ hQ hexec)).1 (hrest t hexec)⟩
      · rintro ⟨hQ, hrest⟩
        exact ⟨(hiff h₀).2 hQ, fun t hexec => (ih (hpres h₀ hQ hexec)).2 (hrest t hexec)⟩

/-- The same for an invariant that every step keeps. -/
theorem along_iff {exec : σ → α → Option σ} {I : σ → Prop} {P Q : σ → α → Prop}
    (hiff : ∀ {s a}, I s → (P s a ↔ Q s a)) (hpres : ∀ {s a t}, I s → exec s a = some t → I t)
    {as : List α} {s : σ} (h₀ : I s) : Along exec P s as ↔ Along exec Q s as :=
  along_iff_of_kept hiff (fun h _ hexec => hpres h hexec) h₀

/-! ### Undefined steps

A run ends at an undefined step, so nothing is said about what comes behind it.  A property that
should not hold for want of an outcome asks for one: as a part of what it says of each step, or with
`Answers` along the run.  A total step function, as `outputs_eq` and `ownOutputs_eq` take it, says
itself what an undefined step does. -/

/-- A step that is `made` in the state has an outcome.  A label that is no step of the system there,
as a call of a process that does not exist, only ends the run. -/
def Answers (exec : σ → α → Option σ) (made : σ → α → Prop) (s : σ) (a : α) : Prop :=
  made s a → (exec s a).isSome

/-- The exact condition rule, with undefined steps as failures.  A good step taken from `I` has an
outcome, with `I` again; a bad one has none, or one without `P`.  Then `P` holds along a run in
which every step has an outcome exactly when its steps are all good. -/
theorem exact_along {exec : σ → α → Option σ} {made : σ → α → Prop} {I P : σ → Prop}
    {ok : σ → α → Prop} (hIP : ∀ {s}, I s → P s)
    (hanswer : ∀ {s a}, I s → ok s a → Answers exec made s a)
    (hok : ∀ {s a t}, I s → exec s a = some t → ok s a → I t)
    (hbad : ∀ {s a}, I s → Answers exec made s a → ¬ ok s a → ∃ t, exec s a = some t ∧ ¬ P t)
    {as : List α} {s : σ} (h₀ : I s) :
    AllStates P s (traceFn exec s as) ∧ Along exec (Answers exec made) s as ↔
      Along exec ok s as := by
  induction as generalizing s with
  | nil => exact ⟨fun _ => trivial, fun _ => ⟨⟨hIP h₀, by simp [traceFn]⟩, trivial⟩⟩
  | cons a as ih =>
      constructor
      · rintro ⟨hall, hanswers, hrest⟩
        -- were the step bad, `P` would fail in the state it reaches
        have hgood : ok s a := by
          by_contra hno
          rcases hbad h₀ hanswers hno with ⟨t, hexec, hfail⟩
          rw [traceFn, hexec] at hall
          exact hfail (allStates_cons.1 hall).2.1
        refine ⟨hgood, fun t hexec => (ih (hok h₀ hexec hgood)).1 ⟨?_, hrest t hexec⟩⟩
        rw [traceFn, hexec] at hall
        exact (allStates_cons.1 hall).2
      · rintro ⟨hgood, hrest⟩
        refine ⟨?_, hanswer h₀ hgood, fun t hexec =>
          ((ih (hok h₀ hexec hgood)).2 (hrest t hexec)).2⟩
        cases hexec : exec s a with
        | none => exact ⟨hIP h₀, by simp [traceFn, hexec]⟩
        | some t =>
            rw [traceFn, hexec]
            exact allStates_cons.2 ⟨hIP h₀, ((ih (hok h₀ hexec hgood)).2 (hrest t hexec)).1⟩

/-- What the steps put out, up to the first undefined one. -/
def outputs (perform : σ → α → Option (β × σ)) : σ → List α → List (Option β)
  | _, [] => []
  | s, a :: as =>
      match perform s a with
      | none => [none]
      | some (b, t) => some b :: outputs perform t as

/-- Two steps that are both undefined, or put out the same and lead to related states. -/
inductive SameStep (R : σ → τ → Prop) : Option (β × σ) → Option (β × τ) → Prop
  | undefined : SameStep R none none
  | defined (b : β) {s : σ} {t : τ} (h : R s t) : SameStep R (some (b, s)) (some (b, t))

theorem SameStep.mono {R R' : σ → τ → Prop} {x : Option (β × σ)} {y : Option (β × τ)}
    (h : SameStep R x y) (hR : ∀ {s : σ} {t : τ}, R s t → R' s t) : SameStep R' x y := by
  cases h with
  | undefined => exact .undefined
  | defined b hst => exact .defined b (hR hst)

/-- Results that are turned into others alike. -/
theorem SameStep.map {σ' τ' : Type u} {γ : Type w} {R : σ → τ → Prop} {R' : σ' → τ' → Prop}
    {x : Option (β × σ)} {y : Option (β × τ)} (h : SameStep R x y) {f : β × σ → γ × σ'}
    {g : β × τ → γ × τ'}
    (hfg : ∀ {b : β} {s : σ} {t : τ}, R s t →
      (f (b, s)).1 = (g (b, t)).1 ∧ R' (f (b, s)).2 (g (b, t)).2) :
    SameStep R' (x.map f) (y.map g) := by
  cases h with
  | undefined => exact .undefined
  | @defined b s t hR =>
      have hboth := hfg (b := b) hR
      rcases hboth with ⟨hout, hR'⟩
      simp only [Option.map_some]
      generalize f (b, s) = r at hout hR'
      generalize g (b, t) = r' at hout hR'
      rcases r with ⟨c, s'⟩
      rcases r' with ⟨c', t'⟩
      obtain rfl : c = c' := hout
      exact .defined c hR'

/-- The state behind steps that always have an outcome. -/
def finalState (f : σ → α → β × σ) (s : σ) (as : List α) : σ := as.foldl (fun s a => (f s a).2) s

theorem finalState_append (f : σ → α → β × σ) (s : σ) (as bs : List α) :
    finalState f s (as ++ bs) = finalState f (finalState f s as) bs :=
  List.foldl_append ..

/-- It is where the run of the steps ends. -/
theorem runFn_finalState (f : σ → α → β × σ) (s : σ) (as : List α) :
    runFn (fun s a => some (f s a).2) s as = some (finalState f s as) := by
  induction as generalizing s with
  | nil => rfl
  | cons a as ih => exact ih (f s a).2

/-- What the steps of one owner put out. -/
def ownOutputs (f : σ → α → β × σ) (own : α → Bool) : σ → List α → List β
  | _, [] => []
  | s, a :: as =>
      if own a then (f s a).1 :: ownOutputs f own (f s a).2 as else ownOutputs f own (f s a).2 as

/-- The company rule: own steps from related states put out the same and lead to related states,
and a step of another owner leads from a related state to a related one. -/
theorem ownOutputs_eq {f : σ → α → β × σ} {g : τ → α → β × τ} {own : α → Bool} {R : σ → τ → Prop}
    {P : σ → α → Prop}
    (hown : ∀ {s t a}, R s t → own a = true → P s a →
      (f s a).1 = (g t a).1 ∧ R (f s a).2 (g t a).2)
    (hother : ∀ {s t a}, R s t → own a = false → P s a → R (f s a).2 t) {as : List α} {s : σ}
    {t : τ} (h₀ : R s t) (hP : Along (fun s a => some (f s a).2) P s as) :
    ownOutputs f own s as = ownOutputs g own t (as.filter own) ∧
      R (finalState f s as) (finalState g t (as.filter own)) := by
  induction as generalizing s t with
  | nil => exact ⟨rfl, h₀⟩
  | cons a as ih =>
      have hrest := hP.2 _ rfl
      cases ha : own a with
      | true =>
          rcases hown h₀ ha hP.1 with ⟨hout, hR⟩
          simp only [ownOutputs, List.filter_cons, ha, if_true, hout, List.cons.injEq, true_and]
          exact ih hR hrest
      | false =>
          simp only [ownOutputs, List.filter_cons, ha, Bool.false_eq_true, if_false]
          exact ih (hother h₀ ha hP.1) hrest

/-- Own steps under other labels. -/
theorem ownOutputs_relabel {γ : Type v} {f : σ → α → β × σ} {own : α → Bool} {own' : γ → Bool}
    (label : γ → α) {g : σ → γ → β × σ} (hown : ∀ c, own' c = true → own (label c) = true)
    (hstep : ∀ s c, g s c = f s (label c)) (s : σ) (cs : List γ) :
    ownOutputs g own' s (cs.filter own') = ownOutputs f own s ((cs.filter own').map label) ∧
      finalState g s (cs.filter own') = finalState f s ((cs.filter own').map label) := by
  induction cs generalizing s with
  | nil => exact ⟨rfl, rfl⟩
  | cons c cs ih =>
      cases hc : own' c with
      | true =>
          rcases ih (f s (label c)).2 with ⟨hout, hend⟩
          simp only [List.filter_cons, hc, if_true, List.map_cons, ownOutputs, hown c hc, hstep,
            hout, true_and]
          simpa only [finalState, List.foldl_cons, hstep] using hend
      | false =>
          simp only [List.filter_cons, hc, Bool.false_eq_true, if_false]
          exact ih s

end Lib
end MiniOs
