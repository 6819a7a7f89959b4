import Mathlib.Data.List.Count
import Mathlib.Data.List.Infix

/-!
# Fifo — histories of a waiting line

A history is a list of `enter` and `leave` events of one waiting line, oldest first.  `InOrder`
says that the line is first-in first-out: at every moment, what has left is the first part of
what has entered.  From it follows the round-robin law `RoundRobin`: between two departures of
`x`, everything that waited while `x` was away departs exactly once.

A store that gives its items away one at a time is observed through `takes`; what it gives tells
its items and their order (`takes_eq`, `front_injective`).
-/

namespace MiniOs
namespace Lib

universe u

/-- An event of a waiting line. -/
inductive Event (α : Type u)
  | enter (x : α)
  | leave (x : α)
  deriving DecidableEq

namespace Event

variable {α : Type u}

/-- What has entered the line, in order. -/
def entered : List (Event α) → List α
  | [] => []
  | .enter x :: evs => x :: entered evs
  | .leave _ :: evs => entered evs

/-- What has left the line, in order. -/
def left : List (Event α) → List α
  | [] => []
  | .enter _ :: evs => left evs
  | .leave x :: evs => x :: left evs

@[simp] theorem entered_append (evs evs' : List (Event α)) :
    entered (evs ++ evs') = entered evs ++ entered evs' := by
  induction evs with
  | nil => rfl
  | cons e evs ih => cases e <;> simp [entered, ih]

@[simp] theorem left_append (evs evs' : List (Event α)) :
    left (evs ++ evs') = left evs ++ left evs' := by
  induction evs with
  | nil => rfl
  | cons e evs ih => cases e <;> simp [left, ih]

@[simp] theorem entered_nil : entered ([] : List (Event α)) = [] := rfl
@[simp] theorem left_nil : left ([] : List (Event α)) = [] := rfl

@[simp] theorem entered_enter (x : α) (evs : List (Event α)) :
    entered (.enter x :: evs) = x :: entered evs := rfl

@[simp] theorem entered_leave (x : α) (evs : List (Event α)) :
    entered (.leave x :: evs) = entered evs := rfl

@[simp] theorem left_enter (x : α) (evs : List (Event α)) :
    left (.enter x :: evs) = left evs := rfl

@[simp] theorem left_leave (x : α) (evs : List (Event α)) :
    left (.leave x :: evs) = x :: left evs := rfl

/-! ## First in, first out -/

/-- Entries leave the line in the order in which they entered it. -/
def InOrder (evs : List (Event α)) : Prop :=
  ∀ pre, pre <+: evs → left pre <+: entered pre

theorem inOrder_nil : InOrder ([] : List (Event α)) := by
  intro pre hpre
  rw [List.prefix_nil.1 hpre]
  exact List.nil_prefix

theorem InOrder.of_prefix {evs evs' : List (Event α)} (h : InOrder evs) (hpre : evs' <+: evs) :
    InOrder evs' :=
  fun _ hp => h _ (hp.trans hpre)

/-- A history grows event by event. -/
theorem inOrder_concat {evs : List (Event α)} {e : Event α} :
    InOrder (evs ++ [e]) ↔ InOrder evs ∧ left (evs ++ [e]) <+: entered (evs ++ [e]) := by
  constructor
  · intro h
    exact ⟨h.of_prefix (List.prefix_append _ _), h _ (List.prefix_refl _)⟩
  · rintro ⟨h, hlast⟩ pre hpre
    -- a prefix of the longer history is that history or a prefix of the shorter one
    rcases List.prefix_concat_iff.1 hpre with rfl | hpre
    · exact hlast
    · exact h pre hpre

/-- If `x` stands behind `w` in the line and `x` itself has just left after `m`, then exactly
`w` left before it. -/
theorem eq_of_append_singleton_prefix {w m r : List α} {x : α}
    (h : m ++ [x] <+: w ++ x :: r) (hw : x ∉ w) (hm : x ∉ m) : m = w := by
  -- induction on what left before `x`, entry by entry along `w`
  induction m generalizing w with
  | nil =>
      cases w with
      | nil => rfl
      | cons z w =>
          rw [List.cons_append, List.nil_append, List.cons_prefix_cons] at h
          exact absurd (by simp [h.1]) hw
  | cons a m ih =>
      cases w with
      | nil =>
          rw [List.cons_append, List.nil_append, List.cons_prefix_cons] at h
          exact absurd (by simp [h.1]) hm
      | cons z w =>
          rw [List.cons_append, List.cons_append, List.cons_prefix_cons] at h
          have hrest : m = w := ih h.2 (fun hx => hw (by simp [hx])) (fun hx => hm (by simp [hx]))
          rw [h.1, hrest]

/-- After `x` re-enters an in-order line, exactly what waited before it departs, in that order,
before `x` departs again. -/
theorem InOrder.left_until {P M B : List (Event α)} {x : α} {w : List α}
    (h : InOrder (P ++ .enter x :: M ++ .leave x :: B)) (hw : entered P = left P ++ w)
    (hxw : x ∉ w) (hxM : x ∉ left M) : left M = w := by
  have hpre : left (P ++ .enter x :: M ++ [.leave x]) <+:
      entered (P ++ .enter x :: M ++ [.leave x]) :=
    h _ (by simp)
  -- what left before `x` came in is a common prefix of both sides
  have hpre' : left M ++ [x] <+: w ++ x :: entered M := by
    simpa [hw, List.append_assoc] using hpre
  exact eq_of_append_singleton_prefix hpre' hxw hxM

/-! ## Round robin -/

variable [DecidableEq α]

/-- `x` waits in the line, once. -/
def Waits (evs : List (Event α)) (x : α) : Prop :=
  (entered evs).count x = (left evs).count x + 1

/-- `x` is not in the line. -/
def Away (evs : List (Event α)) (x : α) : Prop :=
  (entered evs).count x = (left evs).count x

/-- Between two consecutive departures of `x`, which re-enters after `M₁`, every other `y` that
waits all the time while `x` is away departs exactly once. -/
def RoundRobin (evs : List (Event α)) : Prop :=
  ∀ A M₁ M₂ B x y,
    evs = A ++ .leave x :: M₁ ++ .enter x :: M₂ ++ .leave x :: B →
    y ≠ x → x ∉ left M₁ → x ∉ left M₂ →
    Away (A ++ .leave x :: M₁) x →
    (∀ pre, pre <+: M₁ → Waits (A ++ .leave x :: pre) y) →
    (left (M₁ ++ .enter x :: M₂)).count y = 1

/-- Who waits all the time does not depart meanwhile. -/
theorem not_mem_left_of_waits (evs : List (Event α)) {M : List (Event α)} {y : α}
    (h : ∀ pre, pre <+: M → Waits (evs ++ pre) y) : y ∉ left M := by
  induction M generalizing evs with
  | nil => simp
  | cons e M ih =>
      -- the first event is moved into the past
      have hrest : y ∉ left M := by
        refine ih (evs ++ [e]) (fun pre hpre => ?_)
        have hcons := h (e :: pre) (by simpa using hpre)
        simpa using hcons
      cases e with
      | enter x => simpa using hrest
      | leave x =>
          -- were `y` the one that leaves, its count among the departed would grow
          have h₀ := h [] List.nil_prefix
          have h₁ := h [.leave x] (by simp)
          have hxy : y ≠ x := by
            rintro rfl
            simp only [Waits, List.append_nil, entered_append, entered_leave, entered_nil,
              left_append, left_leave, left_nil, List.count_append, List.count_singleton_self]
              at h₀ h₁
            omega
          simpa [hxy] using hrest

theorem InOrder.roundRobin {evs : List (Event α)} (h : InOrder evs) : RoundRobin evs := by
  intro A M₁ M₂ B x y hevs hyx _ hxM₂ haway hwait
  have hP : left (A ++ .leave x :: M₁) <+: entered (A ++ .leave x :: M₁) := by
    apply h
    rw [hevs]
    simp
  -- `w` is the line when `x` comes in again
  rcases hP with ⟨w, hw⟩
  -- `x` is away, so it does not stand in `w`; `y` waits, so it does, once
  have hxw : x ∉ w := by
    have hcount : (entered (A ++ .leave x :: M₁)).count x =
        (left (A ++ .leave x :: M₁)).count x + w.count x := by
      rw [← hw, List.count_append]
    have hzero : w.count x = 0 := by
      unfold Away at haway
      omega
    exact List.count_eq_zero.1 hzero
  have hyw : w.count y = 1 := by
    have hcount : (entered (A ++ .leave x :: M₁)).count y =
        (left (A ++ .leave x :: M₁)).count y + w.count y := by
      rw [← hw, List.count_append]
    have hy := hwait M₁ (List.prefix_refl _)
    unfold Waits at hy
    omega
  have hyM₁ : y ∉ left M₁ := by
    refine not_mem_left_of_waits (A ++ [.leave x]) (fun pre hpre => ?_)
    simpa using hwait pre hpre
  -- so exactly `w` leaves before `x` does
  have hM₂ : left M₂ = w := by
    rw [hevs] at h
    exact h.left_until hw.symm hxw hxM₂
  calc
    (left (M₁ ++ .enter x :: M₂)).count y = (left M₁).count y + (left M₂).count y := by
      rw [left_append, left_enter, List.count_append]
    _ = 0 + w.count y := by rw [List.count_eq_zero.2 hyM₁, hM₂]
    _ = 1 := by rw [hyw]

end Event

/-! ## Taking items -/

variable {σ : Type u} {α : Type u}

/-- What `n` attempts to take an item give. -/
def takes (take : σ → Option (α × σ)) : ℕ → σ → List (Option α)
  | 0, _ => []
  | n + 1, s =>
      match take s with
      | none => none :: takes take n s
      | some (x, t) => some x :: takes take n t

/-- The first `n` items, and nothing behind the last one. -/
def front : ℕ → List α → List (Option α)
  | 0, _ => []
  | n + 1, [] => none :: front n []
  | n + 1, x :: xs => some x :: front n xs

theorem takes_eq {take : σ → Option (α × σ)} (items : σ → List α)
    (hnil : ∀ s, items s = [] → take s = none)
    (hcons : ∀ s x xs, items s = x :: xs → ∃ t, take s = some (x, t) ∧ items t = xs) (n : ℕ) :
    ∀ s, takes take n s = front n (items s) := by
  induction n with
  | zero => exact fun _ => rfl
  | succ n ih =>
      intro s
      cases hitems : items s with
      | nil =>
          have hrest := ih s
          rw [hitems] at hrest
          simp [takes, front, hnil s hitems, hrest]
      | cons x xs =>
          rcases hcons s x xs hitems with ⟨t, htake, hrest⟩
          simp [takes, front, htake, ih t, hrest]

/-- The items are told by what can be taken. -/
theorem front_injective {xs ys : List α} (h : ∀ n, front n xs = front n ys) : xs = ys := by
  induction xs generalizing ys with
  | nil =>
      cases ys with
      | nil => rfl
      | cons y ys =>
          have hone := h 1
          simp [front] at hone
  | cons x xs ih =>
      cases ys with
      | nil =>
          have hone := h 1
          simp [front] at hone
      | cons y ys =>
          -- the first item is taken first, and the others behind it
          have hhead : x = y := by simpa [front] using h 1
          have htail : xs = ys := ih fun n => by
            have hnext := h (n + 1)
            simp only [front, List.cons.injEq] at hnext
            exact hnext.2
          rw [hhead, htail]

end Lib
end MiniOs
