import Mathlib.Data.List.Basic
import Mathlib.Tactic.Common

/-!
# FirstFit — spans, and the first one with room

A span is a range of numbers without its end.  `firstFit n` takes `n` numbers from the front of the
first span of a list that has as many; the others stay as they are, in their order.
-/

namespace MiniOs
namespace Lib

/-- The numbers from `start` on, up to `stop` and without it. -/
structure Span where
  start : ℕ
  stop : ℕ
  deriving DecidableEq

namespace Span

def length (r : Span) : ℕ := r.stop - r.start

/-- Behind the first `n` numbers; nothing, if there are no others. -/
def behind (r : Span) (n : ℕ) : List Span :=
  if r.start + n < r.stop then [⟨r.start + n, r.stop⟩] else []

/-- One ends before the other begins. -/
def Apart (r q : Span) : Prop := r.stop ≤ q.start ∨ q.stop ≤ r.start

theorem Apart.start_ne {r q : Span} (h : r.Apart q) (hr : 0 < r.length) (hq : 0 < q.length) :
    r.start ≠ q.start := by
  unfold length at hr hq
  rcases h with h | h <;> omega

end Span

def firstFit (n : ℕ) : List Span → Option (Span × List Span)
  | [] => none
  | r :: rest =>
      if n ≤ r.length then some (⟨r.start, r.start + n⟩, r.behind n ++ rest)
      else (firstFit n rest).map fun (got, rest) => (got, r :: rest)

/-- The spans that are too short are passed over. -/
theorem firstFit_append {n : ℕ} {pre rest : List Span} (h : ∀ r ∈ pre, r.length < n) :
    firstFit n (pre ++ rest) =
      (firstFit n rest).map fun (got, rest) => (got, pre ++ rest) := by
  induction pre with
  | nil => simp
  | cons r pre ih =>
      have hshort : ¬ n ≤ r.length := Nat.not_le.2 (h r (List.mem_cons_self ..))
      rw [List.cons_append, firstFit, if_neg hshort,
        ih fun q hq => h q (List.mem_cons_of_mem r hq)]
      cases firstFit n rest <;> rfl

theorem firstFit_found {n : ℕ} {pre post : List Span} {r : Span} (h : ∀ q ∈ pre, q.length < n)
    (hr : n ≤ r.length) : firstFit n (pre ++ r :: post) =
      some (⟨r.start, r.start + n⟩, pre ++ (r.behind n ++ post)) := by
  rw [firstFit_append h, firstFit, if_pos hr, Option.map_some]

theorem firstFit_none {n : ℕ} {rs : List Span} (h : ∀ r ∈ rs, r.length < n) :
    firstFit n rs = none := by
  have hnil := @firstFit_append n rs [] h
  rwa [List.append_nil, firstFit, Option.map_none] at hnil

end Lib
end MiniOs
