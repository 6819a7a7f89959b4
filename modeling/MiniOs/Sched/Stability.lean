import MiniOs.Lib.Stable
import MiniOs.Sched.Queue

/-!
# Stability — a queue serves the first one of the greatest priority

Every sequence of calls on a `queue_t` that starts empty is a run of its ledger, which knows who has
entered and who of them is still there.
-/

namespace MiniOs

open Lib

namespace QueueT

variable {α : Type} (priority : α → Nat)

/-- A call: the entry that it returns, and the queue. -/
def perform (q : QueueT α) : LineOp α → Option α × QueueT α
  | .enqueue p => (none, q.enqueue p)
  | .dequeue =>
      match q.dequeue priority with
      | none => (none, q)
      | some (p, q') => (some p, q')

/-- The queue holds those who are there by its ledger, in the order in which they have entered. -/
structure Holds (q : QueueT α) (l : LineLedger α) : Prop where
  contents : q.proc = l.contents
  size : q.size = l.present.length
  size_le : q.size ≤ maxQueueSize

/-- In every state of the run the queue holds what its ledger says, and every call does what the
ledger says. -/
def Stable : QueueT α → LineLedger α → List (LineOp α) → Prop
  | q, l, [] => q.Holds l
  | q, l, op :: ops => q.Holds l ∧
      ∃ l', l.Step priority maxQueueSize op (q.perform priority op).1 l' ∧
        Stable (q.perform priority op).2 l' ops

variable {priority}

theorem holds_of_contents {q : QueueT α} {l : LineLedger α} (h : q.proc = l.contents) : q.Holds l :=
  ⟨h, by rw [size, h, l.contents_length], q.size_le⟩

theorem served_of_dequeue {q q' : QueueT α} {p : α} (h : q.dequeue priority = some (p, q')) :
    Served priority q.proc p q'.proc := by
  rcases dequeue_spec h with ⟨pre, post, hproc, hrest, hpre, hpost⟩
  exact ⟨pre, post, hproc, hrest, hpre, hpost⟩

/-- Step lemma: every call is one of the ledger. -/
theorem Holds.perform {q : QueueT α} {l : LineLedger α} (h : q.Holds l) (op : LineOp α) :
    ∃ l', l.Step priority maxQueueSize op (q.perform priority op).1 l' ∧
      (q.perform priority op).2.Holds l' := by
  cases op with
  | enqueue p =>
      by_cases hroom : q.size < maxQueueSize
      · refine ⟨l.enter p, .enqueue p (h.size ▸ hroom), holds_of_contents ?_⟩
        rw [l.contents_enter, ← h.contents]
        exact enqueue_proc_of_lt hroom
      · have hfull : q.size = maxQueueSize := Nat.le_antisymm h.size_le (Nat.not_lt.1 hroom)
        refine ⟨l, .dropped p (h.size ▸ hfull), ?_⟩
        rw [QueueT.perform, enqueue_of_full hfull.ge]
        exact h
  | dequeue =>
      rw [QueueT.perform]
      cases hdeq : q.dequeue priority with
      | none =>
          have hnil := dequeue_eq_none_iff.1 hdeq
          have hsize := h.size
          rw [QueueT.size, hnil] at hsize
          exact ⟨l, .empty (List.length_eq_zero_iff.1 hsize.symm), h⟩
      | some r =>
          have hserved := served_of_dequeue hdeq
          rw [h.contents] at hserved
          rcases LineLedger.step_of_served hserved with ⟨k, hstep, hcontents⟩
          exact ⟨l.leave k, hstep, holds_of_contents hcontents.symm⟩

/-- Run lemma. -/
theorem Holds.stable (ops : List (LineOp α)) : ∀ {q : QueueT α} {l : LineLedger α}, q.Holds l →
    q.Stable priority l ops := by
  induction ops with
  | nil => exact fun h => h
  | cons op ops ih =>
      intro q l h
      rcases h.perform op with ⟨l', hstep, h'⟩
      exact ⟨h, l', hstep, ih h'⟩

/-- For every sequence of calls on a queue that starts empty. -/
theorem stable_from_empty (priority : α → Nat) (ops : List (LineOp α)) :
    (nil : QueueT α).Stable priority LineLedger.start ops :=
  (holds_of_contents rfl : (nil : QueueT α).Holds LineLedger.start).stable ops

end QueueT

end MiniOs
