import MiniOs.Lib.Run
import MiniOs.Sched.Killall
import MiniOs.Sched.Stability

/-!
# Removal — `kill_all_in_queue` does not disturb the others

The survivors pass through `dequeue` twice and come back in another order.  Within each priority the
order is the one that they had (`killAll_classes`), and nothing else of it can be observed.
-/

namespace MiniOs

open Lib

namespace QueueT

variable {α : Type} (priority : α → Nat)

/-! ## The loops -/

/-- `while (!empty(q))`, the drain loop; `none` is a loop with more than `fuel` rounds. -/
def drainWhile (kill : α → Bool) :
    (fuel : Nat) → QueueT α → QueueT α → Option (QueueT α × QueueT α)
  | 0, _, _ => none
  | fuel + 1, q, tempQueue =>
      match q.dequeue priority with
      | none => some (q, tempQueue)
      | some (proc, q') =>
          drainWhile kill fuel q' (if kill proc then tempQueue else tempQueue.enqueue proc)

/-- `while (!empty(tempQueue))`, the refill loop. -/
def refillWhile : (fuel : Nat) → QueueT α → QueueT α → Option (QueueT α)
  | 0, _, _ => none
  | fuel + 1, tempQueue, q =>
      match tempQueue.dequeue priority with
      | none => some q
      | some (proc, tempQueue') => refillWhile fuel tempQueue' (q.enqueue proc)

def killAllWhile (kill : α → Bool) (fuel : Nat) (q : QueueT α) : Option (QueueT α) :=
  (drainWhile priority kill fuel q nil).bind fun r => refillWhile priority fuel r.2 r.1

variable {priority}

theorem drainWhile_eq (kill : α → Bool) (fuel : Nat) (q t : QueueT α) (hlt : q.size < fuel) :
    drainWhile priority kill fuel q t = some (drain priority kill q.size q t) := by
  induction q using dequeue_induction priority generalizing fuel t with
  | nil q hnil =>
      obtain ⟨fuel, rfl⟩ := Nat.exists_eq_succ_of_ne_zero (Nat.ne_zero_of_lt hlt)
      rw [drainWhile, dequeue_eq_none_iff.2 hnil, drain_of_nil hnil]
  | serve q p q' hdeq ih =>
      have hsize := size_of_dequeue hdeq
      obtain ⟨fuel, rfl⟩ := Nat.exists_eq_succ_of_ne_zero (Nat.ne_zero_of_lt hlt)
      rw [drainWhile, hdeq, drain_of_dequeue hdeq]
      exact ih fuel _ (by omega)

theorem refillWhile_eq (fuel : Nat) (t q : QueueT α) (hlt : t.size < fuel) :
    refillWhile priority fuel t q = some (refill priority t.size t q) := by
  induction t using dequeue_induction priority generalizing fuel q with
  | nil t hnil =>
      obtain ⟨fuel, rfl⟩ := Nat.exists_eq_succ_of_ne_zero (Nat.ne_zero_of_lt hlt)
      rw [refillWhile, dequeue_eq_none_iff.2 hnil, refill_of_nil hnil]
  | serve t p t' hdeq ih =>
      have hsize := size_of_dequeue hdeq
      obtain ⟨fuel, rfl⟩ := Nat.exists_eq_succ_of_ne_zero (Nat.ne_zero_of_lt hlt)
      rw [refillWhile, hdeq, refill_of_dequeue hdeq]
      exact ih fuel _ (by omega)

/-- Both loops end. -/
theorem killAllWhile_eq (kill : α → Bool) (q : QueueT α) :
    killAllWhile priority kill (maxQueueSize + 1) q = some (q.killAll priority kill) := by
  have hq := Nat.lt_succ_of_le q.size_le
  have ht := Nat.lt_succ_of_le (drain priority kill q.size q nil).2.size_le
  rw [killAllWhile, drainWhile_eq kill _ q nil hq, Option.bind_some, refillWhile_eq _ _ _ ht,
    killAll]

/-! ## Classes -/

/-- Serving a queue keeps the order within each priority. -/
theorem dequeued_classes (q : QueueT α) : SameClasses priority (q.dequeued priority) q.proc := by
  induction q using dequeue_induction priority with
  | nil q hnil =>
      rw [dequeued_of_nil hnil, hnil]
      exact SameClasses.refl priority []
  | serve q p q' hdeq ih =>
      intro n
      have hsplit : p :: q'.dequeued priority = [p] ++ q'.dequeued priority := rfl
      rw [dequeued_of_dequeue hdeq, hsplit, classOf_append, ih n,
        (served_of_dequeue hdeq).classOf n]

/-- The matching entries deleted in place. -/
def without (kill : α → Bool) (q : QueueT α) : QueueT α :=
  ⟨q.proc.filter fun p => !kill p, Nat.le_trans (List.length_filter_le ..) q.size_le⟩

theorem killAll_classes (kill : α → Bool) (q : QueueT α) :
    SameClasses priority (q.killAll priority kill).proc (q.without kill).proc := by
  rcases @killAll_spec _ priority kill q with ⟨t, hkept, hproc⟩
  intro n
  calc
    classOf priority n (q.killAll priority kill).proc =
        classOf priority n (t.dequeued priority) := by rw [hproc]
    _ = classOf priority n t.proc := dequeued_classes t n
    _ = classOf priority n ((q.dequeued priority).filter fun p => !kill p) := by rw [hkept]
    _ = classOf priority n (q.without kill).proc := (dequeued_classes q).filter _ n

/-! ## What can be observed -/

/-- Queues with the same entries, in the same order within each priority. -/
structure Alike (priority : α → Nat) (q q' : QueueT α) : Prop where
  perm : q.proc.Perm q'.proc
  classes : SameClasses priority q.proc q'.proc

/-- Step lemma: a call returns the same entry of both. -/
theorem Alike.perform {q q' : QueueT α} (h : q.Alike priority q') (op : LineOp α) :
    (q.perform priority op).1 = (q'.perform priority op).1 ∧
      (q.perform priority op).2.Alike priority (q'.perform priority op).2 := by
  have hsize : q.size = q'.size := h.perm.length_eq
  cases op with
  | enqueue p =>
      refine ⟨rfl, ?_⟩
      simp only [QueueT.perform]
      by_cases hroom : q.size < maxQueueSize
      · have hq := enqueue_proc_of_lt (p := p) hroom
        have hq' := enqueue_proc_of_lt (p := p) (hsize ▸ hroom)
        exact ⟨hq ▸ hq' ▸ h.perm.append_right [p], hq ▸ hq' ▸ h.classes.append [p]⟩
      · have hfull := Nat.not_lt.1 hroom
        rw [enqueue_of_full hfull, enqueue_of_full (hsize ▸ hfull)]
        exact h
  | dequeue =>
      simp only [QueueT.perform]
      cases hdeq : q.dequeue priority with
      | none =>
          have hnil := dequeue_eq_none_iff.1 hdeq
          have hnil' : q'.proc = [] := List.nil_perm.1 (hnil ▸ h.perm)
          rw [dequeue_eq_none_iff.2 hnil']
          exact ⟨rfl, h⟩
      | some r =>
          cases hdeq' : q'.dequeue priority with
          | none =>
              have hnil := dequeue_eq_none_iff.1 hdeq'
              have hnil' : q.proc = [] := List.perm_nil.1 (hnil ▸ h.perm)
              rw [dequeue_eq_none_iff.2 hnil'] at hdeq
              cases hdeq
          | some r' =>
              have hserved := h.classes.served (served_of_dequeue hdeq) (served_of_dequeue hdeq')
              refine ⟨congrArg some hserved.1, ?_, hserved.2⟩
              have hperm := (dequeue_perm hdeq).symm.trans (h.perm.trans (dequeue_perm hdeq'))
              rw [hserved.1] at hperm
              exact hperm.cons_inv

/-- What the calls return, from a queue on. -/
def returned (priority : α → Nat) (q : QueueT α) : List (LineOp α) → List (Option α)
  | [] => []
  | op :: ops => (q.perform priority op).1 :: returned priority (q.perform priority op).2 ops

/-- Run lemma. -/
theorem Alike.returned (ops : List (LineOp α)) : ∀ {q q' : QueueT α}, q.Alike priority q' →
    q.returned priority ops = q'.returned priority ops := by
  induction ops with
  | nil => exact fun _ => rfl
  | cons op ops ih =>
      intro q q' h
      rcases h.perform op with ⟨hsame, h'⟩
      rw [QueueT.returned, QueueT.returned, hsame, ih h']

end QueueT

namespace Sched

/-- The loops of `kill_all_in_queue` end, exactly the entries with the name are gone, and what
remains is served as if they had been deleted in place. -/
structure RemovesInPlace (q : QueueT Pcb) (targetName : CString) : Prop where
  ends : q.killAllWhile Pcb.priority (fun proc => proc.path = targetName) (maxQueueSize + 1) =
    some (killAllInQueue q targetName)
  removes : (killAllInQueue q targetName).proc.Perm (q.proc.filter fun p => p.path ≠ targetName)
  alike : ∀ ops, (killAllInQueue q targetName).returned Pcb.priority ops =
    (q.without fun proc => proc.path = targetName).returned Pcb.priority ops

/-- For every queue and every name. -/
theorem killAllInQueue_inPlace (q : QueueT Pcb) (targetName : CString) :
    RemovesInPlace q targetName := by
  have hperm := QueueT.killAll_perm Pcb.priority (fun proc => proc.path = targetName) q
  refine ⟨QueueT.killAllWhile_eq _ q, by simpa [killAllInQueue] using hperm, ?_⟩
  intro ops
  have halike : (killAllInQueue q targetName).Alike Pcb.priority
      (q.without fun proc => proc.path = targetName) := ⟨hperm, QueueT.killAll_classes _ q⟩
  exact halike.returned ops

end Sched

end MiniOs
