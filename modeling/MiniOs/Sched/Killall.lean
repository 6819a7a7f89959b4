import Mathlib.Data.List.Perm.Subperm
import MiniOs.Sched.Sched

/-!
# Killall — removing processes from a queue (`sys_killall.c`)

`kill_all_in_queue` drains a queue through a temporary one, dropping the processes whose path
equals the target name, and refills it.  `__sys_killall` runs it on `running_list` and then on
`caller->mlq_ready_queue`, which is the *array* of ready levels: only level `0` is searched.
-/

namespace MiniOs

namespace QueueT

variable {α : Type} (priority : α → Nat)

/-- `while (!empty(q))`, the drain loop; it runs at most `q->size` times.  `kill` is the test
`strcmp(proc->path, target_name) == 0`. -/
def drain (kill : α → Bool) : Nat → QueueT α → QueueT α → QueueT α × QueueT α
  | 0, q, tempQueue => (q, tempQueue)
  | n + 1, q, tempQueue =>
      match q.dequeue priority with
      | none => (q, tempQueue)
      | some (proc, q') =>
          drain kill n q' (if kill proc then tempQueue else tempQueue.enqueue proc)

/-- `while (!empty(tempQueue)) enqueue(q, dequeue(tempQueue))`. -/
def refill : Nat → QueueT α → QueueT α → QueueT α
  | 0, _, q => q
  | n + 1, tempQueue, q =>
      match tempQueue.dequeue priority with
      | none => q
      | some (proc, tempQueue') => refill n tempQueue' (q.enqueue proc)

def killAll (kill : α → Bool) (q : QueueT α) : QueueT α :=
  let (q', tempQueue) := drain priority kill q.size q nil
  refill priority tempQueue.size tempQueue q'

section

variable {priority}

theorem dequeue_perm {q q' : QueueT α} {p : α} (h : q.dequeue priority = some (p, q')) :
    q.proc.Perm (p :: q'.proc) := by
  rcases dequeue_spec h with ⟨pre, post, hproc, hrest, _, _⟩
  rw [hproc, hrest]
  exact List.perm_middle

theorem size_of_dequeue {q q' : QueueT α} {p : α} (h : q.dequeue priority = some (p, q')) :
    q.size = q'.size + 1 := by
  simpa [size] using (dequeue_perm h).length_eq

end

/-- Induction on a queue, by what is left of it behind its first `dequeue`. -/
theorem dequeue_induction {P : QueueT α → Prop} (nil : ∀ q, q.proc = [] → P q)
    (serve : ∀ q p q', q.dequeue priority = some (p, q') → P q' → P q) (q : QueueT α) : P q := by
  induction hsize : q.size generalizing q with
  | zero => exact nil q (List.length_eq_zero_iff.1 hsize)
  | succ n ih =>
      cases hdeq : q.dequeue priority with
      | none => exact nil q (dequeue_eq_none_iff.1 hdeq)
      | some r =>
          have hq := size_of_dequeue hdeq
          exact serve q r.1 r.2 hdeq (ih r.2 (by omega))

/-! ## The order in which a queue is served -/

/-- What `n` calls of `dequeue` return. -/
def takeOut : Nat → QueueT α → List α
  | 0, _ => []
  | n + 1, q =>
      match q.dequeue priority with
      | none => []
      | some (p, q') => p :: takeOut n q'

/-- All entries, in the order in which `dequeue` returns them. -/
def dequeued (q : QueueT α) : List α := takeOut priority q.size q

section

variable {priority} {q q' : QueueT α} {p : α}

theorem size_of_nil (h : q.proc = []) : q.size = 0 := congrArg List.length h

theorem dequeued_of_nil (h : q.proc = []) : q.dequeued priority = [] := by
  rw [dequeued, size_of_nil h, takeOut]

theorem dequeued_of_dequeue (h : q.dequeue priority = some (p, q')) :
    q.dequeued priority = p :: q'.dequeued priority := by
  rw [dequeued, size_of_dequeue h, takeOut, h]
  rfl

theorem dequeued_perm (q : QueueT α) : (q.dequeued priority).Perm q.proc := by
  induction q using dequeue_induction priority with
  | nil q hnil => rw [dequeued_of_nil hnil, hnil]
  | serve q p q' hdeq ih =>
      rw [dequeued_of_dequeue hdeq]
      exact (ih.cons p).trans (dequeue_perm hdeq).symm

/-! ## The loops -/

theorem drain_of_nil (h : q.proc = []) (kill : α → Bool) (t : QueueT α) :
    drain priority kill q.size q t = (q, t) := by
  rw [size_of_nil h, drain]

theorem drain_of_dequeue (h : q.dequeue priority = some (p, q')) (kill : α → Bool)
    (t : QueueT α) : drain priority kill q.size q t =
      drain priority kill q'.size q' (if kill p then t else t.enqueue p) := by
  rw [size_of_dequeue h, drain, h]

theorem refill_of_nil (h : q.proc = []) (t : QueueT α) : refill priority q.size q t = t := by
  rw [size_of_nil h, refill]

theorem refill_of_dequeue (h : q.dequeue priority = some (p, q')) (t : QueueT α) :
    refill priority q.size q t = refill priority q'.size q' (t.enqueue p) := by
  rw [size_of_dequeue h, refill, h]

/-- The drain loop empties the queue and appends, to the temporary queue, exactly the processes
that are not killed, in the order in which they are served. -/
theorem drain_spec (kill : α → Bool) (q t : QueueT α) (hroom : q.size + t.size ≤ maxQueueSize) :
    (drain priority kill q.size q t).1.proc = [] ∧
      (drain priority kill q.size q t).2.proc =
        t.proc ++ (q.dequeued priority).filter fun p => !kill p := by
  induction q using dequeue_induction priority generalizing t with
  | nil q hnil =>
      rw [drain_of_nil hnil, dequeued_of_nil hnil, List.filter_nil, List.append_nil]
      exact ⟨hnil, rfl⟩
  | serve q p q' hdeq ih =>
      have hq := size_of_dequeue hdeq
      rw [drain_of_dequeue hdeq, dequeued_of_dequeue hdeq]
      -- a killed process goes nowhere; another goes to the temporary queue, which has room:
      -- both together never hold more than `q` did
      by_cases hkill : kill p = true
      · rw [if_pos hkill, List.filter_cons_of_neg (by simp [hkill])]
        exact ih t (by omega)
      · have ht : (t.enqueue p).proc = t.proc ++ [p] := enqueue_proc_of_lt (by omega)
        have htsize : (t.enqueue p).size = t.size + 1 := by simp [size, ht]
        have hdone := ih (t.enqueue p) (by omega)
        rw [ht, List.append_assoc, List.singleton_append] at hdone
        rw [if_neg hkill, List.filter_cons_of_pos (by simp [hkill])]
        exact hdone

/-- The refill loop moves everything over in that order; nothing is dropped, since the target has
room. -/
theorem refill_spec (t q : QueueT α) (hroom : t.size + q.size ≤ maxQueueSize) :
    (refill priority t.size t q).proc = q.proc ++ t.dequeued priority := by
  induction t using dequeue_induction priority generalizing q with
  | nil t hnil => rw [refill_of_nil hnil, dequeued_of_nil hnil, List.append_nil]
  | serve t p t' hdeq ih =>
      -- the two queues together keep their size, so the target has room
      have ht := size_of_dequeue hdeq
      have hq : (q.enqueue p).proc = q.proc ++ [p] := enqueue_proc_of_lt (by omega)
      have hqsize : (q.enqueue p).size = q.size + 1 := by simp [size, hq]
      rw [refill_of_dequeue hdeq, dequeued_of_dequeue hdeq, ih _ (by omega), hq, List.append_assoc,
        List.singleton_append]

/-- Behind `kill_all_in_queue` the survivors stand as the temporary queue serves them. -/
theorem killAll_spec (kill : α → Bool) (q : QueueT α) :
    ∃ t : QueueT α, t.proc = (q.dequeued priority).filter (fun p => !kill p) ∧
      (q.killAll priority kill).proc = t.dequeued priority := by
  have hroom : q.size + (nil : QueueT α).size ≤ maxQueueSize := by
    simpa [size] using q.size_le
  -- `q` comes out of the first loop empty, so the second one fills an empty queue
  rcases @drain_spec _ priority kill q nil hroom with ⟨hempty, hkept⟩
  refine ⟨(drain priority kill q.size q nil).2, hkept, ?_⟩
  have hroom' : (drain priority kill q.size q nil).2.size +
      (drain priority kill q.size q nil).1.size ≤ maxQueueSize := by
    rw [size_of_nil hempty]
    exact (drain priority kill q.size q nil).2.size_le
  have hrefill := @refill_spec _ priority _ _ hroom'
  rw [hempty, List.nil_append] at hrefill
  exact hrefill

end

/-- `kill_all_in_queue` removes the killed processes and no other, each as often as it was
there. -/
theorem killAll_perm (kill : α → Bool) (q : QueueT α) :
    (q.killAll priority kill).proc.Perm (q.proc.filter fun p => !kill p) := by
  rcases @killAll_spec _ priority kill q with ⟨t, hkept, hproc⟩
  calc
    (q.killAll priority kill).proc.Perm t.proc := hproc ▸ dequeued_perm t
    List.Perm _ (q.proc.filter fun p => !kill p) := hkept ▸ (dequeued_perm q).filter _

end QueueT

namespace Sched

def killAllInQueue (q : QueueT Pcb) (targetName : CString) : QueueT Pcb :=
  q.killAll Pcb.priority fun proc => proc.path = targetName

/-- The pass of `__sys_killall` over `running_list`. -/
def killRunningList (s : Sched) (targetName : CString) : Sched :=
  { s with runningList := killAllInQueue s.runningList targetName }

/-- The pass over `caller->mlq_ready_queue`, the first level of the array. -/
def killReadyQueue (s : Sched) (targetName : CString) : Sched :=
  let q := killAllInQueue (s.mlqReadyQueue ⟨0, by decide⟩) targetName
  { s with mlqReadyQueue := Function.update s.mlqReadyQueue ⟨0, by decide⟩ q }

theorem killReadyQueue_level (s : Sched) (targetName : CString) (k : Fin maxPrio) :
    ((s.killReadyQueue targetName).level k).Perm
      (if k.val = 0 then (s.level k).filter fun p => p.path ≠ targetName else s.level k) := by
  -- the pointer passed is that of the array, so the queue searched is its first
  by_cases hk : k.val = 0
  · obtain rfl : k = ⟨0, by decide⟩ := Fin.ext hk
    simpa [killReadyQueue, killAllInQueue, level] using
      QueueT.killAll_perm Pcb.priority (fun proc => proc.path = targetName)
        (s.mlqReadyQueue ⟨0, by decide⟩)
  · have hne : k ≠ ⟨0, by decide⟩ := fun heq => hk (congrArg Fin.val heq)
    simp [killReadyQueue, level, Function.update_of_ne hne, hk]

theorem killReadyQueue_level_subperm (s : Sched) (targetName : CString) (k : Fin maxPrio) :
    ((s.killReadyQueue targetName).level k).Subperm (s.level k) := by
  have hperm := killReadyQueue_level s targetName k
  split at hperm
  · exact hperm.subperm.trans List.filter_sublist.subperm
  · exact hperm.subperm

end Sched

end MiniOs
