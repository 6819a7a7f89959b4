import MiniOs.Sched.Sched

/-!
# Emptiness — `queue_empty` and `get_proc`

Both scan all ready levels, `queue_empty` upwards and `get_proc` downwards, and they find a process
or not alike (`queueEmpty_eq`).  But where there is one, `queue_empty` returns -1, which is as true
as the 1 that it returns for an empty scheduler.
-/

namespace MiniOs

open Lib

namespace Sched

/-! ## The scan -/

theorem emptyFrom_eq (s : Sched) : ∀ (n : Nat) (h : n ≤ maxPrio), s.emptyFrom n h =
    if ∀ k : Fin maxPrio, maxPrio - n ≤ k.val → s.level k = [] then
      if s.readyQueue.empty && s.runQueue.empty then 1 else 0
    else -1 := by
  intro n
  induction n with
  | zero =>
      intro h
      have hnone : ∀ k : Fin maxPrio, maxPrio - 0 ≤ k.val → s.level k = [] :=
        fun k hk => absurd k.isLt (Nat.not_lt.2 hk)
      rw [emptyFrom, if_pos hnone]
  | succ n ih =>
      intro h
      rw [emptyFrom, ih]
      by_cases hempty : (s.mlqReadyQueue
          ⟨maxPrio - (n + 1), Nat.sub_lt (by decide) n.succ_pos⟩).empty = true
      · -- the first level of the scan is empty, and the rest decides
        rw [if_pos hempty]
        refine if_congr ⟨fun hrest k hk => ?_, fun hall k hk => hall k (by omega)⟩ rfl rfl
        by_cases hfirst : k.val = maxPrio - (n + 1)
        · have hk : k = ⟨maxPrio - (n + 1), Nat.sub_lt (by decide) n.succ_pos⟩ := Fin.ext hfirst
          rw [hk]
          exact QueueT.empty_iff.1 hempty
        · exact hrest k (by omega)
      · have hnot : ¬ ∀ k : Fin maxPrio, maxPrio - (n + 1) ≤ k.val → s.level k = [] :=
          fun hall => hempty (QueueT.empty_iff.2 (hall _ (Nat.le_refl _)))
        rw [if_neg hempty, if_neg hnot]

/-- The two scans find a process or not alike; only the results differ. -/
theorem queueEmpty_eq (s : Sched) : s.queueEmpty =
    if s.getProc = none then if s.readyQueue.empty && s.runQueue.empty then 1 else 0
    else -1 := by
  rw [queueEmpty, emptyFrom_eq]
  refine if_congr ?_ rfl rfl
  rw [getProc_eq_none_iff]
  exact ⟨fun hall k => hall k (by omega), fun hall k _ => hall k⟩

/-! ## Runs -/

/-- A call; it is undefined where `prio` is no index of the levels. -/
def exec (s : Sched) : Call → Option Sched
  | .addProc p => if p.prio < maxPrio then some (s.addProc p) else none
  | .putProc p => if p.prio < maxPrio then some (s.putProc p) else none
  | .getProc => some (s.call .getProc)

/-- `queue_empty` is true exactly if `get_proc` would return `NULL`. -/
def EmptyAgrees (s : Sched) : Prop := s.queueEmpty ≠ 0 ↔ s.getProc = none

/-- Nothing is in the queues of the scheduler without levels. -/
def LegacyEmpty (s : Sched) : Prop := s.readyQueue.empty = true ∧ s.runQueue.empty = true

/-- The levels have no process either. -/
structure AllEmpty (s : Sched) : Prop where
  legacy : s.LegacyEmpty
  levels : ∀ k, s.level k = []

theorem emptyAgrees_iff_nil {s : Sched} (h : s.LegacyEmpty) :
    s.EmptyAgrees ↔ s.getProc = none := by
  rw [EmptyAgrees, queueEmpty_eq]
  by_cases hget : s.getProc = none
  · simp [hget, h.1, h.2]
  · simp [hget]

theorem emptyAgrees_iff_waiting {s : Sched} (h : s.LegacyEmpty) :
    s.EmptyAgrees ↔ ∀ p, ¬ s.Waiting p := by
  rw [emptyAgrees_iff_nil h, getProc_eq_none_iff]
  constructor
  · rintro hall p ⟨k, hp⟩
    rw [hall k] at hp
    cases hp
  · exact fun hnone k => List.eq_nil_iff_forall_not_mem.2 fun p hp => hnone p ⟨k, hp⟩

theorem enqueueLevel_legacyEmpty {s : Sched} (h : s.LegacyEmpty) (p : Pcb) :
    (s.enqueueLevel p).LegacyEmpty := by
  unfold enqueueLevel
  split <;> exact h

/-- Step lemma: no call reaches the queues without levels. -/
theorem exec_legacyEmpty {s t : Sched} {c : Call} (h : s.LegacyEmpty) (hexec : s.exec c = some t) :
    t.LegacyEmpty := by
  have hadd : ∀ p, (s.addProc p).LegacyEmpty := fun p =>
    @enqueueLevel_legacyEmpty (s.enqueueRunning p) h p
  cases c with
  | addProc p | putProc p =>
      rw [exec] at hexec
      split_ifs at hexec
      obtain rfl := Option.some.inj hexec
      exact hadd p
  | getProc =>
      obtain rfl := Option.some.inj hexec
      unfold call
      cases hget : s.getProc with
      | none => exact h
      | some r =>
          rcases getProc_spec hget with ⟨k, q, _, _, hs, _⟩
          simp only [hs]
          exact h

theorem initScheduler_allEmpty : initScheduler.AllEmpty := ⟨⟨rfl, rfl⟩, fun _ => rfl⟩

theorem AllEmpty.emptyAgrees {s : Sched} (h : s.AllEmpty) : s.EmptyAgrees :=
  (emptyAgrees_iff_nil h.legacy).2 (getProc_eq_none_iff.2 h.levels)

/-- Step lemma, good case: `get_proc` leaves an empty scheduler as it is. -/
theorem exec_allEmpty {s t : Sched} {c : Call} (h : s.AllEmpty) (hexec : StepOf exec s c t)
    (hc : c = .getProc) : t.AllEmpty := by
  subst hc
  have hget := getProc_eq_none_iff.2 h.levels
  have hsame : s.call .getProc = s := by simp only [call, hget]
  obtain rfl : s = t := hsame.symm.trans (Option.some.inj hexec)
  exact h

/-- A process that enters an empty level gets its slot. -/
theorem getProc_addProc {s : Sched} (h : s.AllEmpty) {p : Pcb} (hprio : p.prio < maxPrio) :
    (s.addProc p).getProc ≠ none := by
  intro hget
  have hempty := getProc_eq_none_iff.1 hget ⟨p.prio, hprio⟩
  have hlevel : (s.enqueueRunning p).level ⟨p.prio, hprio⟩ = [] := h.levels _
  have hroom : (⟨p.prio, hprio⟩ : Fin maxPrio).val = p.prio ∧
      ((s.enqueueRunning p).level ⟨p.prio, hprio⟩).length < maxQueueSize := by
    rw [hlevel]
    exact ⟨rfl, by decide⟩
  rw [addProc, addMlqProc, enqueueLevel_level, if_pos hroom, hlevel] at hempty
  cases hempty

/-- Step lemma, bad case: any other call makes `queue_empty` wrong. -/
theorem exec_not_emptyAgrees {s t : Sched} {c : Call} (h : s.AllEmpty) (hexec : StepOf exec s c t)
    (hc : c ≠ .getProc) : ¬ t.EmptyAgrees := by
  rw [emptyAgrees_iff_nil (exec_legacyEmpty h.legacy hexec)]
  cases c with
  | addProc p | putProc p =>
      rw [StepOf, exec] at hexec
      split_ifs at hexec with hprio
      obtain rfl := Option.some.inj hexec
      exact getProc_addProc h hprio
  | getProc => exact absurd rfl hc

/-- For every sequence of calls from `init_scheduler`: in every state that it reaches, the two agree
exactly if no process waits; and they agree in all of them exactly if no process is ever added or
put back. -/
theorem emptyAgrees_iff (cs : List Call) :
    AllStates (fun s => s.EmptyAgrees ↔ ∀ p, ¬ s.Waiting p) initScheduler
        (traceFn exec initScheduler cs) ∧
      (AllStates EmptyAgrees initScheduler (traceFn exec initScheduler cs) ↔
        AllSteps (fun _ c => c = .getProc) initScheduler (traceFn exec initScheduler cs)) := by
  rcases run_traceFn exec initScheduler cs with ⟨t, hrun⟩
  constructor
  · have hlegacy := hrun.allStates exec_legacyEmpty initScheduler_allEmpty.legacy
    exact ⟨emptyAgrees_iff_waiting hlegacy.1, fun x hx => emptyAgrees_iff_waiting (hlegacy.2 x hx)⟩
  · exact hrun.exact AllEmpty.emptyAgrees exec_allEmpty exec_not_emptyAgrees
      initScheduler_allEmpty

/-- `s1` of `input/sched_0`. -/
def sched0S1 : Pcb :=
  { pid := 2, priority := 20, path := ascii "input/proc/s1", code := [], prio := 0 }

/-- With one process, `queue_empty` returns -1, and `get_proc` would return the process. -/
theorem sched0S1_not_emptyAgrees : ¬ (initScheduler.calls [.addProc sched0S1]).EmptyAgrees := by
  intro h
  have hreturn : (initScheduler.calls [.addProc sched0S1]).queueEmpty = -1 := by decide
  have htrue : (initScheduler.calls [.addProc sched0S1]).queueEmpty ≠ 0 := by
    rw [hreturn]
    decide
  have hprio : sched0S1.prio < maxPrio := by decide
  exact getProc_addProc initScheduler_allEmpty hprio (h.1 htrue)

end Sched
end MiniOs
