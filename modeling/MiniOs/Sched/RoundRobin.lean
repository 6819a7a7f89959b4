import MiniOs.Lib.Fifo
import MiniOs.Sched.Sched

/-!
# RoundRobin — the order in which one level is served

In MLQ mode `prio` overrides the default `priority` of a process, and the processes of one level
take turns.  `dequeue` still looks at the default priorities, so a level is a first-in first-out
line only as long as its oldest entry has the greatest one.

The scheduler is run together with the history of each level: `enter` when a process gets a
slot, `leave` when `get_proc` takes it.
-/

namespace MiniOs
namespace Sched

open Lib Lib.Event

/-- What a call does to ready level `k`. -/
def callEvents (s : Sched) (k : Fin maxPrio) : Call → List (Event Pcb)
  | .addProc p | .putProc p =>
      if k.val = p.prio ∧ (s.level k).length < maxQueueSize then [.enter p] else []
  | .getProc =>
      match s.getProc with
      | none => []
      | some (p, _) => if s.servedLevel = some k then [.leave p] else []

/-- The scheduler with the history of every level. -/
structure Traced where
  sched : Sched
  events : Fin maxPrio → List (Event Pcb)

def Traced.init : Traced := ⟨initScheduler, fun _ => []⟩

def Traced.call (t : Traced) (c : Call) : Option Traced :=
  some ⟨t.sched.call c, fun k => t.events k ++ t.sched.callEvents k c⟩

/-- Every level is served in the order of entry, and in turn. -/
def TakesTurns (t : Traced) : Prop :=
  ∀ k, InOrder (t.events k) ∧ RoundRobin (t.events k)

/-- The condition on a call: when `get_proc` serves level `k`, no process of `k` has a greater
default priority than the oldest one. -/
def ServesOldest (t : Traced) : Call → Prop
  | .addProc _ | .putProc _ => True
  | .getProc => ∀ k x xs, t.sched.servedLevel = some k → t.sched.level k = x :: xs →
      ∀ y ∈ xs, y.priority ≤ x.priority

/-- The invariant behind it: every level holds exactly what entered and has not left. -/
def LinesInOrder (t : Traced) : Prop :=
  ∀ k, InOrder (t.events k) ∧ entered (t.events k) = left (t.events k) ++ t.sched.level k

theorem linesInOrder_init : LinesInOrder Traced.init := by
  intro k
  exact ⟨inOrder_nil, by simp [Traced.init]⟩

theorem LinesInOrder.takesTurns {t : Traced} (h : LinesInOrder t) : TakesTurns t :=
  fun k => ⟨(h k).1, (h k).1.roundRobin⟩

/-- An entry keeps the lines in order, whether or not the process gets a slot. -/
theorem linesInOrder_enqueue {t : Traced} (h : LinesInOrder t) (p : Pcb) (k : Fin maxPrio) :
    let evs := if k.val = p.prio ∧ (t.sched.level k).length < maxQueueSize
      then [Event.enter p] else []
    InOrder (t.events k ++ evs) ∧
      entered (t.events k ++ evs) =
        left (t.events k ++ evs) ++ ((t.sched.enqueueRunning p).enqueueLevel p).level k := by
  rcases h k with ⟨hord, hline⟩
  have hlevel : ((t.sched.enqueueRunning p).enqueueLevel p).level k =
      if k.val = p.prio ∧ (t.sched.level k).length < maxQueueSize then t.sched.level k ++ [p]
      else t.sched.level k :=
    enqueueLevel_level (t.sched.enqueueRunning p) p k
  -- with a slot, the history and the level grow by `p` at the same end; without, neither changes
  by_cases hroom : k.val = p.prio ∧ (t.sched.level k).length < maxQueueSize
  · have hentered : entered (t.events k ++ [.enter p]) =
        left (t.events k ++ [.enter p]) ++
          ((t.sched.enqueueRunning p).enqueueLevel p).level k := by
      rw [hlevel, if_pos hroom]
      simp [hline]
    rw [if_pos hroom]
    exact ⟨inOrder_concat.2 ⟨hord, hentered ▸ List.prefix_append _ _⟩, hentered⟩
  · rw [hlevel, if_neg hroom, if_neg hroom]
    simpa using And.intro hord hline

/-- Step lemma, good case: a call that meets the condition keeps the lines in order. -/
theorem linesInOrder_call {t t' : Traced} {c : Call} (h : LinesInOrder t)
    (hstep : StepOf Traced.call t c t') (hok : ServesOldest t c) : LinesInOrder t' := by
  obtain rfl := (Option.some.inj hstep).symm
  cases c with
  | addProc p => exact linesInOrder_enqueue h p
  | putProc p => exact linesInOrder_enqueue h p
  | getProc =>
      intro k
      rcases h k with ⟨hord, hline⟩
      cases hget : t.sched.getProc with
      | none => simpa [callEvents, Sched.call, hget] using And.intro hord hline
      | some r =>
          rcases r with ⟨p, s'⟩
          rcases getProc_spec hget with ⟨j, q, pre, post, rfl, hserved, hdeq, hlevel, hq, _⟩
          -- the served level gives away its oldest entry, as the condition says
          by_cases hkj : k = j
          · subst hkj
            rcases List.exists_cons_of_ne_nil (l := t.sched.level k) (by simp [hlevel]) with
              ⟨x, xs, hx⟩
            rcases QueueT.dequeue_oldest hdeq hx (hok k x xs hserved hx) with ⟨rfl, hxs⟩
            have hentered : entered (t.events k ++ [.leave p]) =
                left (t.events k ++ [.leave p]) ++ q.proc := by
              simp [hline, hx, hxs]
            have hord' : InOrder (t.events k ++ [.leave p]) :=
              inOrder_concat.2 ⟨hord, hentered ▸ List.prefix_append _ _⟩
            simpa [callEvents, Sched.call, hget, hserved, level] using And.intro hord' hentered
          · have hserved' : t.sched.servedLevel ≠ some k := by
              rw [hserved]
              exact fun heq => hkj (Option.some.inj heq).symm
            simpa [callEvents, Sched.call, hget, hserved', level, Function.update_of_ne hkj]
              using And.intro hord hline

/-- Step lemma, bad case: a call that does not meet it lets a younger process overtake. -/
theorem not_takesTurns_call {t t' : Traced} {c : Call} (h : LinesInOrder t)
    (hstep : StepOf Traced.call t c t') (hbad : ¬ ServesOldest t c) : ¬ TakesTurns t' := by
  obtain rfl := (Option.some.inj hstep).symm
  cases c with
  | addProc p => exact absurd trivial hbad
  | putProc p => exact absurd trivial hbad
  | getProc =>
      simp only [ServesOldest, not_forall, not_le] at hbad
      rcases hbad with ⟨k, x, xs, hserved, hx, y, hy, hxy⟩
      cases hget : t.sched.getProc with
      | none =>
          rw [getProc_eq_none_iff.1 hget k] at hx
          cases hx
      | some r =>
          rcases r with ⟨p, s'⟩
          rcases getProc_spec hget with ⟨j, q, pre, post, _, hserved', hdeq, _, _, _⟩
          obtain rfl : k = j := Option.some.inj (hserved.symm.trans hserved')
          -- `x` is the next to leave by the history, but `p` left
          have hpx : p ≠ x := QueueT.dequeue_ne_oldest hdeq hx hy hxy
          intro hturns
          have hord : InOrder (t.events k ++ [.leave p]) := by
            simpa [callEvents, hget, hserved] using (hturns k).1
          -- what has left would have to be a prefix of what entered
          have hpre : left (t.events k) ++ [p] <+: left (t.events k) ++ x :: xs := by
            simpa [(h k).2, hx] using (inOrder_concat.1 hord).2
          exact hpx (by simpa using hpre)

/-- For every sequence of calls from `init_scheduler`: all levels are served in order of entry
and in turn, in every state the sequence reaches, exactly when every `get_proc` of the sequence
finds that no process of the level it serves has a greater default priority than the oldest. -/
theorem takesTurns_iff (cs : List Call) :
    AllStates TakesTurns Traced.init (traceFn Traced.call Traced.init cs) ↔
      AllSteps ServesOldest Traced.init (traceFn Traced.call Traced.init cs) := by
  rcases run_traceFn Traced.call Traced.init cs with ⟨t, hrun⟩
  exact hrun.exact LinesInOrder.takesTurns linesInOrder_call not_takesTurns_call
    linesInOrder_init

/-- `s2` and `s3` of `input/sched_1`: both `PRIO 0`, default priorities 20 and 7. -/
def sched1S2 : Pcb :=
  { pid := 3, priority := 20, path := ascii "input/proc/s2", code := [], prio := 0 }

@[inherit_doc sched1S2]
def sched1S3 : Pcb :=
  { pid := 4, priority := 7, path := ascii "input/proc/s3", code := [], prio := 0 }

/-- `s2` is dispatched, put back behind `s3` and dispatched again, while `s3` waits. -/
def sched1Calls : List Call :=
  [.addProc sched1S2, .addProc sched1S3, .getProc, .putProc sched1S2, .getProc]

theorem sched1_not_takesTurns :
    ¬ AllStates TakesTurns Traced.init (traceFn Traced.call Traced.init sched1Calls) := by
  intro h
  -- `s2` entered twice around `s3` and left twice
  have hlast : ∃ x ∈ traceFn Traced.call Traced.init sched1Calls,
      ¬ left (x.2.events ⟨0, by decide⟩) <+: entered (x.2.events ⟨0, by decide⟩) := by
    decide
  rcases hlast with ⟨x, hx, hnot⟩
  exact hnot ((h.2 x hx ⟨0, by decide⟩).1 _ (List.prefix_refl _))

end Sched
end MiniOs
