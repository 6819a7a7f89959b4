import MiniOs.Sched.Sched

/-!
# Priority — which level `get_proc` serves

A smaller `prio` is the more urgent level: `slot[i] = MAX_PRIO - i` gives it the larger share,
and in the expected runs a `PRIO 0` process displaces a `PRIO 4` one.  `get_mlq_proc` scans the
levels from `MAX_PRIO - 1` down to `0`, so it serves the *least* urgent nonempty level.  This
file pins down when the two orders agree.
-/

namespace MiniOs
namespace Sched

/-- What `get_proc` should do in `s`: return a process of smallest `prio` among all that wait,
and `NULL` only when every level is empty. -/
def UrgentFirst (s : Sched) : Prop :=
  match s.getProc with
  | none => ∀ k, s.level k = []
  | some (p, _) => ∀ q, s.Waiting q → p.prio ≤ q.prio

/-- All waiting processes have one and the same `prio`. -/
def OneLevel (s : Sched) : Prop := ∀ p q, s.Waiting p → s.Waiting q → p.prio = q.prio

/-- `get_proc` returns a waiting process of greatest `prio`. -/
theorem getProc_greatest {s s' : Sched} {p : Pcb} (h : s.LevelsByPrio)
    (hget : s.getProc = some (p, s')) :
    s.Waiting p ∧ ∀ q, s.Waiting q → q.prio ≤ p.prio := by
  rcases getProc_spec hget with ⟨k, _, pre, post, _, _, _, hlevel, _, habove⟩
  have hp : p ∈ s.level k := by simp [hlevel]
  refine ⟨⟨k, hp⟩, ?_⟩
  rintro q ⟨j, hq⟩
  -- the levels above the served one are empty
  have hjk : j ≤ k := by
    by_contra hlt
    rw [habove j (not_le.1 hlt)] at hq
    cases hq
  rw [h k p hp, h j q hq]
  exact hjk

theorem urgentFirst_iff_oneLevel {s : Sched} (h : s.LevelsByPrio) :
    s.UrgentFirst ↔ s.OneLevel := by
  cases hget : s.getProc with
  | none =>
      have hempty := getProc_eq_none_iff.1 hget
      simp only [UrgentFirst, hget]
      refine ⟨fun _ p _ hp => ?_, fun _ => hempty⟩
      rcases hp with ⟨k, hk⟩
      rw [hempty k] at hk
      cases hk
  | some r =>
      rcases r with ⟨p, s'⟩
      rcases getProc_greatest h hget with ⟨hwait, hgreatest⟩
      simp only [UrgentFirst, hget]
      -- the process returned has both the greatest and the smallest `prio` that waits
      constructor
      · intro hleast q r hq hr
        have hq' : q.prio = p.prio := le_antisymm (hgreatest q hq) (hleast q hq)
        have hr' : p.prio = r.prio := le_antisymm (hleast r hr) (hgreatest r hr)
        calc
          q.prio = p.prio := hq'
          _ = r.prio := hr'
      · intro hone q hq
        exact (hone p q hwait hq).le

/-- In every state reached from `init_scheduler` by `add_proc`, `put_proc` and `get_proc`
calls, the next `get_proc` respects urgency exactly when all waiting processes sit in one
level. -/
theorem getProc_urgentFirst_iff (cs : List Call) :
    (initScheduler.calls cs).UrgentFirst ↔ (initScheduler.calls cs).OneLevel :=
  urgentFirst_iff_oneLevel (calls_levelsByPrio levelsByPrio_init cs)

/-- The two processes of `input/sched_0`: `s0` with `PRIO 4` and `s1` with `PRIO 0`. -/
def sched0 : List Pcb :=
  [{ pid := 1, priority := 12, path := ascii "input/proc/s0", code := [], prio := 4 },
   { pid := 2, priority := 20, path := ascii "input/proc/s1", code := [], prio := 0 }]

/-- With both processes of `input/sched_0` waiting, `get_proc` returns the `PRIO 4` one. -/
theorem sched0_not_urgentFirst :
    ¬ (initScheduler.calls (sched0.map Call.addProc)).UrgentFirst := by
  intro h
  -- the two wait in different levels, 4 and 0
  have hone := (urgentFirst_iff_oneLevel (calls_levelsByPrio levelsByPrio_init _)).1 h
  have h₀ : (initScheduler.calls (sched0.map Call.addProc)).Waiting sched0[0] :=
    ⟨⟨4, by decide⟩, by decide⟩
  have h₁ : (initScheduler.calls (sched0.map Call.addProc)).Waiting sched0[1] :=
    ⟨⟨0, by decide⟩, by decide⟩
  exact absurd (hone _ _ h₀ h₁) (by decide)

end Sched
end MiniOs
