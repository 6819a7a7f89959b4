import MiniOs.Os.OnePlace
import MiniOs.Timer.Slots

/-!
# Simulator — the threads of `os.c` on the barrier of `timer.c`

`main` attaches one device of the timer for every CPU and one for the loader.  A thread moves only
while its device is at work, so it stands still inside `next_slot`; the timer moves the clock.  A
run of the simulator is a run of the threads and a run of the timer at once, so that what holds of
either holds here.
-/

namespace MiniOs

open Lib

/-- The threads with the timer. -/
structure Simulator (cfg : Config) where
  os : Os cfg
  timer : Timer (cfg.numCpus + 1)

namespace Simulator

variable {cfg : Config}

/-! ## Steps -/

/-- The device attached for CPU `c`. -/
def cpuDevice (c : Fin cfg.numCpus) : Fin (cfg.numCpus + 1) := c.castSucc

/-- `ld_event` -/
def ldDevice (cfg : Config) : Fin (cfg.numCpus + 1) := Fin.last cfg.numCpus

/-- After `attach_event`, `start_timer` and `init_scheduler`. -/
def init (cfg : Config) : Simulator cfg := ⟨Os.init cfg, startTimer _⟩

/-- What a thread calls on its device in the step it makes next. -/
inductive Call
  | none
  | nextSlot
  | detachEvent
  deriving DecidableEq

/-- `next_slot` at the end of an iteration, and `detach_event` behind the `break`. -/
def cpuCall : CpuPc → Call
  | .slot _ => .nextSlot
  | .stopped => .detachEvent
  | _ => .none

def ldCall : LdPc → Call
  | .waitSlot | .slot => .nextSlot
  | .stopped => .detachEvent
  | _ => .none

def call (t : Timer (cfg.numCpus + 1)) (d : Fin (cfg.numCpus + 1)) :
    Call → Option (Timer (cfg.numCpus + 1))
  | .none => some t
  | .nextSlot => t.nextSlot d
  | .detachEvent => t.detachEvent d

/-- The owner of device `d` makes a step, which takes the threads to `os`. -/
def move (s : Simulator cfg) (d : Fin (cfg.numCpus + 1)) (r : Call) (os : Os cfg) :
    Option (Simulator cfg) :=
  if (s.timer.devList d).pc = .working then (call s.timer d r).map fun timer => ⟨os, timer⟩
  else none

/-- A section of the timer or of a thread inside `next_slot`, or a step of a thread; a CPU inside
`__sys_killall` may also make one of its passes. -/
inductive Action (cfg : Config)
  | timer (a : Timer.Action (cfg.numCpus + 1))
  | cpu (c : Fin cfg.numCpus)
  | loader
  | killRunning (c : Fin cfg.numCpus) (targetName : CString)
  | killReady (c : Fin cfg.numCpus) (targetName : CString)

def exec (s : Simulator cfg) : Action cfg → Option (Simulator cfg)
  -- these calls are part of the steps of their owners
  | .timer (.nextSlot _) | .timer (.detachEvent _) => none
  | .timer a => (s.timer.step a).map fun timer => ⟨{ s.os with time := timer.time }, timer⟩
  | .cpu c => s.move (cpuDevice c) (cpuCall (s.os.cpus c).pc) (s.os.step (.cpu c))
  | .loader => s.move (ldDevice cfg) (ldCall s.os.loader.pc) (s.os.step .loader)
  | .killRunning c targetName =>
      (s.os.act (.killRunning c targetName)).bind fun os => s.move (cpuDevice c) .none os
  | .killReady c targetName =>
      (s.os.act (.killReady c targetName)).bind fun os => s.move (cpuDevice c) .none os

theorem cpuDevice_ne_ldDevice (c : Fin cfg.numCpus) : cpuDevice c ≠ ldDevice cfg :=
  (Fin.castSucc_lt_last c).ne

theorem cpuDevice_injective {c d : Fin cfg.numCpus} (h : cpuDevice c = cpuDevice d) : c = d :=
  Fin.castSucc_injective _ h

/-! ## What a step does to the two parts -/

/-- The call of a thread, as a step of the timer. -/
theorem call_step {t t' : Timer (cfg.numCpus + 1)} {d : Fin (cfg.numCpus + 1)} {r : Call}
    (h : call t d r = some t') :
    t' = t ∨ (r = .nextSlot ∧ t.step (.nextSlot d) = some t') ∨
      (r = .detachEvent ∧ t.step (.detachEvent d) = some t') := by
  cases r with
  | none => exact Or.inl (Option.some.inj h).symm
  | nextSlot => exact Or.inr (Or.inl ⟨rfl, h⟩)
  | detachEvent => exact Or.inr (Or.inr ⟨rfl, h⟩)

/-- The steps, with the part that the timer takes in each. -/
inductive StepKind (s : Simulator cfg) (a : Action cfg) (s' : Simulator cfg) : Prop
  | timer (b : Timer.Action (cfg.numCpus + 1)) (ha : a = .timer b)
      (hnext : ∀ d, b ≠ .nextSlot d) (hdetach : ∀ d, b ≠ .detachEvent d)
      (htimer : s.timer.step b = some s'.timer)
      (hos : s'.os = { s.os with time := s'.timer.time })
  | cpu (c : Fin cfg.numCpus) (ha : a = .cpu c)
      (hwork : (s.timer.devList (cpuDevice c)).pc = .working)
      (hcall : call s.timer (cpuDevice c) (cpuCall (s.os.cpus c).pc) = some s'.timer)
      (hos : s'.os = s.os.step (.cpu c))
  | loader (ha : a = .loader) (hwork : (s.timer.devList (ldDevice cfg)).pc = .working)
      (hcall : call s.timer (ldDevice cfg) (ldCall s.os.loader.pc) = some s'.timer)
      (hos : s'.os = s.os.step .loader)
  | kill (b : Os.Action cfg) (ha : ∃ c name, b = .killRunning c name ∨ b = .killReady c name)
      (hos : s.os.act b = some s'.os) (htimer : s'.timer = s.timer)

theorem move_eq {s s' : Simulator cfg} {d : Fin (cfg.numCpus + 1)} {r : Call} {os : Os cfg}
    (h : s.move d r os = some s') :
    (s.timer.devList d).pc = .working ∧ call s.timer d r = some s'.timer ∧ s'.os = os := by
  unfold move at h
  split at h
  · rename_i hwork
    rcases Option.map_eq_some_iff.1 h with ⟨timer, hcall, rfl⟩
    exact ⟨hwork, hcall, rfl⟩
  · cases h

theorem exec_kind {s s' : Simulator cfg} {a : Action cfg} (h : s.exec a = some s') :
    StepKind s a s' := by
  cases a with
  | timer b =>
      cases b with
      | nextSlot d => cases h
      | detachEvent d => cases h
      | _ =>
          rcases Option.map_eq_some_iff.1 h with ⟨timer, hstep, rfl⟩
          exact .timer _ rfl (by simp) (by simp) hstep rfl
  | cpu c =>
      rcases move_eq h with ⟨hwork, hcall, hos⟩
      exact .cpu c rfl hwork hcall hos
  | loader =>
      rcases move_eq h with ⟨hwork, hcall, hos⟩
      exact .loader rfl hwork hcall hos
  | killRunning c targetName =>
      rcases Option.bind_eq_some_iff.1 h with ⟨os, hact, hmove⟩
      rcases move_eq hmove with ⟨_, hcall, hos⟩
      exact .kill _ ⟨c, targetName, Or.inl rfl⟩ (hos ▸ hact) (Option.some.inj hcall).symm
  | killReady c targetName =>
      rcases Option.bind_eq_some_iff.1 h with ⟨os, hact, hmove⟩
      rcases move_eq hmove with ⟨_, hcall, hos⟩
      exact .kill _ ⟨c, targetName, Or.inr rfl⟩ (hos ▸ hact) (Option.some.inj hcall).symm

/-- A step of the simulator is a step of the timer, or leaves it alone. -/
theorem exec_timer {s s' : Simulator cfg} {a : Action cfg} (h : s.exec a = some s') :
    s'.timer = s.timer ∨ ∃ b, s.timer.step b = some s'.timer := by
  cases exec_kind h with
  | timer b _ _ _ htimer => exact Or.inr ⟨b, htimer⟩
  | cpu c _ _ hcall =>
      rcases call_step hcall with heq | ⟨_, hstep⟩ | ⟨_, hstep⟩
      · exact Or.inl heq
      · exact Or.inr ⟨_, hstep⟩
      · exact Or.inr ⟨_, hstep⟩
  | loader _ _ hcall =>
      rcases call_step hcall with heq | ⟨_, hstep⟩ | ⟨_, hstep⟩
      · exact Or.inl heq
      · exact Or.inr ⟨_, hstep⟩
      · exact Or.inr ⟨_, hstep⟩
  | kill _ _ _ htimer => exact Or.inl htimer

/-- What a step of somebody else leaves of a device: its slot, and whether it is at work or
detached. -/
structure DeviceKept (dev dev' : Device) : Prop where
  slot : dev'.slot = dev.slot
  working : dev.pc = .working → dev'.pc = .working
  detached : dev'.pc = .detached ↔ dev.pc = .detached

/-- A thread does not touch the devices of the others. -/
theorem exec_device {s s' : Simulator cfg} {a : Action cfg} {d : Fin (cfg.numCpus + 1)}
    (h : s.exec a = some s') (hcpu : ∀ c, a = .cpu c → d ≠ cpuDevice c)
    (hld : a = .loader → d ≠ ldDevice cfg) :
    DeviceKept (s.timer.devList d) (s'.timer.devList d) := by
  have hkept : ∀ {b : Timer.Action (cfg.numCpus + 1)}, s.timer.step b = some s'.timer →
      b ≠ .nextSlot d → b ≠ .detachEvent d →
      DeviceKept (s.timer.devList d) (s'.timer.devList d) := by
    intro b hstep hnext hdetach
    rcases Timer.step_slot hstep hnext hdetach with ⟨hslot, hdetached⟩
    exact ⟨hslot, fun hwork => (Timer.working_step hstep hwork hnext hdetach).1, hdetached⟩
  have hcalled : ∀ {e : Fin (cfg.numCpus + 1)} {r : Call}, call s.timer e r = some s'.timer →
      d ≠ e → DeviceKept (s.timer.devList d) (s'.timer.devList d) := by
    intro e r hcall hne
    rcases call_step hcall with heq | ⟨_, hstep⟩ | ⟨_, hstep⟩
    · rw [heq]
      exact ⟨rfl, id, Iff.rfl⟩
    · exact hkept hstep (by simp [hne.symm]) (by simp)
    · exact hkept hstep (by simp) (by simp [hne.symm])
  cases exec_kind h with
  | timer b _ hnext hdetach hstep => exact hkept hstep (hnext d) (hdetach d)
  | cpu c ha _ hcall => exact hcalled hcall (hcpu c ha)
  | loader ha _ hcall => exact hcalled hcall (hld ha)
  | kill _ _ _ htimer =>
      rw [htimer]
      exact ⟨rfl, id, Iff.rfl⟩

theorem exec_time_le {s s' : Simulator cfg} {a : Action cfg} (h : s.exec a = some s') :
    s.timer.time ≤ s'.timer.time := by
  rcases exec_timer h with heq | ⟨b, hstep⟩
  · rw [heq]
  · exact Timer.step_time_le hstep

/-- The threads never set the clock. -/
theorem act_time {s s' : Os cfg} {a : Os.Action cfg} (h : s.act a = some s')
    (ha : a ≠ .thread .timer) : s'.time = s.time := by
  cases a with
  | thread t =>
      obtain rfl : s.step t = s' := by simpa [Os.act] using h
      cases t with
      | timer => exact absurd rfl ha
      | cpu c => exact (s.cpuStep_move c).frame.2.2
      | loader => exact s.loaderStep_move.frame.2.2
  | killRunning c name =>
      rcases Os.act_kill ⟨c, name, Or.inl rfl⟩ h with ⟨sched, rfl, _⟩
      rfl
  | killReady c name =>
      rcases Os.act_kill ⟨c, name, Or.inr rfl⟩ h with ⟨sched, rfl, _⟩
      rfl

/-- The timer works by its own rules, and the threads read its clock. -/
structure Sound (s : Simulator cfg) : Prop where
  inv : s.timer.Inv
  clock : s.os.time = s.timer.time

theorem sound_init (cfg : Config) : (init cfg).Sound :=
  ⟨Timer.inv_startTimer _, rfl⟩

/-- The calls of a thread do not move the clock. -/
theorem call_time {t t' : Timer (cfg.numCpus + 1)} {d : Fin (cfg.numCpus + 1)} {r : Call}
    (h : call t d r = some t') : t'.time = t.time := by
  cases r with
  | none => exact congrArg Timer.time (Option.some.inj h).symm
  | nextSlot => exact (Timer.nextSlot_devList h).2.2
  | detachEvent =>
      simp only [call, Timer.detachEvent] at h
      split at h
      · obtain rfl := Option.some.inj h
        exact Timer.signalEvent_time _ d
      · cases h

/-- A thread is in the next slot behind `next_slot` only. -/
theorem call_slot {t t' : Timer (cfg.numCpus + 1)} {d : Fin (cfg.numCpus + 1)} {r : Call}
    (h : call t d r = some t') :
    (t'.devList d).slot =
      if r = .nextSlot then (t.devList d).slot + 1 else (t.devList d).slot := by
  cases r with
  | none => rw [← Option.some.inj h]; rfl
  | nextSlot => exact (Timer.nextSlot_devList h).1
  | detachEvent =>
      simp only [call, Timer.detachEvent] at h
      split at h
      · rename_i hpc
        obtain rfl := Option.some.inj h
        simp [Device.slot, Timer.setDev, hpc]
      · cases h

theorem Sound.exec {s s' : Simulator cfg} {a : Action cfg} (h : s.Sound)
    (hexec : s.exec a = some s') : s'.Sound := by
  have hinv : s'.timer.Inv := by
    rcases exec_timer hexec with heq | ⟨b, hstep⟩
    · exact heq ▸ h.inv
    · exact h.inv.step hstep
  refine ⟨hinv, ?_⟩
  cases exec_kind hexec with
  | timer _ _ _ _ _ hos => rw [hos]
  | cpu c _ _ hcall hos =>
      have htime : (s.os.step (.cpu c)).time = s.os.time :=
        act_time (a := .thread (.cpu c)) rfl (by simp)
      rw [hos, htime, call_time hcall, h.clock]
  | loader _ _ hcall hos =>
      have htime : (s.os.step .loader).time = s.os.time :=
        act_time (a := .thread .loader) rfl (by simp)
      rw [hos, htime, call_time hcall, h.clock]
  | kill b ha hos htimer =>
      have hne : b ≠ .thread .timer := by
        rcases ha with ⟨c, name, rfl | rfl⟩ <;> simp
      rw [act_time hos hne, htimer, h.clock]

/-- Refinement: a step of the simulator is an action of the threads, or none of theirs. -/
theorem exec_os {s s' : Simulator cfg} {a : Action cfg} (h : s.Sound)
    (hexec : s.exec a = some s') : s'.os = s.os ∨ ∃ b, s.os.act b = some s'.os := by
  cases exec_kind hexec with
  | timer b _ _ _ htimer hos =>
      -- the clock stands still or ticks
      rcases Timer.step_time htimer with heq | htick
      · rw [heq, ← h.clock] at hos
        exact Or.inl hos
      · rw [htick, ← h.clock] at hos
        exact Or.inr ⟨.thread .timer, by rw [hos]; rfl⟩
  | cpu c _ _ _ hos => exact Or.inr ⟨.thread (.cpu c), by rw [hos]; rfl⟩
  | loader _ _ _ hos => exact Or.inr ⟨.thread .loader, by rw [hos]; rfl⟩
  | kill b _ hos => exact Or.inr ⟨b, hos⟩

/-- What every action of the threads preserves holds in every state of the simulator. -/
theorem allStates_os {I : Os cfg → Prop} (hpres : ∀ {s a s'}, I s → Os.act s a = some s' → I s')
    (h₀ : I (Os.init cfg)) (as : List (Action cfg)) :
    AllStates (fun s => I s.os) (init cfg) (traceFn exec (init cfg) as) := by
  rcases run_traceFn exec (init cfg) as with ⟨t, hrun⟩
  have hboth := hrun.allStates (I := fun s => s.Sound ∧ I s.os) ?_ ⟨sound_init cfg, h₀⟩
  · exact (allStates_and.1 hboth).2
  · rintro s a s' ⟨hsound, hI⟩ hexec
    refine ⟨hsound.exec hexec, ?_⟩
    rcases exec_os hsound hexec with heq | ⟨b, hact⟩
    · exact heq ▸ hI
    · exact hpres hI hact

end Simulator
end MiniOs
