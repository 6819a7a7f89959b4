import MiniOs.Os.Simulator

/-!
# Arrival — when the loader adds the processes

The loader sleeps slot by slot until the start time of the next process, adds it, and sleeps one
slot more.  So process `i` arrives in slot `max (s i) (t (i - 1) + 1)`, with `t (i - 1)` the arrival
of the one before it, whatever the CPUs and the timer do in between.
-/

namespace MiniOs

open Lib

namespace Config

variable {cfg : Config}

/-- `ld_processes.start_time[i]` -/
def startTime (cfg : Config) (i : Nat) : Nat :=
  (cfg.ldProcesses[i]?.map LdProcess.startTime).getD 0

/-- The slot in which process `i` arrives: its start time, or the slot behind the arrival of the
process before it. -/
def arrival (cfg : Config) : Nat → Nat
  | 0 => cfg.startTime 0
  | i + 1 => max (cfg.startTime (i + 1)) (arrival cfg i + 1)

/-- The first slot in which the loader can add process `i`. -/
def earliest (cfg : Config) : Nat → Nat
  | 0 => 0
  | i + 1 => cfg.arrival i + 1

theorem arrival_eq (cfg : Config) (i : Nat) :
    cfg.arrival i = max (cfg.startTime i) (cfg.earliest i) := by
  cases i with
  | zero => simp [arrival, earliest]
  | succ i => rfl

theorem earliest_le_arrival (cfg : Config) (i : Nat) : cfg.earliest i ≤ cfg.arrival i := by
  rw [arrival_eq]
  exact le_max_right _ _

theorem startTime_le_arrival (cfg : Config) (i : Nat) : cfg.startTime i ≤ cfg.arrival i := by
  rw [arrival_eq]
  exact le_max_left _ _

/-- At most one process arrives in a slot. -/
theorem arrival_strictMono (cfg : Config) : StrictMono cfg.arrival := by
  refine strictMono_nat_of_lt_succ fun i => ?_
  exact Nat.lt_of_lt_of_le (Nat.lt_succ_self _) (le_max_right _ _)

end Config

namespace Simulator

variable {cfg : Config}

/-- The simulator with the calls of `add_proc` so far: the number of the process and the time. -/
structure Arrivals (cfg : Config) where
  sim : Simulator cfg
  added : List (Nat × Nat)

/-- The call of `add_proc` that a step begins, if any. -/
def addCall (s : Simulator cfg) : Action cfg → Option (Nat × Nat)
  | .loader => if s.os.loader.pc = .addRunning then some (s.os.loader.i, s.timer.time) else none
  | _ => none

namespace Arrivals

def init (cfg : Config) : Arrivals cfg := ⟨Simulator.init cfg, []⟩

def exec (h : Arrivals cfg) (a : Action cfg) : Option (Arrivals cfg) :=
  (h.sim.exec a).map fun sim => ⟨sim, h.added ++ (h.sim.addCall a).toList⟩

/-- The first `k` processes at their arrival times, in the order of the configuration. -/
def onTime (cfg : Config) (k : Nat) : List (Nat × Nat) :=
  (List.range k).map fun i => (i, cfg.arrival i)

/-- The processes are added at their arrival times, and the last one before `done` is set. -/
structure OnTime (h : Arrivals cfg) : Prop where
  /-- `add_proc` was called for the first processes, in order and on time -/
  calls : ∃ k ≤ cfg.ldProcesses.length, h.added = onTime cfg k
  /-- no process is late -/
  prompt : ∀ i < cfg.ldProcesses.length, cfg.arrival i < h.sim.timer.time →
    (i, cfg.arrival i) ∈ h.added
  /-- the clock stands still during a call -/
  during : h.sim.os.loader.pc = .addRunning ∨ h.sim.os.loader.pc = .addReady →
    h.sim.timer.time = cfg.arrival h.sim.os.loader.i
  done : h.sim.os.done = true → ∀ i < cfg.ldProcesses.length, cfg.arrival i < h.sim.timer.time

/-! ## The invariant -/

/-- What the loader's program point says about its slot, and about the processes added. -/
def LoaderAt (cfg : Config) (ld : Loader) (dev : Device) (time : Nat) (added : List (Nat × Nat)) :
    Prop :=
  match ld.pc with
  | .loop => ld.i ≤ cfg.ldProcesses.length ∧ dev.slot = cfg.earliest ld.i ∧
      added = onTime cfg ld.i
  | .wait => ld.i < cfg.ldProcesses.length ∧ cfg.earliest ld.i ≤ dev.slot ∧
      dev.slot ≤ cfg.arrival ld.i ∧ added = onTime cfg ld.i
  | .waitSlot => ld.i < cfg.ldProcesses.length ∧ cfg.earliest ld.i ≤ dev.slot ∧
      dev.slot < cfg.arrival ld.i ∧ added = onTime cfg ld.i
  | .addRunning => ld.i < cfg.ldProcesses.length ∧ dev.slot = cfg.arrival ld.i ∧
      dev.pc = .working ∧ added = onTime cfg ld.i
  | .addReady => ld.i < cfg.ldProcesses.length ∧ dev.slot = cfg.arrival ld.i ∧
      dev.pc = .working ∧ added = onTime cfg (ld.i + 1)
  | .slot => ld.i ≤ cfg.ldProcesses.length ∧ dev.slot + 1 = cfg.earliest ld.i ∧
      added = onTime cfg ld.i
  | .finish => ld.i = cfg.ldProcesses.length ∧ dev.slot = cfg.earliest ld.i ∧
      added = onTime cfg ld.i
  | .stopped => ld.i = cfg.ldProcesses.length ∧ cfg.earliest ld.i ≤ time ∧
      added = onTime cfg ld.i

structure Inv (h : Arrivals cfg) : Prop where
  sound : h.sim.Sound
  loader : LoaderAt cfg h.sim.os.loader (h.sim.timer.devList (ldDevice cfg)) h.sim.timer.time
    h.added
  attached : (h.sim.timer.devList (ldDevice cfg)).pc = .detached → h.sim.os.loader.pc = .stopped
  stopped : h.sim.os.done = true → h.sim.os.loader.pc = .stopped

theorem inv_init (cfg : Config) : (init cfg).Inv := by
  refine ⟨sound_init cfg, ?_, ?_, ?_⟩
  · simp [LoaderAt, init, Simulator.init, Os.init, startTimer, attachEvents_apply, Device.slot,
      Config.earliest, onTime]
  · simp [init, Simulator.init, startTimer, attachEvents_apply]
  · simp [init, Simulator.init, Os.init]

/-- A move of the others leaves the loader where it is: its slot stays, and the clock does not go
back. -/
theorem LoaderAt.mono {ld : Loader} {dev dev' : Device} {time time' : Nat}
    {added : List (Nat × Nat)} (h : LoaderAt cfg ld dev time added) (hslot : dev'.slot = dev.slot)
    (hwork : dev.pc = .working → dev'.pc = .working) (htime : time ≤ time') :
    LoaderAt cfg ld dev' time' added := by
  unfold LoaderAt at h ⊢
  cases hpc : ld.pc with
  | addRunning =>
      simp only [hpc] at h ⊢
      exact ⟨h.1, hslot ▸ h.2.1, hwork h.2.2.1, h.2.2.2⟩
  | addReady =>
      simp only [hpc] at h ⊢
      exact ⟨h.1, hslot ▸ h.2.1, hwork h.2.2.1, h.2.2.2⟩
  | stopped =>
      simp only [hpc] at h ⊢
      exact ⟨h.1, h.2.1.trans htime, h.2.2⟩
  | _ =>
      simp only [hpc, hslot] at h ⊢
      exact h

theorem onTime_succ (cfg : Config) (k : Nat) :
    onTime cfg (k + 1) = onTime cfg k ++ [(k, cfg.arrival k)] := by
  simp [onTime, List.range_succ]

theorem procs_length (cfg : Config) : cfg.procs.length = cfg.ldProcesses.length := by
  simp [Config.procs]

/-- The loader's program point and number after its own step, at time `time`. -/
theorem loaderStep_loader (s : Os cfg) :
    s.loaderStep.loader =
      match s.loader.pc with
      | .loop => ⟨if s.loader.i < cfg.ldProcesses.length then .wait else .finish, s.loader.i⟩
      | .wait =>
          if s.loader.i < cfg.ldProcesses.length then
            ⟨if s.time < cfg.startTime s.loader.i then .waitSlot else .addRunning, s.loader.i⟩
          else s.loader
      | .waitSlot => ⟨.wait, s.loader.i⟩
      | .addRunning =>
          if s.loader.i < cfg.ldProcesses.length then ⟨.addReady, s.loader.i⟩ else s.loader
      | .addReady =>
          if s.loader.i < cfg.ldProcesses.length then ⟨.slot, s.loader.i + 1⟩ else s.loader
      | .slot => ⟨.loop, s.loader.i⟩
      | .finish => ⟨.stopped, s.loader.i⟩
      | .stopped => s.loader := by
  have hprocs : ∀ i, cfg.procs[i]? = cfg.ldProcesses[i]?.map (cfg.load i) := by
    intro i
    simp [Config.procs]
  cases hpc : s.loader.pc with
  | loop =>
      simp only [Os.loaderStep, hpc, procs_length]
      split <;> rfl
  | wait =>
      by_cases hi : s.loader.i < cfg.ldProcesses.length
      · have hget := List.getElem?_eq_getElem hi
        simp only [Os.loaderStep, hpc, hget, hi, if_true, Config.startTime, Option.map_some,
          Option.getD_some]
        split <;> rfl
      · have hget := List.getElem?_eq_none (not_lt.1 hi)
        simp only [Os.loaderStep, hpc, hget, hi, if_false]
  | addRunning | addReady =>
      by_cases hi : s.loader.i < cfg.ldProcesses.length
      · simp only [Os.loaderStep, hpc, hprocs, List.getElem?_eq_getElem hi, hi, if_true,
          Option.map_some]
        rfl
      · simp only [Os.loaderStep, hpc, hprocs, List.getElem?_eq_none (not_lt.1 hi), hi, if_false,
          Option.map_none]
  | _ => simp only [Os.loaderStep, hpc] <;> rfl

/-- Step lemma: the number of the process changes behind `add_proc` only, and the slot of the
loader's device in `next_slot`. -/
theorem LoaderAt.step {s : Os cfg} {dev dev' : Device} {added : List (Nat × Nat)}
    (h : LoaderAt cfg s.loader dev s.time added) (htime : s.time = dev.slot)
    (hslot' : dev'.slot = if ldCall s.loader.pc = .nextSlot then dev.slot + 1 else dev.slot)
    (hwork : ldCall s.loader.pc = .none → dev'.pc = .working) :
    LoaderAt cfg s.loaderStep.loader dev' s.time
      (added ++
        (if s.loader.pc = .addRunning then some (s.loader.i, s.time) else none).toList) := by
  have hld := loaderStep_loader s
  cases hpc : s.loader.pc with
  | loop =>
      simp only [LoaderAt, hpc] at h
      rcases h with ⟨hle, hslot, hadded⟩
      have hearliest := cfg.earliest_le_arrival s.loader.i
      by_cases hi : s.loader.i < cfg.ldProcesses.length
      · simp only [hpc, hi, if_true] at hld
        simp [LoaderAt, hld, hi, hslot', hpc, ldCall, hslot, hadded, hearliest]
      · simp only [hpc, hi, if_false] at hld
        have heq : s.loader.i = cfg.ldProcesses.length := by omega
        simp [LoaderAt, hld, hslot', hpc, ldCall, hslot, hadded, heq]
  | wait =>
      simp only [LoaderAt, hpc] at h
      rcases h with ⟨hi, hlow, hhigh, hadded⟩
      have harr := cfg.arrival_eq s.loader.i
      simp only [hpc, hi, if_true, htime] at hld
      -- the test tells whether the arrival time has come
      by_cases hearly : dev.slot < cfg.startTime s.loader.i
      · simp only [hearly, if_true] at hld
        have hlt : dev.slot < cfg.arrival s.loader.i := by omega
        simp [LoaderAt, hld, hi, hslot', hpc, ldCall, hlow, hlt, hadded]
      · simp only [hearly, if_false] at hld
        have heq : dev.slot = cfg.arrival s.loader.i := by omega
        simp [LoaderAt, hld, hi, hslot', hpc, ldCall, heq, hadded, hwork (by rw [hpc]; rfl)]
  | waitSlot =>
      simp only [LoaderAt, hpc] at h
      rcases h with ⟨hi, hlow, hhigh, hadded⟩
      simp only [hpc] at hld
      have hlow' : cfg.earliest s.loader.i ≤ dev.slot + 1 := by omega
      simp [LoaderAt, hld, hi, hslot', hpc, ldCall, hlow', hadded, Nat.succ_le_of_lt hhigh]
  | addRunning =>
      simp only [LoaderAt, hpc] at h
      rcases h with ⟨hi, hslot, _, hadded⟩
      simp only [hpc, hi, if_true] at hld
      -- the call is noted with the time the clock shows
      simp [LoaderAt, hld, hi, hslot', hpc, ldCall, hslot, hadded, hwork (by rw [hpc]; rfl),
        onTime_succ, htime]
  | addReady =>
      simp only [LoaderAt, hpc] at h
      rcases h with ⟨hi, hslot, _, hadded⟩
      simp only [hpc, hi, if_true] at hld
      have hle : s.loader.i + 1 ≤ cfg.ldProcesses.length := hi
      simp [LoaderAt, hld, hle, hslot', hpc, ldCall, hslot, hadded, Config.earliest]
  | slot =>
      simp only [LoaderAt, hpc] at h
      rcases h with ⟨hi, hlast, hadded⟩
      simp only [hpc] at hld
      simp [LoaderAt, hld, hi, hslot', hpc, ldCall, hlast, hadded]
  | finish =>
      simp only [LoaderAt, hpc] at h
      rcases h with ⟨hi, hslot, hadded⟩
      simp only [hpc] at hld
      have hle : cfg.earliest s.loader.i ≤ s.time := by rw [htime, hslot]
      simp [LoaderAt, hld, hadded, hi, hi ▸ hle]
  | stopped =>
      simp only [LoaderAt, hpc] at h
      simp only [hpc] at hld
      simpa [LoaderAt, hld, hpc] using h

/-- A step of the loader itself. -/
theorem Inv.loaderStep {h h' : Arrivals cfg} (hinv : h.Inv) (hexec : h.exec .loader = some h') :
    h'.Inv := by
  rcases Option.map_eq_some_iff.1 hexec with ⟨⟨os, timer⟩, hsim, rfl⟩
  have hsound := hinv.sound.exec hsim
  rcases move_eq hsim with ⟨hwork, hcall, hos⟩
  have htime := hinv.sound.inv.time_eq_slot hwork
  have hclock := hinv.sound.clock
  obtain rfl : os = h.sim.os.loaderStep := hos
  dsimp only at hcall
  -- only a stopped loader detaches its device
  have hattached : (timer.devList (ldDevice cfg)).pc = .detached →
      h.sim.os.loader.pc = .stopped := by
    intro hdetached
    cases hr : ldCall h.sim.os.loader.pc with
    | none =>
        rw [hr] at hcall
        rw [← Option.some.inj hcall, hwork] at hdetached
        cases hdetached
    | nextSlot =>
        rw [hr] at hcall
        rw [(Timer.nextSlot_devList hcall).2.1] at hdetached
        cases hdetached
    | detachEvent =>
        revert hr
        cases h.sim.os.loader.pc <;> simp [ldCall]
  refine ⟨hsound, ?_, fun hdetached => ?_, h.sim.os.loaderStep_move.stopped hinv.stopped⟩
  · have hat := hinv.loader
    rw [← hclock] at hat
    have hstep := hat.step (hclock.trans htime) (call_slot hcall) fun hnone => ?_
    · simpa only [addCall, call_time hcall, hclock] using hstep
    · rw [hnone] at hcall
      rw [← Option.some.inj hcall, hwork]
  · simp [loaderStep_loader, hattached hdetached]

/-- A step of somebody else. -/
theorem Inv.otherStep {h h' : Arrivals cfg} {a : Action cfg} (hinv : h.Inv) (ha : a ≠ .loader)
    (hexec : h.exec a = some h') : h'.Inv := by
  rcases Option.map_eq_some_iff.1 hexec with ⟨sim, hsim, rfl⟩
  have hsound := hinv.sound.exec hsim
  have hnoCall : h.sim.addCall a = none := by
    cases a with
    | loader => exact absurd rfl ha
    | _ => rfl
  -- the loader's variables do not change, and the others do not touch its device
  have hsame : sim.os.loader = h.sim.os.loader ∧ sim.os.done = h.sim.os.done := by
    cases exec_kind hsim with
    | timer _ _ _ _ _ hos =>
        rw [hos]
        exact ⟨rfl, rfl⟩
    | cpu c _ _ _ hos =>
        rw [hos]
        rcases (h.sim.os.cpuStep_move c).frame with ⟨hdone, hloader, _⟩
        exact ⟨hloader, hdone⟩
    | loader hl => exact absurd hl ha
    | kill b hb hos =>
        rcases Os.act_kill hb hos with ⟨sched, heq, _⟩
        rw [heq]
        exact ⟨rfl, rfl⟩
  have hdevice := exec_device hsim (d := ldDevice cfg) (fun c _ => (cpuDevice_ne_ldDevice c).symm)
    (fun hl => absurd hl ha)
  refine ⟨hsound, ?_, ?_, ?_⟩
  · simp only [hnoCall, Option.toList_none, List.append_nil, hsame.1]
    exact hinv.loader.mono hdevice.slot hdevice.working (exec_time_le hsim)
  · rw [hsame.1]
    exact fun hdet => hinv.attached (hdevice.detached.1 hdet)
  · rw [hsame.1, hsame.2]
    exact hinv.stopped

theorem Inv.exec {h h' : Arrivals cfg} {a : Action cfg} (hinv : h.Inv)
    (hexec : h.exec a = some h') : h'.Inv := by
  by_cases ha : a = .loader
  · subst ha
    exact hinv.loaderStep hexec
  · exact hinv.otherStep ha hexec

/-! ## The arrival times -/

theorem mem_onTime {k i : Nat} (h : i < k) : (i, cfg.arrival i) ∈ onTime cfg k := by
  simpa [onTime] using h

/-- All processes up to number `k` have been added, and the next one is not late. -/
theorem Inv.progress {h : Arrivals cfg} (hinv : h.Inv) :
    ∃ k ≤ cfg.ldProcesses.length, h.added = onTime cfg k ∧
      (k < cfg.ldProcesses.length → h.sim.timer.time ≤ cfg.arrival k) := by
  have hat := hinv.loader
  have hearliest := cfg.earliest_le_arrival h.sim.os.loader.i
  -- the clock is not ahead of a loader that has not stopped
  have hslot : h.sim.os.loader.pc ≠ .stopped →
      h.sim.timer.time ≤ (h.sim.timer.devList (ldDevice cfg)).slot :=
    fun hpc => hinv.sound.inv.time_le_slot fun hdet => hpc (hinv.attached hdet)
  cases hpc : h.sim.os.loader.pc with
  | loop =>
      simp only [LoaderAt, hpc] at hat
      have hle := hslot (by simp [hpc])
      exact ⟨_, hat.1, hat.2.2, fun _ => by omega⟩
  | wait | waitSlot | addRunning =>
      simp only [LoaderAt, hpc] at hat
      have hle := hslot (by simp [hpc])
      exact ⟨_, hat.1.le, hat.2.2.2, fun _ => by omega⟩
  | addReady =>
      simp only [LoaderAt, hpc] at hat
      have hle := hslot (by simp [hpc])
      have hnext := cfg.arrival_strictMono (Nat.lt_succ_self h.sim.os.loader.i)
      exact ⟨_, hat.1, hat.2.2.2, fun _ => by omega⟩
  | slot =>
      simp only [LoaderAt, hpc] at hat
      have hle := hslot (by simp [hpc])
      exact ⟨_, hat.1, hat.2.2, fun _ => by omega⟩
  | finish =>
      simp only [LoaderAt, hpc] at hat
      exact ⟨_, hat.1.le, hat.2.2, fun hlt => by omega⟩
  | stopped =>
      simp only [LoaderAt, hpc] at hat
      exact ⟨_, hat.1.le, hat.2.2, fun hlt => by omega⟩

theorem Inv.onTime {h : Arrivals cfg} (hinv : h.Inv) : h.OnTime := by
  rcases hinv.progress with ⟨k, hk, hadded, hnext⟩
  refine ⟨⟨k, hk, hadded⟩, fun i hi hlate => ?_, fun hpc => ?_, fun hdone i hi => ?_⟩
  · rw [hadded]
    refine mem_onTime ?_
    -- were it still to come, its arrival time would not be over
    by_contra hik
    have hmono := cfg.arrival_strictMono.monotone (not_lt.1 hik)
    have := hnext (by omega)
    omega
  · have hat := hinv.loader
    rcases hpc with hpc | hpc
    · simp only [LoaderAt, hpc] at hat
      rw [hinv.sound.inv.time_eq_slot hat.2.2.1, hat.2.1]
    · simp only [LoaderAt, hpc] at hat
      rw [hinv.sound.inv.time_eq_slot hat.2.2.1, hat.2.1]
  · have hat := hinv.loader
    simp only [LoaderAt, hinv.stopped hdone] at hat
    rcases hat with ⟨hlast, hle, _⟩
    -- the last process arrived a slot before the loader stopped
    obtain ⟨m, hm⟩ := Nat.exists_eq_succ_of_ne_zero (show h.sim.os.loader.i ≠ 0 by omega)
    have hmono := cfg.arrival_strictMono.monotone (show i ≤ m by omega)
    rw [hm] at hle
    simp only [Config.earliest] at hle
    omega

/-- For every configuration and every interleaving of the threads, the timer and the passes of
`killall`: process `i` is added in slot `t i`, with `t 0` its start time and `t (i + 1)` the later
of its start time and the slot behind `t i`. -/
theorem arrival_times (cfg : Config) (as : List (Action cfg)) :
    AllStates OnTime (init cfg) (traceFn exec (init cfg) as) ∧ StrictMono cfg.arrival ∧
      ∀ i, cfg.startTime i ≤ cfg.arrival i := by
  rcases run_traceFn exec (init cfg) as with ⟨t, hrun⟩
  have hinv := hrun.allStates (I := Inv) (fun h hexec => h.exec hexec) (inv_init cfg)
  exact ⟨⟨hinv.1.onTime, fun x hx => (hinv.2 x hx).onTime⟩, cfg.arrival_strictMono,
    cfg.startTime_le_arrival⟩

end Arrivals
end Simulator
end MiniOs
