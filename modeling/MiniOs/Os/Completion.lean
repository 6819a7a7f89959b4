import MiniOs.Os.Arrival
import MiniOs.Os.NoneLost
import MiniOs.Os.Quantum

/-!
# Completion — no CPU leaves while there is work

A CPU leaves its loop when `get_proc` has returned `NULL` and `done` is set, and it looks at `done`
later than at the levels.  Between the two looks the loader could have added a process and set
`done`.  It cannot: `done` is set a slot behind the last `add_proc`, and the barrier lets no CPU
into that slot before all have called `next_slot`.  So a process that waits when all have been
added is always going to be looked for (`Looked`).
-/

namespace MiniOs

open Lib

namespace Config

/-- The first slot behind all arrivals. -/
def closing (cfg : Config) : Nat := cfg.earliest cfg.ldProcesses.length

end Config

namespace Simulator

variable {cfg : Config}

/-! ## Threads and devices -/

/-- What the program point of a CPU tells about its device and about `done`. -/
structure CpuLinked (cpu : Cpu) (dev : Device) (done : Bool) : Prop where
  /-- inside `next_slot`, the thread goes on with the head of its loop -/
  inside : dev.pc ≠ .working → dev.pc ≠ .detached → ∃ proc, cpu.pc = .loop proc
  detached : dev.pc = .detached → cpu.pc = .stopped
  stopped : cpu.pc = .stopped → done = true

def Linked (s : Simulator cfg) : Prop :=
  ∀ c, CpuLinked (s.os.cpus c) (s.timer.devList (cpuDevice c)) s.os.done

/-- The loader is on time. -/
def Timed (s : Simulator cfg) : Prop := ∃ added, Arrivals.Inv ⟨s, added⟩

theorem timed_init (cfg : Config) : (init cfg).Timed := ⟨[], Arrivals.inv_init cfg⟩

theorem Timed.exec {s s' : Simulator cfg} {a : Action cfg} (h : s.Timed)
    (hexec : s.exec a = some s') : s'.Timed := by
  rcases h with ⟨added, hinv⟩
  exact ⟨_, hinv.exec (Option.map_eq_some_iff.2 ⟨s', hexec, rfl⟩)⟩

theorem Timed.sound {s : Simulator cfg} (h : s.Timed) : s.Sound := by
  rcases h with ⟨_, hinv⟩
  exact hinv.sound

/-- `done` is set when all have arrived. -/
theorem Timed.closing_le {s : Simulator cfg} (h : s.Timed) (hdone : s.os.done = true) :
    cfg.closing ≤ s.timer.time := by
  rcases h with ⟨added, hinv⟩
  have hpc : s.os.loader.pc = .stopped := hinv.stopped hdone
  have hat := hinv.loader
  simp only [Arrivals.LoaderAt, hpc] at hat
  rw [Config.closing, ← hat.1]
  exact hat.2.1

/-- Behind the last arrival, the loader has given all processes to `add_proc`. -/
theorem Timed.all_added {s : Simulator cfg} (h : s.Timed) (hclosing : cfg.closing ≤ s.timer.time) :
    s.os.loader.i = cfg.ldProcesses.length ∧ s.os.loader.pc ≠ .addReady := by
  rcases h with ⟨added, hinv⟩
  have hat := hinv.loader
  have hlate : s.os.loader.i < cfg.ldProcesses.length →
      cfg.arrival s.os.loader.i < s.timer.time := by
    intro hi
    obtain ⟨m, hm⟩ := Nat.exists_eq_succ_of_ne_zero (Nat.ne_zero_of_lt hi)
    have hmono := cfg.arrival_strictMono.monotone (show s.os.loader.i ≤ m by omega)
    rw [Config.closing, hm] at hclosing
    exact Nat.lt_of_le_of_lt hmono hclosing
  have hearliest := cfg.earliest_le_arrival s.os.loader.i
  -- the clock is not ahead of a loader that has not stopped
  have hslot : s.os.loader.pc ≠ .stopped →
      s.timer.time ≤ (s.timer.devList (ldDevice cfg)).slot :=
    fun hpc => hinv.sound.inv.time_le_slot fun hdet => hpc (hinv.attached hdet)
  cases hpc : s.os.loader.pc with
  | loop | slot =>
      simp only [Arrivals.LoaderAt, hpc] at hat
      have hle := hslot (by simp [hpc])
      exact ⟨by omega, by simp⟩
  | wait | waitSlot | addRunning | addReady =>
      simp only [Arrivals.LoaderAt, hpc] at hat
      have hle := hslot (by simp [hpc])
      have := hlate hat.1
      omega
  | finish | stopped =>
      simp only [Arrivals.LoaderAt, hpc] at hat
      exact ⟨hat.1, by simp⟩

/-- A CPU stops behind `done` only. -/
theorem cpuStep_stopped {s : Os cfg} {c : Fin cfg.numCpus}
    (h : ((s.cpuStep c).cpus c).pc = .stopped) : (s.cpus c).pc = .stopped ∨ s.done = true := by
  have hgoes := s.cpuStep_goes c
  rw [h] at hgoes
  cases hgoes with
  | leave _ hdone => exact Or.inr hdone
  | stay hpc => exact Or.inl hpc

theorem linked_init (cfg : Config) : (init cfg).Linked := by
  intro c
  simp only [init, startTimer, attachEvents_apply, Os.init]
  exact ⟨fun hwork _ => absurd rfl hwork, by simp, by simp⟩

/-- The thread of the device is not the one that moves. -/
theorem CpuLinked.mono {cpu : Cpu} {dev dev' : Device} {done done' : Bool}
    (h : CpuLinked cpu dev done) (hdev : DeviceKept dev dev') (hdone : done = true → done' = true) :
    CpuLinked cpu dev' done' where
  inside hwork hdet :=
    h.inside (fun hpc => hwork (hdev.working hpc)) fun hpc => hdet (hdev.detached.2 hpc)
  detached hpc := h.detached (hdev.detached.1 hpc)
  stopped hpc := hdone (h.stopped hpc)

/-- The step of CPU `c`, for its own device. -/
theorem CpuLinked.cpuStep {s : Os cfg} {c : Fin cfg.numCpus}
    {t t' : Timer (cfg.numCpus + 1)}
    (h : CpuLinked (s.cpus c) (t.devList (cpuDevice c)) s.done)
    (hwork : (t.devList (cpuDevice c)).pc = .working)
    (hcall : call t (cpuDevice c) (cpuCall (s.cpus c).pc) = some t') :
    CpuLinked ((s.cpuStep c).cpus c) (t'.devList (cpuDevice c)) (s.cpuStep c).done := by
  have hdone : (s.cpuStep c).done = s.done := (s.cpuStep_move c).frame.1
  have hstopped : ((s.cpuStep c).cpus c).pc = .stopped → (s.cpuStep c).done = true := by
    intro hpc
    rw [hdone]
    exact (cpuStep_stopped hpc).elim h.stopped id
  cases hr : cpuCall (s.cpus c).pc with
  | none =>
      rw [hr] at hcall
      obtain rfl := Option.some.inj hcall
      exact ⟨fun hout _ => absurd hwork hout, fun hdet => by simp [hwork] at hdet, hstopped⟩
  | nextSlot =>
      rw [hr] at hcall
      have hentered := (Timer.nextSlot_devList hcall).2.1
      obtain ⟨proc, hpc⟩ : ∃ proc, (s.cpus c).pc = .slot proc := by
        revert hr
        cases (s.cpus c).pc <;> simp [cpuCall]
      have hloop : ((s.cpuStep c).cpus c).pc = .loop proc := by
        simp [Os.cpuStep, hpc, Os.setCpu]
      exact ⟨fun _ _ => ⟨proc, hloop⟩, fun hdet => by simp [hentered] at hdet, hstopped⟩
  | detachEvent =>
      rw [hr] at hcall
      have hpc : (s.cpus c).pc = .stopped := by
        revert hr
        cases (s.cpus c).pc <;> simp [cpuCall]
      have hstay : ((s.cpuStep c).cpus c).pc = .stopped := by simp [Os.cpuStep, hpc]
      have hdet : (t'.devList (cpuDevice c)).pc = .detached := by
        simp only [call, Timer.detachEvent, hwork] at hcall
        obtain rfl := Option.some.inj hcall
        simp [Timer.setDev]
      exact ⟨fun _ hout => absurd hdet hout, fun _ => hstay, hstopped⟩

/-- `done` is never cleared. -/
theorem exec_done {s s' : Simulator cfg} {a : Action cfg} (hexec : s.exec a = some s')
    (hdone : s.os.done = true) : s'.os.done = true := by
  cases exec_kind hexec with
  | timer _ _ _ _ _ hos =>
      rw [hos]
      exact hdone
  | cpu c _ _ _ hos =>
      rw [hos]
      exact (s.os.cpuStep_move c).frame.1.trans hdone
  | loader _ _ _ hos =>
      rw [hos]
      have hmove := s.os.loaderStep_move
      change s.os.loaderStep.done = true
      generalize s.os.loaderStep = os' at hmove
      cases hmove with
      | finish _ => rfl
      | _ => exact hdone
  | kill b hb hos =>
      rcases Os.act_kill hb hos with ⟨sched, heq, _⟩
      rw [heq]
      exact hdone

/-- Nobody but CPU `c` changes its variables. -/
theorem exec_cpu_of_ne {s s' : Simulator cfg} {a : Action cfg} {c : Fin cfg.numCpus}
    (hexec : s.exec a = some s') (ha : a ≠ .cpu c) : s'.os.cpus c = s.os.cpus c := by
  cases exec_kind hexec with
  | timer _ _ _ _ _ hos => rw [hos]
  | cpu d hd _ _ hos =>
      have hne : c ≠ d := fun heq => ha (heq ▸ hd)
      rw [hos]
      exact (s.os.cpuStep_move d).cpus_of_ne hne
  | loader _ _ _ hos =>
      rw [hos]
      exact congrFun s.os.loaderStep_move.frame.1 c
  | kill b hb hos =>
      rcases Os.act_kill hb hos with ⟨sched, heq, _⟩
      rw [heq]

theorem Linked.exec {s s' : Simulator cfg} {a : Action cfg} (h : s.Linked)
    (hexec : s.exec a = some s') : s'.Linked := by
  intro c
  by_cases ha : a = .cpu c
  · subst ha
    rcases move_eq hexec with ⟨hwork, hcall, hos⟩
    rw [hos]
    exact (h c).cpuStep hwork hcall
  · have hdevice := exec_device hexec (d := cpuDevice c)
      (fun d hd heq => ha (cpuDevice_injective heq ▸ hd)) (fun _ => cpuDevice_ne_ldDevice c)
    rw [exec_cpu_of_ne hexec ha]
    exact (h c).mono hdevice (exec_done hexec)

/-! ## Somebody looks -/

/-- The CPU has found the levels empty, and leaves if `done` is set. -/
def Leaving (pc : CpuPc) : Prop := pc = .recheck none ∨ pc = .stopped

/-- Behind all arrivals, a process that waits is looked for: some CPU is not on its way out. -/
structure Looked (s : Simulator cfg) : Prop where
  timed : s.Timed
  linked : s.Linked
  looked : cfg.closing ≤ s.timer.time → ∀ p, s.os.sched.Waiting p →
    ∃ c, ¬ Leaving (s.os.cpus c).pc

theorem looked_init (cfg : Config) : (init cfg).Looked := by
  refine ⟨timed_init cfg, linked_init cfg, fun _ p hp => ?_⟩
  rcases hp with ⟨k, hk⟩
  simp [init, Os.init] at hk

/-- A CPU is on its way out when the levels are empty, and changes nothing there. -/
theorem cpuStep_leaving {s : Os cfg} {c : Fin cfg.numCpus}
    (h : Leaving ((s.cpuStep c).cpus c).pc) :
    (s.cpuStep c).sched = s.sched ∧ (Leaving (s.cpus c).pc ∨ s.sched.getProc = none) := by
  have hgoes := s.cpuStep_goes c
  generalize hpc' : ((s.cpuStep c).cpus c).pc = pc' at h hgoes
  rcases h with rfl | rfl
  · cases hgoes with
    | empty hpc hget =>
        refine ⟨?_, Or.inr hget⟩
        simp only [Os.cpuStep, hpc, hget]
        rfl
  · cases hgoes with
    | leave hpc hdone =>
        refine ⟨?_, Or.inl (Or.inl hpc)⟩
        simp only [Os.cpuStep, hpc, hdone]
        rfl
    | stay hpc =>
        refine ⟨?_, Or.inl (Or.inr hpc)⟩
        simp only [Os.cpuStep, hpc]

/-- A step of CPU `c`: either it looks again itself, or the others do as before. -/
theorem looked_cpuStep {s : Os cfg} {c : Fin cfg.numCpus}
    (h : ∀ p, s.sched.Waiting p → ∃ d, ¬ Leaving (s.cpus d).pc) {p : Pcb}
    (hwait : (s.cpuStep c).sched.Waiting p) : ∃ d, ¬ Leaving ((s.cpuStep c).cpus d).pc := by
  by_cases hleave : Leaving ((s.cpuStep c).cpus c).pc
  · rcases cpuStep_leaving hleave with ⟨hsched, hbefore⟩
    rw [hsched] at hwait
    rcases h p hwait with ⟨d, hd⟩
    have hne : d ≠ c := by
      rintro rfl
      rcases hbefore with hbefore | hget
      · exact hd hbefore
      · -- it would have found the process
        rcases hwait with ⟨k, hk⟩
        rw [Sched.getProc_eq_none_iff.1 hget k] at hk
        cases hk
    refine ⟨d, ?_⟩
    rwa [(s.cpuStep_move c).cpus_of_ne hne]
  · exact ⟨c, hleave⟩

/-- But for the ready section of `add_proc`, the loader leaves the levels alone. -/
theorem loaderStep_level {s : Os cfg} (h : s.loader.pc ≠ .addReady) (k : Fin maxPrio) :
    s.loaderStep.sched.level k = s.sched.level k := by
  have hmove := s.loaderStep_move
  generalize s.loaderStep = s' at hmove
  cases hmove with
  | addReady hpc _ => exact absurd hpc h
  | _ => rfl

/-- Step lemma. -/
theorem Looked.exec {s s' : Simulator cfg} {a : Action cfg} (hcpus : 0 < cfg.numCpus)
    (h : s.Looked) (hexec : s.exec a = some s') : s'.Looked := by
  refine ⟨h.timed.exec hexec, h.linked.exec hexec, fun hclosing p hwait => ?_⟩
  cases exec_kind hexec with
  | timer b _ _ _ hstep hos =>
      rw [hos] at hwait ⊢
      by_cases hbefore : cfg.closing ≤ s.timer.time
      · exact h.looked hbefore p hwait
      · -- the last arrival is over with this tick, which finds all CPUs inside `next_slot`
        have htick := (Timer.step_tick hstep (fun heq => hbefore (heq ▸ hclosing))).1
        have hnotDone : s.os.done ≠ true := fun hdone => hbefore (h.timed.closing_le hdone)
        have hlink := h.linked ⟨0, hcpus⟩
        refine ⟨⟨0, hcpus⟩, ?_⟩
        rcases h.timed.sound.inv.tick_device htick (cpuDevice ⟨0, hcpus⟩) with hdet | ⟨hin, _⟩
        · exact absurd (hlink.stopped (hlink.detached hdet)) hnotDone
        · have hloop : ∃ proc, (s.os.cpus ⟨0, hcpus⟩).pc = .loop proc := by
            rcases hin with hin | hin
            · exact hlink.inside (by simp [hin]) (by simp [hin])
            · exact hlink.inside (by simp [hin]) (by simp [hin])
          rcases hloop with ⟨proc, hpc⟩
          simp [Leaving, hpc]
  | cpu c _ _ hcall hos =>
      rw [call_time hcall] at hclosing
      rw [hos] at hwait ⊢
      exact looked_cpuStep (h.looked hclosing) hwait
  | loader _ _ hcall hos =>
      rw [call_time hcall] at hclosing
      have hadded := (h.timed.all_added hclosing).2
      rcases hwait with ⟨k, hk⟩
      rw [hos] at hk ⊢
      have hbefore : s.os.sched.Waiting p := ⟨k, loaderStep_level hadded k ▸ hk⟩
      have hsame : (s.os.step .loader).cpus = s.os.cpus := s.os.loaderStep_move.frame.1
      rw [hsame]
      exact h.looked hclosing p hbefore
  | kill b hb hos htimer =>
      rcases Os.act_kill hb hos with ⟨sched, heq, hsub⟩
      rcases hwait with ⟨k, hk⟩
      rw [htimer] at hclosing
      rw [heq] at hk ⊢
      exact h.looked hclosing p ⟨k, (hsub k).subset hk⟩

/-! ## When all CPUs have stopped -/

/-- No CPU is left in its loop. -/
def AllStopped (s : Simulator cfg) : Prop := ∀ c, (s.os.cpus c).pc = .stopped

/-- All processes have been added, and none of them waits or is held by a CPU. -/
structure Drained (s : Os cfg) : Prop where
  done : s.done = true
  added : s.loader.i = cfg.ldProcesses.length
  levels : ∀ k, s.sched.level k = []
  idle : ∀ c, s.current c = none

theorem Looked.drained {s : Simulator cfg} (h : s.Looked) (hcpus : 0 < cfg.numCpus)
    (hstopped : s.AllStopped) : Drained s.os := by
  have hdone := (h.linked ⟨0, hcpus⟩).stopped (hstopped ⟨0, hcpus⟩)
  have hclosing := h.timed.closing_le hdone
  refine ⟨hdone, (h.timed.all_added hclosing).1, fun k => ?_, fun c => ?_⟩
  · refine List.eq_nil_iff_forall_not_mem.2 fun p hp => ?_
    rcases h.looked hclosing p ⟨k, hp⟩ with ⟨c, hc⟩
    exact hc (Or.inr (hstopped c))
  · rw [Os.current, hstopped c]
    rfl

/-- For every configuration with a CPU and every interleaving of the threads, the timer and the
passes of `killall`: when all CPUs have stopped, nothing is left to do. -/
theorem stopped_drained (cfg : Config) (hcpus : 0 < cfg.numCpus) (as : List (Action cfg)) :
    AllStates (fun s => s.AllStopped → Drained s.os) (init cfg) (traceFn exec (init cfg) as) := by
  rcases run_traceFn exec (init cfg) as with ⟨t, hrun⟩
  have hinv := hrun.allStates (I := Looked) (fun h hexec => h.exec hcpus hexec) (looked_init cfg)
  exact ⟨fun hall => hinv.1.drained hcpus hall, fun x hx hall => (hinv.2 x hx).drained hcpus hall⟩

/-- The short run up to the `break` of the CPU. -/
def shortEnd : List (Action History.short) :=
  History.shortRun ++ List.replicate 2 (.cpu (0 : Fin 1))

theorem short_drained :
    (runFn exec (init History.short) shortEnd).map (fun s => (s.os.cpus ⟨0, by decide⟩).pc) =
        some .stopped ∧
      AllStates (fun s => s.AllStopped → Drained s.os) (init History.short)
        (traceFn exec (init History.short) shortEnd) :=
  ⟨by decide +kernel, stopped_drained History.short (by decide) shortEnd⟩

/-! ## Everything has been executed -/

/-- The step takes no unfinished process out of the levels for good: one that enters a level finds
room there, and `killall` does not search the levels. -/
def KeepsAll (s : Simulator cfg) : Action cfg → Prop
  | .cpu c => s.os.FindsRoom (.cpu c)
  | .loader => s.os.FindsRoom .loader
  | .killReady _ _ => False
  | _ => True

/-- A section of the timer that is no call of a thread sets the clock, and touches nothing else of
the threads. -/
structure TimerStep (s : Simulator cfg) (b : Timer.Action (cfg.numCpus + 1))
    (s' : Simulator cfg) : Prop where
  step : s.timer.step b = some s'.timer
  nextSlot : ∀ d, b ≠ .nextSlot d
  detachEvent : ∀ d, b ≠ .detachEvent d
  os : s'.os = { s.os with time := s'.timer.time }

theorem exec_timerStep {s s' : Simulator cfg} {b : Timer.Action (cfg.numCpus + 1)}
    (hexec : s.exec (.timer b) = some s') : TimerStep s b s' := by
  cases b with
  | nextSlot d => cases hexec
  | detachEvent d => cases hexec
  | _ =>
      rcases Option.map_eq_some_iff.1 hexec with ⟨timer, hstep, rfl⟩
      exact ⟨hstep, by simp, by simp, rfl⟩

/-- A pass of `killall` takes processes out of the queues, and touches nothing else. -/
theorem exec_kill {s s' : Simulator cfg} {a : Action cfg} (hexec : s.exec a = some s')
    (ha : ∃ c name, a = .killRunning c name ∨ a = .killReady c name) :
    s'.timer = s.timer ∧ ∃ sched, s'.os = { s.os with sched := sched } ∧
      ∀ k, (sched.level k).Subperm (s.os.sched.level k) := by
  rcases ha with ⟨c, name, rfl | rfl⟩
  · rcases Option.bind_eq_some_iff.1 hexec with ⟨os, hact, hmove⟩
    rcases move_eq hmove with ⟨_, hcall, hos⟩
    exact ⟨(Option.some.inj hcall).symm, hos ▸ Os.act_kill ⟨c, name, Or.inl rfl⟩ hact⟩
  · rcases Option.bind_eq_some_iff.1 hexec with ⟨os, hact, hmove⟩
    rcases move_eq hmove with ⟨_, hcall, hos⟩
    exact ⟨(Option.some.inj hcall).symm, hos ▸ Os.act_kill ⟨c, name, Or.inr rfl⟩ hact⟩

/-- Step lemma: nothing is lost in such a step. -/
theorem noneLost_exec {s s' : Simulator cfg} {a : Action cfg} (h : s.os.NoneLost)
    (hexec : s.exec a = some s') (hkeeps : s.KeepsAll a) : s'.os.NoneLost := by
  have hstep : ∀ t, s.os.FindsRoom t → (s.os.step t).NoneLost :=
    fun t hroom => (Os.step_places s.os t).noneLost h hroom
  cases a with
  | timer b =>
      rw [(exec_timerStep hexec).os]
      exact h
  | cpu c =>
      rw [(move_eq hexec).2.2]
      exact hstep _ hkeeps
  | loader =>
      rw [(move_eq hexec).2.2]
      exact hstep _ hkeeps
  | killRunning c name =>
      rcases Option.bind_eq_some_iff.1 hexec with ⟨os, hact, hmove⟩
      obtain rfl := (move_eq hmove).2.2
      simp only [Os.act] at hact
      split at hact
      · -- this pass searches `running_list` only
        rw [← Option.some.inj hact]
        exact h
      · cases hact
  | killReady c name => exact absurd hkeeps id

end Simulator

namespace History

variable {cfg : Config}

/-- What is known of a run in which nothing is lost. -/
structure Whole (h : History cfg) : Prop where
  inv : h.Inv
  looked : h.sim.Looked
  noneLost : h.sim.os.NoneLost

theorem whole_init (cfg : Config) : (init cfg).Whole := by
  refine ⟨inv_init cfg, Simulator.looked_init cfg, fun p hp => ?_⟩
  simp [init, Simulator.init, Os.init] at hp

theorem Whole.exec {h h' : History cfg} {a : Simulator.Action cfg} (hw : h.Whole)
    (hts : 0 < cfg.timeSlot) (hsize : ∀ p ∈ cfg.procs, 1 ≤ p.codeSize) (hcpus : 0 < cfg.numCpus)
    (hexec : h.exec a = some h') (hkeeps : h.sim.KeepsAll a) : h'.Whole := by
  have hinv := hw.inv.exec hts hsize hexec
  rcases Option.map_eq_some_iff.1 hexec with ⟨sim, hsim, rfl⟩
  exact ⟨hinv, hw.looked.exec hcpus hsim, Simulator.noneLost_exec hw.noneLost hsim hkeeps⟩

/-- No program counter is behind the end of its program. -/
theorem Inv.progCounter_le {h : History cfg} (hinv : h.Inv) {p : Pcb} (hp : p ∈ cfg.procs) :
    h.sim.os.progCounter p.pid ≤ p.codeSize := by
  by_contra hgt
  -- the instruction behind the last one would have been executed
  have hmem : p.codeSize ∈ h.executed p := by
    rw [hinv.executed p hp]
    exact List.mem_range.2 (not_le.1 hgt)
  rcases List.mem_filterMap.1 hmem with ⟨e, he, hrun⟩
  unfold Entry.runOf at hrun
  split at hrun
  · rename_i q pc hevent
    split at hrun
    · rename_i hq
      subst hq
      obtain rfl := Option.some.inj hrun
      exact Nat.lt_irrefl _ (hinv.inProgram e he _ _ hevent)
    · cases hrun
  · cases hrun

/-- Every program has been executed from its first to its last instruction, each once. -/
def AllExecuted (h : History cfg) : Prop :=
  ∀ p ∈ cfg.procs, h.executed p = List.range p.codeSize

theorem Whole.allExecuted {h : History cfg} (hw : h.Whole) (hcpus : 0 < cfg.numCpus)
    (hstopped : h.sim.AllStopped) : h.AllExecuted := by
  intro p hp
  have hdrained := hw.looked.drained hcpus hstopped
  have hadded : p ∈ cfg.procs.take h.sim.os.loader.i := by
    rw [hdrained.added, List.take_of_length_le (by simp [Config.procs])]
    exact hp
  have hle := hw.inv.progCounter_le hp
  have hover : ¬ h.sim.os.progCounter p.pid < p.codeSize := by
    intro hlt
    -- an unfinished process would wait or be on a CPU
    rcases hw.noneLost p hadded hlt with ⟨hprio, hmem⟩ | ⟨c, hc⟩
    · rw [hdrained.levels] at hmem
      cases hmem
    · rw [hdrained.idle c] at hc
      cases hc
  rw [hw.inv.executed p hp, le_antisymm hle (not_lt.1 hover)]

/-- In every run in which no process is dropped or killed: when all CPUs have stopped, every
instruction of every program has been executed once, in program order. -/
theorem stopped_allExecuted (cfg : Config) (hts : 0 < cfg.timeSlot) (hcpus : 0 < cfg.numCpus)
    (hsize : ∀ p ∈ cfg.procs, 1 ≤ p.codeSize) (as : List (Simulator.Action cfg))
    (hkeeps : AllSteps (fun h a => h.sim.KeepsAll a) (init cfg) (traceFn exec (init cfg) as)) :
    AllStates (fun h => h.sim.AllStopped → h.AllExecuted) (init cfg)
      (traceFn exec (init cfg) as) := by
  rcases run_traceFn exec (init cfg) as with ⟨t, hrun⟩
  have hwhole := hrun.allStates_of_allSteps (I := Whole)
    (fun hw hexec hok => hw.exec hts hsize hcpus hexec hok) hkeeps (whole_init cfg)
  exact ⟨fun hall => hwhole.1.allExecuted hcpus hall,
    fun x hx hall => (hwhole.2 x hx).allExecuted hcpus hall⟩

end History
end MiniOs
