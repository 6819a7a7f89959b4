import MiniOs.Sched.Killall

/-!
# Routines — the threads of the simulator (`os.c`)

One loader thread runs `ld_routine` and every CPU thread runs `cpu_routine`; they share the
scheduler, the flag `done` and the clock.  A thread is a program point with its local variables,
and one step executes it up to the next program point, so that every step contains at most one
section under `queue_lock`.  Any sequence of threads is a schedule; the waiting inside
`next_slot` is left to the scheduler of the threads (`next_slot` is a program point of its own).
-/

namespace MiniOs

/-- One process line of the configuration file, read by `read_config`. -/
structure LdProcess where
  startTime : Nat
  path : CString
  prio : Nat
  deriving DecidableEq

/-- The configuration and, for `load`, the programs: default priority and code by path. -/
structure Config where
  timeSlot : Int
  numCpus : Nat
  ldProcesses : List LdProcess
  program : CString → Nat × List Inst

namespace Config

/-- The PCB of the `i`-th process after `load` and `proc->prio = ld_processes.prio[i]`: `load`
keeps `2 * sizeof(path)` bytes of the path, and `prio` is cut to 32 bits. -/
def load (cfg : Config) (i : Nat) (l : LdProcess) : Pcb where
  pid := i + 1
  priority := (cfg.program l.path).1
  path := l.path.take 16
  code := (cfg.program l.path).2
  prio := l.prio % 2 ^ 32

/-- All processes in the order of the configuration. -/
def procs (cfg : Config) : List Pcb := cfg.ldProcesses.mapIdx cfg.load

/-- The loader numbers the processes, so their `pid`s are different. -/
theorem procs_pid_nodup (cfg : Config) : (cfg.procs.map Pcb.pid).Nodup := by
  have hpids : cfg.procs.map Pcb.pid = (List.range cfg.ldProcesses.length).map (· + 1) := by
    apply List.ext_getElem
    · simp [procs]
    · intro i h₁ h₂
      simp [procs, load]
  rw [hpids]
  exact List.nodup_range.map (add_left_injective 1)

theorem procs_nodup (cfg : Config) : cfg.procs.Nodup := List.Nodup.of_map _ cfg.procs_pid_nodup

/-- A process is among the first `n` or behind them, and only once. -/
theorem count_take_add_drop (cfg : Config) (n : Nat) (p : Pcb) :
    cfg.procs.count p = (cfg.procs.take n).count p + (cfg.procs.drop n).count p ∧
      cfg.procs.count p ≤ 1 := by
  rw [← List.count_append, List.take_append_drop]
  exact ⟨rfl, List.nodup_iff_count_le_one.1 cfg.procs_nodup p⟩

theorem eq_of_pid_eq {cfg : Config} {p q : Pcb} (hp : p ∈ cfg.procs) (hq : q ∈ cfg.procs)
    (h : p.pid = q.pid) : p = q :=
  List.inj_on_of_nodup_map cfg.procs_pid_nodup hp hq h

end Config

/-! ## State -/

/-- Program points of `cpu_routine`, each with the process in the local variable `proc` where it
is still used: behind `put_proc` and `free(proc)` the variable is only overwritten. -/
inductive CpuPc
  /-- head of `while (1)`, before the tests on `proc` -/
  | loop (proc : Option Pcb)
  /-- `proc = get_proc()` of the branch without a process -/
  | getIdle
  /-- `put_proc`, section on `running_list` -/
  | putRunning (proc : Pcb)
  /-- `put_proc`, section on the ready level -/
  | putReady (proc : Pcb)
  /-- `proc = get_proc()` after a process finished or was put back -/
  | getNext
  /-- "Recheck process status after loading new process" -/
  | recheck (proc : Option Pcb)
  /-- `run(proc); time_left--` -/
  | exec (proc : Pcb)
  /-- `next_slot(timer_id)`, then back to the loop head -/
  | slot (proc : Option Pcb)
  /-- after the `break` -/
  | stopped
  deriving DecidableEq

/-- The current process of a CPU at a program point. -/
def CpuPc.current : CpuPc → Option Pcb
  | .loop proc | .recheck proc | .slot proc => proc
  | .putRunning proc | .putReady proc | .exec proc => some proc
  | .getIdle | .getNext | .stopped => none

structure Cpu where
  pc : CpuPc
  timeLeft : Int
  deriving DecidableEq

/-- Program points of `ld_routine`. -/
inductive LdPc
  /-- head of `while (i < num_processes)`, then `load` -/
  | loop
  /-- `while (current_time() < ld_processes.start_time[i])` -/
  | wait
  /-- `next_slot(timer_id)` inside that loop -/
  | waitSlot
  /-- `add_proc`, section on `running_list` -/
  | addRunning
  /-- `add_proc`, section on the ready level; then `i++` -/
  | addReady
  /-- `next_slot(timer_id)` after `add_proc` -/
  | slot
  /-- `done = 1` and `detach_event` -/
  | finish
  | stopped
  deriving DecidableEq

structure Loader where
  pc : LdPc
  i : Nat

/-- The shared state.  `progCounter` is `proc->pc` by `pid`, and `freed` lists the PCBs that
`cpu_routine` has freed. -/
structure Os (cfg : Config) where
  sched : Sched
  cpus : Fin cfg.numCpus → Cpu
  loader : Loader
  progCounter : Nat → Nat
  freed : List Pcb
  done : Bool
  time : Nat

namespace Os

variable {cfg : Config}

def init (cfg : Config) : Os cfg where
  sched := Sched.initScheduler
  cpus := fun _ => ⟨.loop none, 0⟩
  loader := ⟨.loop, 0⟩
  progCounter := fun _ => 0
  freed := []
  done := false
  time := 0

/-- The process that CPU `c` holds. -/
def current (s : Os cfg) (c : Fin cfg.numCpus) : Option Pcb := (s.cpus c).pc.current

def setCpu (s : Os cfg) (c : Fin cfg.numCpus) (cpu : Cpu) : Os cfg :=
  { s with cpus := Function.update s.cpus c cpu }

def setLoader (s : Os cfg) (ld : Loader) : Os cfg := { s with loader := ld }

@[simp] theorem setCpu_sched (s : Os cfg) (c : Fin cfg.numCpus) (cpu : Cpu) :
    (s.setCpu c cpu).sched = s.sched := rfl
@[simp] theorem setCpu_loader (s : Os cfg) (c : Fin cfg.numCpus) (cpu : Cpu) :
    (s.setCpu c cpu).loader = s.loader := rfl
@[simp] theorem setCpu_freed (s : Os cfg) (c : Fin cfg.numCpus) (cpu : Cpu) :
    (s.setCpu c cpu).freed = s.freed := rfl
@[simp] theorem setCpu_progCounter (s : Os cfg) (c : Fin cfg.numCpus) (cpu : Cpu) :
    (s.setCpu c cpu).progCounter = s.progCounter := rfl
@[simp] theorem setCpu_done (s : Os cfg) (c : Fin cfg.numCpus) (cpu : Cpu) :
    (s.setCpu c cpu).done = s.done := rfl

/-- `pc` of `proc` has reached `code->size`. -/
def Finished (s : Os cfg) (proc : Pcb) : Prop := s.progCounter proc.pid = proc.codeSize

instance (s : Os cfg) (proc : Pcb) : Decidable (s.Finished proc) :=
  inferInstanceAs (Decidable (_ = _))

/-! ## cpu_routine -/

/-- The part of `run` the scheduler sees: `pc++` unless the program is over. -/
def runPc (s : Os cfg) (proc : Pcb) : Nat → Nat :=
  if s.progCounter proc.pid ≥ proc.codeSize then s.progCounter
  else Function.update s.progCounter proc.pid (s.progCounter proc.pid + 1)

/-- One step of CPU `c`. -/
def cpuStep (s : Os cfg) (c : Fin cfg.numCpus) : Os cfg :=
  let cpu := s.cpus c
  match cpu.pc with
  -- if (proc == NULL)
  | .loop none => s.setCpu c { cpu with pc := .getIdle }
  | .loop (some proc) =>
      if s.Finished proc then
        -- free(proc); proc = get_proc(); time_left = 0
        { s.setCpu c ⟨.getNext, 0⟩ with freed := proc :: s.freed }
      -- the slice is used up: put_proc(proc); proc = get_proc()
      else if cpu.timeLeft = 0 then
        s.setCpu c { cpu with pc := .putRunning proc }
      else
        s.setCpu c { cpu with pc := .recheck (some proc) }
  | .getIdle =>
      match s.sched.getProc with
      -- next_slot(timer_id); continue, without a look at `done`
      | none => s.setCpu c { cpu with pc := .slot none }
      | some (proc, sched) =>
          { s.setCpu c { cpu with pc := .recheck (some proc) } with sched := sched }
  | .putRunning proc =>
      { s.setCpu c { cpu with pc := .putReady proc } with sched := s.sched.enqueueRunning proc }
  | .putReady proc =>
      { s.setCpu c { cpu with pc := .getNext } with sched := s.sched.putMlqProc proc }
  | .getNext =>
      match s.sched.getProc with
      | none => s.setCpu c { cpu with pc := .recheck none }
      | some (proc, sched) =>
          { s.setCpu c { cpu with pc := .recheck (some proc) } with sched := sched }
  | .recheck none =>
      -- if (proc == NULL && done) break
      if s.done then s.setCpu c { cpu with pc := .stopped }
      else s.setCpu c { cpu with pc := .slot none }
  | .recheck (some proc) =>
      -- a new process gets a full slice; one that was taken over mid-slice keeps the rest
      if cpu.timeLeft = 0 then s.setCpu c ⟨.exec proc, cfg.timeSlot⟩
      else s.setCpu c { cpu with pc := .exec proc }
  | .exec proc =>
      { s.setCpu c ⟨.slot (some proc), cpu.timeLeft - 1⟩ with progCounter := s.runPc proc }
  | .slot proc => s.setCpu c { cpu with pc := .loop proc }
  | .stopped => s

/-- What a step of CPU `c` can do: move on in its own variables with the process it has, or one of
the five that also change what the threads share. -/
inductive CpuMove (s : Os cfg) (c : Fin cfg.numCpus) : Os cfg → Prop
  | goto {cpu : Cpu} (hcurrent : cpu.pc.current = s.current c)
      (hready : ∀ proc, (s.cpus c).pc ≠ .putReady proc) : CpuMove s c (s.setCpu c cpu)
  | finish {proc : Pcb} (hpc : (s.cpus c).pc = .loop (some proc)) (hfin : s.Finished proc) :
      CpuMove s c { s.setCpu c ⟨.getNext, 0⟩ with freed := proc :: s.freed }
  | take {proc : Pcb} {sched : Sched} (hpc : (s.cpus c).pc = .getIdle ∨ (s.cpus c).pc = .getNext)
      (hget : s.sched.getProc = some (proc, sched)) :
      CpuMove s c { s.setCpu c ⟨.recheck (some proc), (s.cpus c).timeLeft⟩ with sched := sched }
  | putRunning {proc : Pcb} (hpc : (s.cpus c).pc = .putRunning proc) :
      CpuMove s c { s.setCpu c ⟨.putReady proc, (s.cpus c).timeLeft⟩ with
        sched := s.sched.enqueueRunning proc }
  | putReady {proc : Pcb} (hpc : (s.cpus c).pc = .putReady proc) :
      CpuMove s c { s.setCpu c ⟨.getNext, (s.cpus c).timeLeft⟩ with
        sched := s.sched.putMlqProc proc }
  | exec {proc : Pcb} (hpc : (s.cpus c).pc = .exec proc) :
      CpuMove s c { s.setCpu c ⟨.slot (some proc), (s.cpus c).timeLeft - 1⟩ with
        progCounter := s.runPc proc }

theorem cpuStep_move (s : Os cfg) (c : Fin cfg.numCpus) : CpuMove s c (s.cpuStep c) := by
  -- at every program point but `putReady`, a CPU may keep its process
  have hgoto : ∀ {cpu : Cpu}, cpu.pc.current = (s.cpus c).pc.current →
      (∀ proc, (s.cpus c).pc ≠ .putReady proc) → CpuMove s c (s.setCpu c cpu) :=
    fun hcurrent hready => .goto hcurrent hready
  cases hpc : (s.cpus c).pc with
  | loop proc =>
      rw [hpc] at hgoto
      cases proc with
      | none =>
          simp only [cpuStep, hpc]
          exact hgoto rfl nofun
      | some proc =>
          simp only [cpuStep, hpc]
          split
          · rename_i hfin
            exact .finish hpc hfin
          · split
            · exact hgoto rfl nofun
            · exact hgoto rfl nofun
  | getIdle =>
      rw [hpc] at hgoto
      simp only [cpuStep, hpc]
      split
      · exact hgoto rfl nofun
      · rename_i hget
        exact .take (Or.inl hpc) hget
  | putRunning proc =>
      simp only [cpuStep, hpc]
      exact .putRunning hpc
  | putReady proc =>
      simp only [cpuStep, hpc]
      exact .putReady hpc
  | getNext =>
      rw [hpc] at hgoto
      simp only [cpuStep, hpc]
      split
      · exact hgoto rfl nofun
      · rename_i hget
        exact .take (Or.inr hpc) hget
  | recheck proc =>
      rw [hpc] at hgoto
      cases proc with
      | none =>
          simp only [cpuStep, hpc]
          split
          · exact hgoto rfl nofun
          · exact hgoto rfl nofun
      | some proc =>
          simp only [cpuStep, hpc]
          split
          · exact hgoto rfl nofun
          · exact hgoto rfl nofun
  | exec proc =>
      simp only [cpuStep, hpc]
      exact .exec hpc
  | slot proc =>
      rw [hpc] at hgoto
      simp only [cpuStep, hpc]
      exact hgoto rfl nofun
  | stopped =>
      rw [hpc] at hgoto
      simp only [cpuStep, hpc]
      -- a stopped CPU keeps all its variables
      have hself : s.setCpu c (s.cpus c) = s := by simp [setCpu]
      have hstay := hgoto (congrArg CpuPc.current hpc) nofun
      rwa [hself] at hstay

/-- The program points that a step of CPU `c` leads to. -/
inductive CpuGoes (s : Os cfg) (c : Fin cfg.numCpus) : CpuPc → Prop
  | idle (hpc : (s.cpus c).pc = .loop none) : CpuGoes s c .getIdle
  | finish {proc : Pcb} (hpc : (s.cpus c).pc = .loop (some proc)) (hfin : s.Finished proc) :
      CpuGoes s c .getNext
  | expire {proc : Pcb} (hpc : (s.cpus c).pc = .loop (some proc)) (hfin : ¬ s.Finished proc)
      (htime : (s.cpus c).timeLeft = 0) : CpuGoes s c (.putRunning proc)
  | keep {proc : Pcb} (hpc : (s.cpus c).pc = .loop (some proc)) (hfin : ¬ s.Finished proc)
      (htime : (s.cpus c).timeLeft ≠ 0) : CpuGoes s c (.recheck (some proc))
  | skip (hpc : (s.cpus c).pc = .getIdle) (hget : s.sched.getProc = none) :
      CpuGoes s c (.slot none)
  | take {proc : Pcb} {sched : Sched} (hpc : (s.cpus c).pc = .getIdle ∨ (s.cpus c).pc = .getNext)
      (hget : s.sched.getProc = some (proc, sched)) : CpuGoes s c (.recheck (some proc))
  | listed {proc : Pcb} (hpc : (s.cpus c).pc = .putRunning proc) : CpuGoes s c (.putReady proc)
  | back {proc : Pcb} (hpc : (s.cpus c).pc = .putReady proc) : CpuGoes s c .getNext
  | empty (hpc : (s.cpus c).pc = .getNext) (hget : s.sched.getProc = none) :
      CpuGoes s c (.recheck none)
  | leave (hpc : (s.cpus c).pc = .recheck none) (hdone : s.done = true) : CpuGoes s c .stopped
  | wait (hpc : (s.cpus c).pc = .recheck none) (hdone : s.done = false) : CpuGoes s c (.slot none)
  | dispatch {proc : Pcb} (hpc : (s.cpus c).pc = .recheck (some proc)) : CpuGoes s c (.exec proc)
  | ran {proc : Pcb} (hpc : (s.cpus c).pc = .exec proc) : CpuGoes s c (.slot (some proc))
  | next {proc : Option Pcb} (hpc : (s.cpus c).pc = .slot proc) : CpuGoes s c (.loop proc)
  | stay (hpc : (s.cpus c).pc = .stopped) : CpuGoes s c .stopped

theorem setCpu_self (s : Os cfg) (c : Fin cfg.numCpus) (cpu : Cpu) :
    (s.setCpu c cpu).cpus c = cpu :=
  Function.update_self ..

theorem cpuStep_goes (s : Os cfg) (c : Fin cfg.numCpus) :
    CpuGoes s c ((s.cpuStep c).cpus c).pc := by
  cases hpc : (s.cpus c).pc with
  | loop proc =>
      cases proc with
      | none =>
          simp only [cpuStep, hpc, setCpu_self]
          exact .idle hpc
      | some proc =>
          simp only [cpuStep, hpc]
          split
          · rename_i hfin
            simp only [setCpu_self]
            exact .finish hpc hfin
          · rename_i hfin
            split
            · rename_i htime
              simp only [setCpu_self]
              exact .expire hpc hfin htime
            · rename_i htime
              simp only [setCpu_self]
              exact .keep hpc hfin htime
  | getIdle =>
      simp only [cpuStep, hpc]
      split
      · rename_i hget
        simp only [setCpu_self]
        exact .skip hpc hget
      · rename_i hget
        simp only [setCpu_self]
        exact .take (Or.inl hpc) hget
  | putRunning proc =>
      simp only [cpuStep, hpc, setCpu_self]
      exact .listed hpc
  | putReady proc =>
      simp only [cpuStep, hpc, setCpu_self]
      exact .back hpc
  | getNext =>
      simp only [cpuStep, hpc]
      split
      · rename_i hget
        simp only [setCpu_self]
        exact .empty hpc hget
      · rename_i hget
        simp only [setCpu_self]
        exact .take (Or.inr hpc) hget
  | recheck proc =>
      cases proc with
      | none =>
          simp only [cpuStep, hpc]
          split
          · rename_i hdone
            simp only [setCpu_self]
            exact .leave hpc hdone
          · rename_i hdone
            simp only [setCpu_self]
            exact .wait hpc (by simpa using hdone)
      | some proc =>
          simp only [cpuStep, hpc]
          split
          · simp only [setCpu_self]
            exact .dispatch hpc
          · simp only [setCpu_self]
            exact .dispatch hpc
  | exec proc =>
      simp only [cpuStep, hpc, setCpu_self]
      exact .ran hpc
  | slot proc =>
      simp only [cpuStep, hpc, setCpu_self]
      exact .next hpc
  | stopped =>
      simp only [cpuStep, hpc]
      exact .stay hpc

/-! ## ld_routine -/

/-- One step of the loader. -/
def loaderStep (s : Os cfg) : Os cfg :=
  let ld := s.loader
  match ld.pc with
  | .loop =>
      -- load(ld_processes.path[i]) has no effect on the shared state
      if ld.i < cfg.procs.length then s.setLoader { ld with pc := .wait }
      else s.setLoader { ld with pc := .finish }
  | .wait =>
      match cfg.ldProcesses[ld.i]? with
      | none => s
      | some l =>
          if s.time < l.startTime then s.setLoader { ld with pc := .waitSlot }
          else s.setLoader { ld with pc := .addRunning }
  | .waitSlot => s.setLoader { ld with pc := .wait }
  | .addRunning =>
      match cfg.procs[ld.i]? with
      | none => s
      | some proc =>
          { s.setLoader { ld with pc := .addReady } with
              sched := s.sched.enqueueRunning proc }
  | .addReady =>
      match cfg.procs[ld.i]? with
      | none => s
      | some proc =>
          { s.setLoader ⟨.slot, ld.i + 1⟩ with sched := s.sched.addMlqProc proc }
  | .slot => s.setLoader { ld with pc := .loop }
  | .finish => { s.setLoader { ld with pc := .stopped } with done := true }
  | .stopped => s

/-- What a step of the loader can do: move on with the same process, one of the two sections of
`add_proc`, the end, or nothing. -/
inductive LoaderMove (s : Os cfg) : Os cfg → Prop
  | goto {pc : LdPc} (hready : s.loader.pc ≠ .addReady) (hstopped : s.loader.pc ≠ .stopped)
      (hpc : pc ≠ .addReady) : LoaderMove s (s.setLoader { s.loader with pc := pc })
  | addRunning {proc : Pcb} (hpc : s.loader.pc = .addRunning)
      (hnext : cfg.procs[s.loader.i]? = some proc) :
      LoaderMove s { s.setLoader { s.loader with pc := .addReady } with
        sched := s.sched.enqueueRunning proc }
  | addReady {proc : Pcb} (hpc : s.loader.pc = .addReady)
      (hnext : cfg.procs[s.loader.i]? = some proc) :
      LoaderMove s { s.setLoader ⟨.slot, s.loader.i + 1⟩ with sched := s.sched.addMlqProc proc }
  | finish (hpc : s.loader.pc = .finish) :
      LoaderMove s { s.setLoader { s.loader with pc := .stopped } with done := true }
  | stay (hnone : s.loader.pc = .addReady → cfg.procs[s.loader.i]? = none) : LoaderMove s s

theorem loaderStep_move (s : Os cfg) : LoaderMove s s.loaderStep := by
  -- where the loader moves on, it comes neither from `addReady` nor from the end
  have hgoto : ∀ {pc : LdPc}, s.loader.pc ≠ .addReady → s.loader.pc ≠ .stopped → pc ≠ .addReady →
      LoaderMove s (s.setLoader { s.loader with pc := pc }) :=
    fun hready hstopped hpc => .goto hready hstopped hpc
  cases hpc : s.loader.pc with
  | loop =>
      rw [hpc] at hgoto
      simp only [loaderStep, hpc]
      split
      · exact hgoto nofun nofun nofun
      · exact hgoto nofun nofun nofun
  | wait =>
      rw [hpc] at hgoto
      simp only [loaderStep, hpc]
      split
      · exact .stay (by simp [hpc])
      · split
        · exact hgoto nofun nofun nofun
        · exact hgoto nofun nofun nofun
  | addRunning =>
      simp only [loaderStep, hpc]
      split
      · exact .stay (by simp [hpc])
      · rename_i hnext
        exact .addRunning hpc hnext
  | addReady =>
      simp only [loaderStep, hpc]
      split
      · rename_i hnone
        exact .stay fun _ => hnone
      · rename_i hnext
        exact .addReady hpc hnext
  | finish =>
      simp only [loaderStep, hpc]
      exact .finish hpc
  | stopped =>
      simp only [loaderStep, hpc]
      exact .stay (by simp [hpc])
  | _ =>
      rw [hpc] at hgoto
      simp only [loaderStep, hpc]
      exact hgoto nofun nofun nofun

/-! ## Schedules -/

/-- Who moves next: a CPU, the loader, or the timer thread, which advances the clock. -/
inductive Thread (cfg : Config)
  | cpu (c : Fin cfg.numCpus)
  | loader
  | timer
  deriving DecidableEq

def step (s : Os cfg) : Thread cfg → Os cfg
  | .cpu c => s.cpuStep c
  | .loader => s.loaderStep
  | .timer => { s with time := s.time + 1 }

/-- The state after a schedule. -/
def run (s : Os cfg) (ts : List (Thread cfg)) : Os cfg := ts.foldl step s

/-- CPU `c` is about to run a `SYSCALL 101`, the `killall` system call. -/
def Killing (s : Os cfg) (c : Fin cfg.numCpus) : Prop :=
  match (s.cpus c).pc with
  | .exec proc =>
      match proc.code[s.progCounter proc.pid]? with
      | some ins => ins.opcode = .syscall ∧ ins.arg0 = 101#32
      | none => False
  | _ => False

instance (s : Os cfg) (c : Fin cfg.numCpus) : Decidable (s.Killing c) := by
  unfold Killing
  split
  · split <;> infer_instance
  · infer_instance

/-- A thread moves, or a CPU inside `__sys_killall` makes one of its two passes, with whatever
name it has read. -/
inductive Action (cfg : Config)
  | thread (t : Thread cfg)
  | killRunning (c : Fin cfg.numCpus) (targetName : CString)
  | killReady (c : Fin cfg.numCpus) (targetName : CString)

def act (s : Os cfg) : Action cfg → Option (Os cfg)
  | .thread t => some (s.step t)
  | .killRunning c targetName =>
      if s.Killing c then some { s with sched := s.sched.killRunningList targetName } else none
  | .killReady c targetName =>
      if s.Killing c then some { s with sched := s.sched.killReadyQueue targetName } else none

end Os
end MiniOs
