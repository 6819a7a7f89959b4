import MiniOs.Os.Simulator

/-!
# Quantum — what a CPU does with a process it has dispatched

A dispatch gives a process a slice of `time_slot` slots, or of as many as its program still has
instructions.  The CPU runs it once in each of them and then puts it back or reports it finished.
The variables that carry this from one iteration to the next are `proc`, `time_left` and `proc->pc`
(`CpuAt`); a process keeps its `pc` on its way through the levels, so that its instructions are
executed in program order over all CPUs together.
-/

namespace MiniOs

open Lib

/-! ## Events -/

/-- What a CPU does to a process; a dispatch and a call of `run` keep the `pc` they find. -/
inductive Event
  | dispatch (p : Pcb) (pc : Nat)
  | run (p : Pcb) (pc : Nat)
  | put (p : Pcb)
  | finish (p : Pcb)
  deriving DecidableEq

/-- The next step of a CPU, if it is one of these. -/
def Os.cpuEvent {cfg : Config} (s : Os cfg) (c : Fin cfg.numCpus) : Option Event :=
  match (s.cpus c).pc with
  | .recheck (some p) =>
      -- "Dispatched process"
      if (s.cpus c).timeLeft = 0 then some (.dispatch p (s.progCounter p.pid)) else none
  | .exec p => some (.run p (s.progCounter p.pid))
  -- "Put process to run queue"
  | .putRunning p => some (.put p)
  -- "Processed has finished"
  | .loop (some p) => if s.Finished p then some (.finish p) else none
  | _ => none

theorem Os.cpuEvent_eq_run {cfg : Config} {s : Os cfg} {c : Fin cfg.numCpus} {p : Pcb} {pc : Nat}
    (h : s.cpuEvent c = some (.run p pc)) :
    (s.cpus c).pc = .exec p ∧ pc = s.progCounter p.pid := by
  unfold Os.cpuEvent at h
  split at h
  · split at h <;> cases h
  · rename_i q hpc
    obtain ⟨rfl, rfl⟩ : q = p ∧ s.progCounter q.pid = pc := by simpa using h
    exact ⟨hpc, rfl⟩
  · cases h
  · split at h <;> cases h
  · cases h

/-- `m` calls of `run` in consecutive slots from `time` on, with the instructions from `pc` on. -/
def turns (p : Pcb) (pc time m : Nat) : List (Nat × Event) :=
  (List.range m).map fun k => (time + k, .run p (pc + k))

/-- The number of slots for which a process with this `pc` is dispatched. -/
def slice (cfg : Config) (p : Pcb) (pc : Nat) : Nat := min cfg.timeSlot.toNat (p.codeSize - pc)

/-- A dispatch at `time` with all that follows from it: one call of `run` in every slot of the
slice, and then the report or the return to the level. -/
def quantum (cfg : Config) (p : Pcb) (pc time : Nat) : List (Nat × Event) :=
  (time, .dispatch p pc) :: turns p pc time (slice cfg p pc) ++
    [(time + slice cfg p pc,
      if pc + slice cfg p pc = p.codeSize then .finish p else .put p)]

/-- A history of complete quanta. -/
def Quanta (cfg : Config) (l : List (Nat × Event)) : Prop :=
  ∃ qs : List (Pcb × Nat × Nat), l = (qs.map fun q => quantum cfg q.1 q.2.1 q.2.2).flatten

theorem quanta_nil (cfg : Config) : Quanta cfg [] := ⟨[], rfl⟩

theorem Quanta.append {cfg : Config} {l : List (Nat × Event)} (h : Quanta cfg l) (p : Pcb)
    (pc time : Nat) : Quanta cfg (l ++ quantum cfg p pc time) := by
  rcases h with ⟨qs, rfl⟩
  exact ⟨qs ++ [(p, pc, time)], by simp⟩

theorem turns_succ (p : Pcb) (pc time m : Nat) :
    turns p pc time (m + 1) = turns p pc time m ++ [(time + m, .run p (pc + m))] := by
  simp [turns, List.range_succ]

theorem turns_prefix (p : Pcb) (pc time : Nat) {k m : Nat} (h : k ≤ m) :
    turns p pc time k <+: turns p pc time m := by
  have htake : turns p pc time k = (turns p pc time m).take k := by
    simp [turns, List.take_range, ← List.map_take, min_eq_left h]
  rw [htake]
  exact List.take_prefix _ _

/-! ## One CPU -/

/-- The history ends in an unfinished quantum of `p`: `k` slots of the slice are over, the next one
is `slot`. -/
def InSlice (cfg : Config) (p : Pcb) (pc slot : Nat) (timeLeft : Int) (l : List (Nat × Event)) :
    Prop :=
  ∃ pre pc₀ time k, Quanta cfg pre ∧ l = pre ++ (time, .dispatch p pc₀) :: turns p pc₀ time k ∧
    pc = pc₀ + k ∧ slot = time + k ∧ timeLeft = cfg.timeSlot - k ∧ 0 ≤ timeLeft ∧
    pc ≤ p.codeSize

/-- What `proc`, `time_left` and `pc` say at each program point about the history of the CPU. -/
def CpuAt (cfg : Config) (cpu : Cpu) (progCounter : Nat → Nat) (slot : Nat)
    (l : List (Nat × Event)) : Prop :=
  match cpu.pc with
  -- without a process, nothing is left of a slice
  | .loop none | .getIdle | .getNext | .recheck none | .slot none | .stopped =>
      cpu.timeLeft = 0 ∧ Quanta cfg l
  | .putReady p => cpu.timeLeft = 0 ∧ Quanta cfg l ∧ progCounter p.pid < p.codeSize
  | .recheck (some p) => progCounter p.pid < p.codeSize ∧
      (cpu.timeLeft = 0 ∧ Quanta cfg l ∨
        cpu.timeLeft ≠ 0 ∧ InSlice cfg p (progCounter p.pid) slot cpu.timeLeft l)
  | .exec p => InSlice cfg p (progCounter p.pid) slot cpu.timeLeft l ∧
      progCounter p.pid < p.codeSize ∧ cpu.timeLeft ≠ 0
  | .slot (some p) => InSlice cfg p (progCounter p.pid) (slot + 1) cpu.timeLeft l
  | .loop (some p) => InSlice cfg p (progCounter p.pid) slot cpu.timeLeft l
  | .putRunning p => InSlice cfg p (progCounter p.pid) slot cpu.timeLeft l ∧
      progCounter p.pid < p.codeSize ∧ cpu.timeLeft = 0

/-- The slice is over when the time or the program is. -/
theorem InSlice.close {cfg : Config} {p : Pcb} {pc slot : Nat} {timeLeft : Int}
    {l : List (Nat × Event)} (h : InSlice cfg p pc slot timeLeft l)
    (hover : timeLeft = 0 ∨ pc = p.codeSize) :
    Quanta cfg (l ++ [(slot, if pc = p.codeSize then .finish p else .put p)]) := by
  rcases h with ⟨pre, pc₀, time, k, hpre, rfl, rfl, rfl, htime, hpos, hle⟩
  have hslice : slice cfg p pc₀ = k := by
    unfold slice
    omega
  have hquanta := hpre.append p pc₀ time
  simpa [quantum, hslice] using hquanta

/-- A dispatch opens a slice. -/
theorem InSlice.dispatch {cfg : Config} {p : Pcb} {pc slot : Nat} {l : List (Nat × Event)}
    (h : Quanta cfg l) (hts : 0 < cfg.timeSlot) (hpc : pc < p.codeSize) :
    InSlice cfg p pc slot cfg.timeSlot (l ++ [(slot, .dispatch p pc)]) :=
  ⟨l, pc, slot, 0, h, by simp [turns], rfl, rfl, by simp, hts.le, hpc.le⟩

/-- A call of `run` uses up a slot and an instruction. -/
theorem InSlice.run {cfg : Config} {p : Pcb} {pc slot : Nat} {timeLeft : Int}
    {l : List (Nat × Event)} (h : InSlice cfg p pc slot timeLeft l) (hpc : pc < p.codeSize)
    (htime : timeLeft ≠ 0) :
    InSlice cfg p (pc + 1) (slot + 1) (timeLeft - 1) (l ++ [(slot, .run p pc)]) := by
  rcases h with ⟨pre, pc₀, time, k, hpre, rfl, rfl, rfl, hleft, hpos, _⟩
  refine ⟨pre, pc₀, time, k + 1, hpre, ?_, rfl, rfl, ?_, by omega, hpc⟩
  · simp [turns_succ]
  · push_cast
    omega

/-- An unfinished quantum is the beginning of a complete one. -/
theorem InSlice.quanta {cfg : Config} {p : Pcb} {pc slot : Nat} {timeLeft : Int}
    {l : List (Nat × Event)} (h : InSlice cfg p pc slot timeLeft l) :
    ∃ l', Quanta cfg l' ∧ l <+: l' := by
  rcases h with ⟨pre, pc₀, time, k, hpre, rfl, rfl, _, hleft, hpos, hle⟩
  refine ⟨_, hpre.append p pc₀ time, ?_⟩
  -- the slice has at least the `k` turns taken so far
  have hk : k ≤ slice cfg p pc₀ := by
    unfold slice
    omega
  rcases turns_prefix p pc₀ time hk with ⟨rest, hrest⟩
  rw [quantum, ← hrest]
  simp

/-- Whatever a CPU is at, its history is one of complete quanta up to the last. -/
theorem CpuAt.quanta {cfg : Config} {cpu : Cpu} {progCounter : Nat → Nat} {slot : Nat}
    {l : List (Nat × Event)} (h : CpuAt cfg cpu progCounter slot l) :
    ∃ l', Quanta cfg l' ∧ l <+: l' := by
  have hclosed : Quanta cfg l → ∃ l', Quanta cfg l' ∧ l <+: l' :=
    fun hq => ⟨l, hq, List.prefix_refl l⟩
  unfold CpuAt at h
  cases hpc : cpu.pc with
  | loop proc | slot proc =>
      simp only [hpc] at h
      cases proc with
      | none => exact hclosed h.2
      | some p => exact h.quanta
  | recheck proc =>
      simp only [hpc] at h
      cases proc with
      | none => exact hclosed h.2
      | some p =>
          rcases h.2 with hidle | hslice
          · exact hclosed hidle.2
          · exact hslice.2.quanta
  | putReady p =>
      simp only [hpc] at h
      exact hclosed h.2.1
  | putRunning p =>
      simp only [hpc] at h
      exact h.1.quanta
  | exec p =>
      simp only [hpc] at h
      exact h.1.quanta
  | _ =>
      simp only [hpc] at h
      exact hclosed h.2

/-- Step lemma for a CPU: what the program points say stays true, with the event of the step noted
at the time of the slot. -/
theorem CpuAt.step {cfg : Config} {s : Os cfg} {c : Fin cfg.numCpus} {slot : Nat}
    {l : List (Nat × Event)} (hts : 0 < cfg.timeSlot)
    (hwait : ∀ p, s.sched.Waiting p → s.progCounter p.pid < p.codeSize)
    (h : CpuAt cfg (s.cpus c) s.progCounter slot l) :
    CpuAt cfg ((s.cpuStep c).cpus c) (s.cpuStep c).progCounter
      (if Simulator.cpuCall (s.cpus c).pc = .nextSlot then slot + 1 else slot)
      (l ++ ((s.cpuEvent c).map fun e => (slot, e)).toList) := by
  cases hpc : (s.cpus c).pc with
  | loop proc =>
      cases proc with
      | none =>
          simp only [CpuAt, hpc] at h
          simpa [Os.cpuStep, Os.cpuEvent, hpc, CpuAt, Os.setCpu, Simulator.cpuCall] using h
      | some p =>
          simp only [CpuAt, hpc] at h
          by_cases hfin : s.Finished p
          · -- the program is over, and with it the slice
            have hclose := h.close (Or.inr hfin)
            rw [if_pos (show s.progCounter p.pid = p.codeSize from hfin)] at hclose
            simpa [Os.cpuStep, Os.cpuEvent, hpc, hfin, CpuAt, Os.setCpu, Simulator.cpuCall]
              using hclose
          · have hlt : s.progCounter p.pid < p.codeSize := by
              rcases h with ⟨pre, pc₀, time, k, _, _, _, _, _, _, hle⟩
              exact lt_of_le_of_ne hle hfin
            by_cases htime : (s.cpus c).timeLeft = 0
            · simpa [Os.cpuStep, Os.cpuEvent, hpc, hfin, htime, CpuAt, Os.setCpu,
                Simulator.cpuCall, hlt] using h
            · simpa [Os.cpuStep, Os.cpuEvent, hpc, hfin, htime, CpuAt, Os.setCpu,
                Simulator.cpuCall, hlt] using h
  | getIdle | getNext =>
      -- both take a process whose program is not over
      simp only [CpuAt, hpc] at h
      cases hget : s.sched.getProc with
      | none =>
          simpa [Os.cpuStep, Os.cpuEvent, hpc, hget, CpuAt, Os.setCpu, Simulator.cpuCall] using h
      | some r =>
          have hlt := hwait _ (Sched.waiting_of_getProc hget)
          simpa [Os.cpuStep, Os.cpuEvent, hpc, hget, CpuAt, Os.setCpu, Simulator.cpuCall, hlt, h.1]
            using h.2
  | putRunning p =>
      -- the time is over, the program is not
      simp only [CpuAt, hpc] at h
      rcases h with ⟨hslice, hlt, htime⟩
      have hclose := hslice.close (Or.inl htime)
      rw [if_neg hlt.ne] at hclose
      simpa [Os.cpuStep, Os.cpuEvent, hpc, CpuAt, Os.setCpu, Simulator.cpuCall, hlt, htime]
        using hclose
  | putReady p =>
      simp only [CpuAt, hpc] at h
      simpa [Os.cpuStep, Os.cpuEvent, hpc, CpuAt, Os.setCpu, Simulator.cpuCall]
        using And.intro h.1 h.2.1
  | recheck proc =>
      cases proc with
      | none =>
          simp only [CpuAt, hpc] at h
          by_cases hdone : s.done = true
          · simpa [Os.cpuStep, Os.cpuEvent, hpc, hdone, CpuAt, Os.setCpu, Simulator.cpuCall]
              using h
          · simpa [Os.cpuStep, Os.cpuEvent, hpc, hdone, CpuAt, Os.setCpu, Simulator.cpuCall]
              using h
      | some p =>
          simp only [CpuAt, hpc] at h
          rcases h with ⟨hlt, ⟨htime, hquanta⟩ | ⟨htime, hslice⟩⟩
          · -- a new process gets a full slice
            have hopen : InSlice cfg p (s.progCounter p.pid) slot cfg.timeSlot _ :=
              InSlice.dispatch hquanta hts hlt
            simpa [Os.cpuStep, Os.cpuEvent, hpc, htime, CpuAt, Os.setCpu, Simulator.cpuCall, hlt,
              hts.ne'] using hopen
          · simpa [Os.cpuStep, Os.cpuEvent, hpc, htime, CpuAt, Os.setCpu, Simulator.cpuCall, hlt]
              using hslice
  | exec p =>
      simp only [CpuAt, hpc] at h
      rcases h with ⟨hslice, hlt, htime⟩
      have hrun := hslice.run hlt htime
      have hpcs : s.runPc p = Function.update s.progCounter p.pid (s.progCounter p.pid + 1) :=
        if_neg (not_le.2 hlt)
      simpa [Os.cpuStep, Os.cpuEvent, hpc, CpuAt, Os.setCpu, Simulator.cpuCall, hpcs] using hrun
  | slot proc =>
      cases proc with
      | none =>
          simp only [CpuAt, hpc] at h
          simpa [Os.cpuStep, Os.cpuEvent, hpc, CpuAt, Os.setCpu, Simulator.cpuCall] using h
      | some p =>
          simp only [CpuAt, hpc] at h
          simpa [Os.cpuStep, Os.cpuEvent, hpc, CpuAt, Os.setCpu, Simulator.cpuCall] using h
  | stopped =>
      simp only [CpuAt, hpc] at h
      simpa [Os.cpuStep, Os.cpuEvent, hpc, CpuAt, Simulator.cpuCall] using h

/-- A CPU looks at the `pc` of its own process only. -/
theorem CpuAt.congr {cfg : Config} {cpu : Cpu} {progCounter progCounter' : Nat → Nat} {slot : Nat}
    {l : List (Nat × Event)} (h : CpuAt cfg cpu progCounter slot l)
    (heq : ∀ q, cpu.pc.current = some q → progCounter' q.pid = progCounter q.pid) :
    CpuAt cfg cpu progCounter' slot l := by
  unfold CpuAt at h ⊢
  cases hpc : cpu.pc with
  | loop proc | slot proc | recheck proc =>
      cases proc with
      | none => simpa [hpc] using h
      | some q => simpa [hpc, heq q (by simp [hpc, CpuPc.current])] using h
  | putRunning q | putReady q | exec q =>
      simpa [hpc, heq q (by simp [hpc, CpuPc.current])] using h
  | getIdle => simpa [hpc] using h
  | getNext => simpa [hpc] using h
  | stopped => simpa [hpc] using h

/-! ## All CPUs -/

/-- An event with the CPU and the time. -/
structure Entry (cfg : Config) where
  cpu : Fin cfg.numCpus
  time : Nat
  event : Event

/-- The part of an entry that belongs to CPU `c`. -/
def Entry.atCpu {cfg : Config} (c : Fin cfg.numCpus) (e : Entry cfg) : Option (Nat × Event) :=
  if e.cpu = c then some (e.time, e.event) else none

/-- The instruction of `p` that an entry executes. -/
def Entry.runOf {cfg : Config} (p : Pcb) (e : Entry cfg) : Option Nat :=
  match e.event with
  | .run q pc => if q = p then some pc else none
  | _ => none

/-- The simulator with everything the CPUs have done so far. -/
structure History (cfg : Config) where
  sim : Simulator cfg
  log : List (Entry cfg)

namespace History

variable {cfg : Config}

/-- What an action adds to the log. -/
def newEntry (s : Simulator cfg) : Simulator.Action cfg → Option (Entry cfg)
  | .cpu c => (s.os.cpuEvent c).map fun e => ⟨c, s.timer.time, e⟩
  | _ => none

def init (cfg : Config) : History cfg := ⟨Simulator.init cfg, []⟩

def exec (h : History cfg) (a : Simulator.Action cfg) : Option (History cfg) :=
  (h.sim.exec a).map fun sim => ⟨sim, h.log ++ (newEntry h.sim a).toList⟩

/-- The history of CPU `c`. -/
def ofCpu (h : History cfg) (c : Fin cfg.numCpus) : List (Nat × Event) :=
  h.log.filterMap (Entry.atCpu c)

/-- The indices of the instructions of `p` executed so far, on whatever CPU. -/
def executed (h : History cfg) (p : Pcb) : List Nat := h.log.filterMap (Entry.runOf p)

/-- The CPUs keep to the quanta, and every process is executed in program order. -/
structure InOrder (h : History cfg) : Prop where
  /-- the history of a CPU is one of complete quanta, up to the one it is in -/
  quanta : ∀ c, ∃ l, Quanta cfg l ∧ h.ofCpu c <+: l
  /-- the instructions executed are the first ones of the program, in order, each once -/
  executed : ∀ p ∈ cfg.procs, h.executed p = List.range (h.sim.os.progCounter p.pid)
  /-- `run` is not called behind the end of a program -/
  inProgram : ∀ e ∈ h.log, ∀ p pc, e.event = .run p pc → pc < p.codeSize

/-! ## The invariant -/

/-- What the threads know about the programs: no process in a level is over, and none that is still
to come has begun. -/
structure Programs (s : Os cfg) : Prop where
  counted : s.places.Counted
  waiting : ∀ p, s.sched.Waiting p → s.progCounter p.pid < p.codeSize
  coming : ∀ p ∈ cfg.procs.drop s.loader.i, s.progCounter p.pid = 0

structure Inv (h : History cfg) : Prop where
  sound : h.sim.Sound
  programs : Programs h.sim.os
  cpus : ∀ c, CpuAt cfg (h.sim.os.cpus c) h.sim.os.progCounter
    (h.sim.timer.devList (Simulator.cpuDevice c)).slot (h.ofCpu c)
  executed : ∀ p ∈ cfg.procs, h.executed p = List.range (h.sim.os.progCounter p.pid)
  inProgram : ∀ e ∈ h.log, ∀ p pc, e.event = .run p pc → pc < p.codeSize

/-- A process on its way back to its level is not over. -/
theorem Inv.putReady {h : History cfg} (hinv : h.Inv) (c : Fin cfg.numCpus) (p : Pcb)
    (hpc : (h.sim.os.cpus c).pc = .putReady p) :
    h.sim.os.progCounter p.pid < p.codeSize := by
  have hcpu := hinv.cpus c
  simp only [CpuAt, hpc] at hcpu
  exact hcpu.2.2

theorem inv_init (cfg : Config) : (init cfg).Inv := by
  refine ⟨Simulator.sound_init cfg, ⟨fun p => ?_, fun p hp => ?_, fun p _ => rfl⟩, fun c => ?_,
    fun p _ => rfl, fun e he => by simp [init] at he⟩
  · simp [Places.total, Os.places, init, Simulator.init, Os.init, Os.current, CpuPc.current]
  · rcases hp with ⟨k, hk⟩
    simp [init, Simulator.init, Os.init] at hk
  · exact ⟨rfl, quanta_nil cfg⟩

/-! ## Steps -/

theorem onePlace_of_counted {s : Os cfg} (h : s.places.Counted) : s.OnePlace :=
  Os.onePlace_of_total_le fun p =>
    (h p).trans (List.nodup_iff_count_le_one.1 cfg.procs_nodup p)

/-- A CPU increments the `pc` of its own process only. -/
theorem progCounter_of_ne {s : Os cfg} (h : s.places.Counted) {c : Fin cfg.numCpus} {q : Pcb}
    (hq : q ∈ cfg.procs) (hne : s.current c ≠ some q) :
    (s.cpuStep c).progCounter q.pid = s.progCounter q.pid := by
  rcases (s.cpuStep_move c).progCounter with heq | ⟨p, hpc, heq⟩
  · rw [heq]
  · have hcur : s.current c = some p := by simp [Os.current, hpc, CpuPc.current]
    have hp : p ∈ cfg.procs := Os.mem_procs_of_held h (Or.inr ⟨c, hcur⟩)
    -- another process has another `pid`
    have hpid : q.pid ≠ p.pid := by
      intro hpid
      obtain rfl := Config.eq_of_pid_eq hq hp hpid
      exact hne hcur
    rw [heq, Os.runPc]
    split
    · rfl
    · exact Function.update_of_ne hpid _ _

theorem Programs.cpuStep {s : Os cfg} (h : Programs s) {c : Fin cfg.numCpus}
    (hput : ∀ p, (s.cpus c).pc = .putReady p → s.progCounter p.pid < p.codeSize) :
    Programs (s.cpuStep c) := by
  have hmove := (s.cpuStep_move c).onPlaces
  refine ⟨hmove.counted h.counted, fun q hq => ?_, fun q hq => ?_⟩
  · rcases hq with ⟨k, hk⟩
    rcases hmove.mem_level hk with hbefore | henter
    · -- a process that waits is not the one the CPU runs
      have hwait : s.sched.Waiting q := ⟨k, hbefore⟩
      have hne := (onePlace_of_counted h.counted).not_current hwait c
      rw [progCounter_of_ne h.counted (Os.mem_procs_of_held h.counted (Or.inl hwait)) hne]
      exact h.waiting q hwait
    · -- one that enters has just been put back
      have hpc : (s.cpus c).pc = .putReady q := by
        unfold Os.entering at henter
        dsimp only at henter
        split at henter
        · rename_i hpc
          exact hpc.trans (congrArg _ (Option.some.inj henter))
        · cases henter
      rcases (s.cpuStep_move c).progCounter with heq | ⟨p, hexec, _⟩
      · rw [heq]
        exact hput q hpc
      · rw [hpc] at hexec
        cases hexec
  · have hdrop : q ∈ cfg.procs.drop s.loader.i := hmove.drop_subset hq
    have hne : s.current c ≠ some q := by
      intro hcur
      exact (List.disjoint_take_drop cfg.procs_nodup (Nat.le_refl _))
        (Os.added_of_current h.counted hcur).1 hdrop
    rw [progCounter_of_ne h.counted (List.mem_of_mem_drop hdrop) hne]
    exact h.coming q hdrop

theorem Programs.loaderStep {s : Os cfg} (h : Programs s)
    (hsize : ∀ p ∈ cfg.procs, 1 ≤ p.codeSize) : Programs s.loaderStep := by
  have hmove := s.loaderStep_move.onPlaces
  have hpcs : s.loaderStep.progCounter = s.progCounter := s.loaderStep_move.frame.2.1
  refine ⟨hmove.counted h.counted, fun q hq => ?_, fun q hq => ?_⟩
  · rw [hpcs]
    rcases hq with ⟨k, hk⟩
    rcases hmove.mem_level hk with hbefore | henter
    · exact h.waiting q ⟨k, hbefore⟩
    · -- a new process starts at the first of its instructions
      have hnext : cfg.procs[s.loader.i]? = some q := by
        unfold Os.entering at henter
        dsimp only at henter
        split at henter
        · exact henter
        · cases henter
      rcases List.getElem?_eq_some_iff.1 hnext with ⟨hlt, hget⟩
      have hdrop : q ∈ cfg.procs.drop s.loader.i := by
        rw [List.drop_eq_getElem_cons hlt, hget]
        exact List.mem_cons_self
      rw [h.coming q hdrop]
      exact hsize q (List.mem_of_mem_drop hdrop)
  · rw [hpcs]
    exact h.coming q (hmove.drop_subset hq)

/-- A step of the simulator keeps what is known about the programs. -/
theorem Programs.exec {s s' : Simulator cfg} {a : Simulator.Action cfg} (h : Programs s.os)
    (hsize : ∀ p ∈ cfg.procs, 1 ≤ p.codeSize)
    (hput : ∀ c p, (s.os.cpus c).pc = .putReady p → s.os.progCounter p.pid < p.codeSize)
    (hexec : s.exec a = some s') : Programs s'.os := by
  cases Simulator.exec_kind hexec with
  | timer b _ _ _ _ hos =>
      rw [hos]
      exact ⟨h.counted, h.waiting, h.coming⟩
  | cpu c _ _ _ hos =>
      rw [hos]
      exact h.cpuStep (hput c)
  | loader _ _ _ hos =>
      rw [hos]
      exact h.loaderStep hsize
  | kill b hb hos =>
      rcases Os.act_kill hb hos with ⟨sched, heq, hsub⟩
      have hcounted : s'.os.places.Counted :=
        fun p => (Os.act_total_le hos p).trans (h.counted p)
      rw [heq] at hcounted ⊢
      refine ⟨hcounted, fun q hq => ?_, h.coming⟩
      rcases hq with ⟨k, hk⟩
      exact h.waiting q ⟨k, (hsub k).subset hk⟩

/-- Nobody but a CPU changes the variables of the CPUs. -/
theorem exec_cpus {s s' : Simulator cfg} {a : Simulator.Action cfg} (hexec : s.exec a = some s')
    (ha : ∀ c, a ≠ .cpu c) :
    s'.os.cpus = s.os.cpus ∧ s'.os.progCounter = s.os.progCounter := by
  cases Simulator.exec_kind hexec with
  | timer _ _ _ _ _ hos =>
      rw [hos]
      exact ⟨rfl, rfl⟩
  | cpu c hc => exact absurd hc (ha c)
  | loader _ _ _ hos =>
      rcases s.os.loaderStep_move.frame with ⟨hcpus, hpcs, _⟩
      rw [hos]
      exact ⟨hcpus, hpcs⟩
  | kill b hb hos =>
      rcases Os.act_kill hb hos with ⟨sched, heq, _⟩
      rw [heq]
      exact ⟨rfl, rfl⟩

/-- A step that is none of a CPU. -/
theorem Inv.otherStep {h h' : History cfg} {a : Simulator.Action cfg} (hinv : h.Inv)
    (hsize : ∀ p ∈ cfg.procs, 1 ≤ p.codeSize) (ha : ∀ c, a ≠ .cpu c)
    (hexec : h.exec a = some h') : h'.Inv := by
  rcases Option.map_eq_some_iff.1 hexec with ⟨sim, hsim, rfl⟩
  have hnoEntry : newEntry h.sim a = none := by
    cases a with
    | cpu c => exact absurd rfl (ha c)
    | _ => rfl
  rcases exec_cpus hsim ha with ⟨hcpus, hpcs⟩
  have hsound := hinv.sound.exec hsim
  have hprograms := hinv.programs.exec hsize hinv.putReady hsim
  simp only [hnoEntry, Option.toList_none, List.append_nil]
  refine ⟨hsound, hprograms, fun c => ?_, ?_, hinv.inProgram⟩
  · have hslot := (Simulator.exec_device hsim (fun d hd => absurd hd (ha d))
      (fun _ => Simulator.cpuDevice_ne_ldDevice c)).slot
    rw [hcpus, hpcs, hslot]
    exact hinv.cpus c
  · rw [hpcs]
    exact hinv.executed

/-- A CPU in front of `run` has a process that is not over. -/
theorem Inv.exec_lt {h : History cfg} (hinv : h.Inv) {c : Fin cfg.numCpus} {p : Pcb}
    (hpc : (h.sim.os.cpus c).pc = .exec p) : h.sim.os.progCounter p.pid < p.codeSize := by
  have hcpu := hinv.cpus c
  simp only [CpuAt, hpc] at hcpu
  exact hcpu.2.1

/-- Step lemma for the instructions of a process: the one at `pc` is executed and `pc` incremented,
or neither. -/
theorem Inv.executed_cpuStep {h : History cfg} (hinv : h.Inv) (c : Fin cfg.numCpus) {p : Pcb}
    (hp : p ∈ cfg.procs) :
    (h.log ++ (newEntry h.sim (.cpu c)).toList).filterMap (Entry.runOf p) =
      List.range ((h.sim.os.cpuStep c).progCounter p.pid) := by
  have hexecuted : h.log.filterMap (Entry.runOf p) = List.range (h.sim.os.progCounter p.pid) :=
    hinv.executed p hp
  rw [List.filterMap_append, hexecuted]
  by_cases hpc : (h.sim.os.cpus c).pc = .exec p
  · have hpcs : (h.sim.os.cpuStep c).progCounter p.pid = h.sim.os.progCounter p.pid + 1 := by
      simp [Os.cpuStep, hpc, Os.runPc, not_le.2 (hinv.exec_lt hpc)]
    have hentry : List.filterMap (Entry.runOf p) (newEntry h.sim (.cpu c)).toList =
        [h.sim.os.progCounter p.pid] := by
      simp [newEntry, Os.cpuEvent, hpc, Entry.runOf]
    rw [hentry, hpcs, List.range_succ]
  · have hentry : List.filterMap (Entry.runOf p) (newEntry h.sim (.cpu c)).toList = [] := by
      refine List.filterMap_eq_nil_iff.2 fun e he => ?_
      rcases Option.map_eq_some_iff.1 (Option.mem_toList.1 he) with ⟨ev, hev, rfl⟩
      cases ev with
      | run q n =>
          rcases Os.cpuEvent_eq_run hev with ⟨hq, rfl⟩
          have hne : q ≠ p := fun heq => hpc (heq ▸ hq)
          simp [Entry.runOf, hne]
      | _ => rfl
    have hpcs : (h.sim.os.cpuStep c).progCounter p.pid = h.sim.os.progCounter p.pid := by
      rcases (h.sim.os.cpuStep_move c).progCounter with heq | ⟨q, hq, _⟩
      · rw [heq]
      · refine progCounter_of_ne hinv.programs.counted hp fun hcur => ?_
        simp only [Os.current, hq, CpuPc.current, Option.some.injEq] at hcur
        exact hpc (hcur ▸ hq)
    rw [hentry, hpcs, List.append_nil]

/-- The other CPUs have nothing to do with the step of CPU `c`. -/
theorem Inv.cpuAt_of_ne {h : History cfg} (hinv : h.Inv) {sim : Simulator cfg}
    {c d : Fin cfg.numCpus} (hd : d ≠ c) (hsim : h.sim.exec (.cpu c) = some sim) :
    CpuAt cfg ((h.sim.os.cpuStep c).cpus d) (h.sim.os.cpuStep c).progCounter
      (sim.timer.devList (Simulator.cpuDevice d)).slot
      ((h.log ++ (newEntry h.sim (.cpu c)).toList).filterMap (Entry.atCpu d)) := by
  have hcounted := hinv.programs.counted
  have hlog : (h.log ++ (newEntry h.sim (.cpu c)).toList).filterMap (Entry.atCpu d) =
      h.ofCpu d := by
    rw [List.filterMap_append, ofCpu, newEntry]
    cases h.sim.os.cpuEvent c <;> simp [Entry.atCpu, Ne.symm hd]
  have hslot := (Simulator.exec_device (d := Simulator.cpuDevice d) hsim
    (fun e he => by
      obtain rfl : c = e := by simpa using he
      exact fun heq => hd (Simulator.cpuDevice_injective heq))
    (fun hld => by cases hld)).slot
  rw [hlog, hslot, (h.sim.os.cpuStep_move c).cpus_of_ne hd]
  refine (hinv.cpus d).congr fun q hq => progCounter_of_ne hcounted ?_ ?_
  · exact Os.mem_procs_of_held hcounted (Or.inr ⟨d, hq⟩)
  · exact fun hc => hd ((onePlace_of_counted hcounted).oneCpu q d c hq hc)

/-- A step of CPU `c`. -/
theorem Inv.cpuStep {h h' : History cfg} {c : Fin cfg.numCpus} (hinv : h.Inv)
    (hts : 0 < cfg.timeSlot) (hsize : ∀ p ∈ cfg.procs, 1 ≤ p.codeSize)
    (hexec : h.exec (.cpu c) = some h') : h'.Inv := by
  rcases Option.map_eq_some_iff.1 hexec with ⟨⟨os, timer⟩, hsim, rfl⟩
  have hsound := hinv.sound.exec hsim
  have hprograms := hinv.programs.exec hsize hinv.putReady hsim
  rcases Simulator.move_eq hsim with ⟨hwork, hcall, hos⟩
  obtain rfl : os = h.sim.os.cpuStep c := hos
  dsimp only at hcall
  have htime := hinv.sound.inv.time_eq_slot hwork
  refine ⟨hsound, hprograms, fun d => ?_, fun p hp => hinv.executed_cpuStep c hp,
    fun e he p pc hevent => ?_⟩
  · by_cases hd : d = c
    · subst hd
      have hstep := (hinv.cpus d).step hts hinv.programs.waiting
      have hlog : List.filterMap (Entry.atCpu d)
          (h.log ++ (newEntry h.sim (.cpu d)).toList) = h.ofCpu d ++
            ((h.sim.os.cpuEvent d).map fun e =>
              ((h.sim.timer.devList (Simulator.cpuDevice d)).slot, e)).toList := by
        rw [List.filterMap_append, ofCpu, newEntry, htime]
        cases h.sim.os.cpuEvent d <;> simp [Entry.atCpu]
      rw [← Simulator.call_slot hcall, ← hlog] at hstep
      exact hstep
    · exact hinv.cpuAt_of_ne hd hsim
  · rcases List.mem_append.1 he with hold | hnew
    · exact hinv.inProgram e hold p pc hevent
    · rcases Option.map_eq_some_iff.1 (Option.mem_toList.1 hnew) with ⟨ev, hev, rfl⟩
      obtain rfl : ev = .run p pc := hevent
      rcases Os.cpuEvent_eq_run hev with ⟨hpc, rfl⟩
      exact hinv.exec_lt hpc

theorem Inv.exec {h h' : History cfg} {a : Simulator.Action cfg} (hinv : h.Inv)
    (hts : 0 < cfg.timeSlot) (hsize : ∀ p ∈ cfg.procs, 1 ≤ p.codeSize)
    (hexec : h.exec a = some h') : h'.Inv := by
  cases a with
  | cpu c => exact hinv.cpuStep hts hsize hexec
  | _ => exact hinv.otherStep hsize (by simp) hexec

theorem Inv.inOrder {h : History cfg} (hinv : h.Inv) : h.InOrder :=
  ⟨fun c => (hinv.cpus c).quanta, hinv.executed, hinv.inProgram⟩

/-- For every time slot, every number of CPUs, every set of programs with at least one instruction
each and every interleaving: the CPUs work in quanta and each program is executed in order. -/
theorem quanta_inOrder (cfg : Config) (hts : 0 < cfg.timeSlot)
    (hsize : ∀ p ∈ cfg.procs, 1 ≤ p.codeSize) (as : List (Simulator.Action cfg)) :
    AllStates InOrder (init cfg) (traceFn exec (init cfg) as) := by
  rcases run_traceFn exec (init cfg) as with ⟨t, hrun⟩
  have hinv := hrun.allStates (I := Inv) (fun h hexec => h.exec hts hsize hexec) (inv_init cfg)
  exact ⟨hinv.1.inOrder, fun x hx => (hinv.2 x hx).inOrder⟩

/-- One CPU, slices of two slots, and a process of three instructions. -/
def short : Config where
  timeSlot := 2
  numCpus := 1
  ldProcesses := [⟨0, ascii "input/proc/p", 0⟩]
  program := fun _ => (1, List.replicate 3 ⟨.calc, 0, 0, 0, 0⟩)

/-- The process is dispatched, preempted behind its second instruction, dispatched again and
reported. -/
def shortRun : List (Simulator.Action short) :=
  let cpu : Simulator.Action short := .cpu ⟨0, by decide⟩
  let slot : List (Simulator.Action short) :=
    List.replicate 9 (.timer .timerRoutine) ++ [.timer (.resume ⟨0, by decide⟩)]
  List.replicate 5 .loader ++ List.replicate 5 cpu ++ slot ++ [.timer (.resume ⟨1, by decide⟩)] ++
    List.replicate 3 .loader ++ List.replicate 4 cpu ++ slot ++ List.replicate 7 cpu ++ slot ++
      [cpu]

theorem short_inOrder :
    AllStates InOrder (init short) (traceFn exec (init short) shortRun) ∧
      ∀ p ∈ short.procs, (runFn exec (init short) shortRun).map (fun h => h.ofCpu ⟨0, by decide⟩) =
        some (quantum short p 0 0 ++ quantum short p 2 2) :=
  ⟨quanta_inOrder short (by decide) (by decide) shortRun, by decide +kernel⟩

end History

end MiniOs
