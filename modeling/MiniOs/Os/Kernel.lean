import MiniOs.Os.Completion
import MiniOs.Paging.Calls

/-!
# Kernel — the simulator with the paged memory of its processes

The threads call the memory in three places: the loader creates the memory of a process in front of
`add_proc`, a CPU executes instructions in `run`, and a CPU frees the PCB of a process that is over.
The processes share RAM and the swap device, and every one of them has its own `mm_struct`.
-/

namespace MiniOs

open Lib PrivateBytes

/-- The threads with all that they have done, the paged memory, and the calls it has served. -/
structure Kernel (cfg : Config) where
  hist : History cfg
  mem : PagingSys
  made : List PagingSys.Op

namespace Kernel

variable {cfg : Config}

/-! ## Steps -/

/-- The loader numbers the processes from 1 on, in the order in which their memories are created. -/
def memId (p : Pcb) : ℕ := p.pid - 1

/-- The instruction that `p` executes next. -/
def nextInst (os : Os cfg) (p : Pcb) : Option Inst := p.code[os.progCounter p.pid]?

/-- What the next step of CPU `c` does to the memory. -/
def cpuMem (os : Os cfg) (c : Fin cfg.numCpus) (mem : PagingSys) : Option PagingSys :=
  match (os.cpus c).pc with
  -- run(proc)
  | .exec p =>
      match nextInst os p with
      | some ins => (mem.caller (memId p)).bind fun caller =>
          (caller.runInst ins).map fun r => mem.setCaller (memId p) r.2
      | none => some mem
  -- free(proc)
  | .loop (some p) => if os.Finished p then mem.exec (.finish (memId p)) else some mem
  | .loop none | .getIdle | .putRunning _ | .putReady _ | .getNext | .recheck _ | .slot _
  | .stopped => some mem

/-- The calls in this. -/
def cpuCalls (os : Os cfg) (c : Fin cfg.numCpus) : List PagingSys.Op :=
  match (os.cpus c).pc with
  | .exec p => ((nextInst os p).bind fun ins => ins.calls (memId p)).getD []
  | .loop (some p) => if os.Finished p then [.finish (memId p)] else []
  | .loop none | .getIdle | .putRunning _ | .putReady _ | .getNext | .recheck _ | .slot _
  | .stopped => []

/-- Whether the loader goes on to `add_proc` in its next step; in front of it is `init_mm`. -/
def Creates (os : Os cfg) : Prop :=
  os.loader.pc = .wait ∧ ∃ l ∈ cfg.ldProcesses[os.loader.i]?, ¬ os.time < l.startTime

instance (os : Os cfg) : Decidable (Creates os) := inferInstanceAs (Decidable (_ ∧ _))

def loaderCalls (os : Os cfg) : List PagingSys.Op := if Creates os then [.initMm] else []

/-- The name that CPU `c` reads for `killall`, up to its terminator. -/
def procName (os : Os cfg) (c : Fin cfg.numCpus) (mem : PagingSys) : Option CString :=
  match (os.cpus c).pc with
  | .exec p =>
      match nextInst os p with
      | some ins => (mem.caller (memId p)).bind fun caller =>
          (caller.killallName ins.arg1 99 0).map fun r => r.1.takeWhile (· ≠ 0)
      | none => none
  | _ => none

/-- What an action does to the memory.  A pass of `killall` looks for the name that was read. -/
def actMem (os : Os cfg) (mem : PagingSys) : Simulator.Action cfg → Option PagingSys
  | .timer _ => some mem
  | .cpu c => cpuMem os c mem
  | .loader => runFn PagingSys.exec mem (loaderCalls os)
  | .killRunning c targetName | .killReady c targetName =>
      if procName os c mem = some targetName then some mem else none

def actCalls (os : Os cfg) : Simulator.Action cfg → List PagingSys.Op
  | .cpu c => cpuCalls os c
  | .loader => loaderCalls os
  | .timer _ | .killRunning _ _ | .killReady _ _ => []

def init (cfg : Config) (ramsz swpsz : Nat) : Kernel cfg :=
  ⟨History.init cfg, PagingSys.start ramsz swpsz true true, []⟩

def exec (k : Kernel cfg) (a : Simulator.Action cfg) : Option (Kernel cfg) :=
  (k.hist.exec a).bind fun hist => (actMem k.hist.sim.os k.mem a).map fun mem =>
    ⟨hist, mem, k.made ++ actCalls k.hist.sim.os a⟩

/-- The threads do not notice the memory. -/
theorem exec_hist {k k' : Kernel cfg} {a : Simulator.Action cfg} (h : k.exec a = some k') :
    k.hist.exec a = some k'.hist ∧ actMem k.hist.sim.os k.mem a = some k'.mem ∧
      k'.made = k.made ++ actCalls k.hist.sim.os a := by
  rcases Option.bind_eq_some_iff.1 h with ⟨hist, hhist, hmap⟩
  rcases Option.map_eq_some_iff.1 hmap with ⟨mem, hmem, rfl⟩
  exact ⟨hhist, hmem, rfl⟩

/-! ## The memory is what the calls make of it -/

/-- No program works on the devices directly. -/
def PlainPrograms (cfg : Config) : Prop := ∀ p ∈ cfg.procs, ∀ ins ∈ p.code, ins.Plain

instance (cfg : Config) : Decidable (PlainPrograms cfg) :=
  inferInstanceAs (Decidable (∀ p ∈ cfg.procs, ∀ ins ∈ p.code, ins.Plain))

theorem mem_procs_of_exec {os : Os cfg} (h : os.places.Counted) {c : Fin cfg.numCpus} {p : Pcb}
    (hpc : (os.cpus c).pc = .exec p) : p ∈ cfg.procs := by
  have hcur : os.current c = some p := by simp only [Os.current, hpc, CpuPc.current]
  exact Os.mem_procs_of_held h (Or.inr ⟨c, hcur⟩)

theorem cpuMem_calls {os : Os cfg} (hplain : PlainPrograms cfg) (h : os.places.Counted)
    {c : Fin cfg.numCpus} {mem mem' : PagingSys} (hmem : cpuMem os c mem = some mem') :
    runFn PagingSys.exec mem (cpuCalls os c) = some mem' := by
  unfold cpuMem at hmem
  unfold cpuCalls
  cases hpc : (os.cpus c).pc with
  | exec p =>
      simp only [hpc] at hmem ⊢
      cases hins : nextInst os p with
      | none =>
          simp only [hins] at hmem ⊢
          exact hmem
      | some ins =>
          simp only [hins] at hmem ⊢
          rcases Option.bind_eq_some_iff.1 hmem with ⟨caller, hcaller, hrun⟩
          have hcode : ins ∈ p.code := List.mem_of_getElem? hins
          rcases (hplain p (mem_procs_of_exec h hpc) ins hcode).calls (memId p) with ⟨ops, hops⟩
          rw [Option.bind_some, hops, Option.getD_some, ← Caller.runInst_calls hcaller hops]
          exact hrun
  | loop proc =>
      cases proc with
      | none =>
          simp only [hpc] at hmem ⊢
          exact hmem
      | some p =>
          simp only [hpc] at hmem ⊢
          split
          · rename_i hfin
            rw [if_pos hfin] at hmem
            rw [runFn, hmem]
            rfl
          · rename_i hfin
            rw [if_neg hfin] at hmem
            exact hmem
  | _ =>
      simp only [hpc] at hmem ⊢
      exact hmem

theorem actMem_calls {os : Os cfg} (hplain : PlainPrograms cfg) (h : os.places.Counted)
    {a : Simulator.Action cfg} {mem mem' : PagingSys} (hmem : actMem os mem a = some mem') :
    runFn PagingSys.exec mem (actCalls os a) = some mem' := by
  cases a with
  | timer b => exact hmem
  | cpu c => exact cpuMem_calls hplain h hmem
  | loader => exact hmem
  | killRunning c name | killReady c name =>
      simp only [actMem] at hmem
      split at hmem
      · exact hmem
      · cases hmem

/-! ## The calls of a process -/

/-- The calls of a program, made by a process that is there alone. -/
def programCalls (code : List Inst) : List PagingSys.Op :=
  code.flatMap fun ins => (ins.calls 0).getD []

/-- What process `p` has called so far, by its `pc`. -/
def callsBy (os : Os cfg) (p : Pcb) : List PagingSys.Op :=
  programCalls (p.code.take (os.progCounter p.pid))

theorem callsOf_append (i : ℕ) (ops ops' : List PagingSys.Op) :
    callsOf i (ops ++ ops') = callsOf i ops ++ callsOf i ops' := by
  simp [callsOf]

theorem callsOf_other {i : ℕ} {ops : List PagingSys.Op} (h : ∀ op ∈ ops, callerOf op ≠ some i) :
    callsOf i ops = [] := by
  have hfilter : ops.filter (isBy i) = [] :=
    List.filter_eq_nil_iff.2 fun op hop => by simpa [isBy] using h op hop
  rw [callsOf, hfilter, List.map_nil]

theorem callsOf_self {i : ℕ} {ops : List PagingSys.Op} (h : ∀ op ∈ ops, callerOf op = some i) :
    callsOf i ops = ops.map asFirst := by
  have hfilter : ops.filter (isBy i) = ops :=
    List.filter_eq_self.2 fun op hop => by simpa [isBy] using h op hop
  rw [callsOf, hfilter]

theorem pid_pos {p : Pcb} (hp : p ∈ cfg.procs) : 1 ≤ p.pid := by
  rcases List.mem_iff_getElem?.1 hp with ⟨i, hi⟩
  simp only [Config.procs, List.getElem?_mapIdx, Option.map_eq_some_iff] at hi
  rcases hi with ⟨l, _, rfl⟩
  exact Nat.le_add_left 1 i

theorem memId_injective {p q : Pcb} (hp : p ∈ cfg.procs) (hq : q ∈ cfg.procs)
    (h : memId p = memId q) : p = q := by
  have hpos := pid_pos hp
  have hpos' := pid_pos hq
  unfold memId at h
  exact Config.eq_of_pid_eq hp hq (by omega)

/-- What CPU `c` is about to do with the memory. -/
inductive CpuUses (os : Os cfg) (c : Fin cfg.numCpus) : Prop
  | run {q : Pcb} (hpc : (os.cpus c).pc = .exec q)
  | free {q : Pcb} (hpc : (os.cpus c).pc = .loop (some q)) (hfin : os.Finished q)
  | nothing (hcalls : cpuCalls os c = []) (hmem : ∀ mem, cpuMem os c mem = some mem)
      (hfreed : (os.cpuStep c).freed = os.freed)
      (hpcs : (os.cpuStep c).progCounter = os.progCounter)

/-- Elsewhere no PCB is freed and no instruction executed. -/
theorem quiet_cpuStep {os : Os cfg} {c : Fin cfg.numCpus}
    (hexec : ∀ q, (os.cpus c).pc ≠ .exec q)
    (hloop : ∀ q, (os.cpus c).pc = .loop (some q) → ¬ os.Finished q) :
    (os.cpuStep c).freed = os.freed ∧ (os.cpuStep c).progCounter = os.progCounter := by
  have hmove := os.cpuStep_move c
  generalize os.cpuStep c = s' at hmove ⊢
  cases hmove with
  | exec hpc => exact absurd hpc (hexec _)
  | finish hpc hfin => exact absurd hfin (hloop _ hpc)
  | _ => exact ⟨rfl, rfl⟩

theorem cpuUses (os : Os cfg) (c : Fin cfg.numCpus) : CpuUses os c := by
  have hnothing : (∀ q, (os.cpus c).pc ≠ .exec q) →
      (∀ q, (os.cpus c).pc = .loop (some q) → ¬ os.Finished q) → CpuUses os c := by
    intro hexec hloop
    rcases quiet_cpuStep hexec hloop with ⟨hfreed, hpcs⟩
    refine .nothing ?_ (fun mem => ?_) hfreed hpcs
    · unfold cpuCalls
      split
      · rename_i q hpc
        exact absurd hpc (hexec q)
      · rename_i q hpc
        exact if_neg (hloop q hpc)
      all_goals rfl
    · unfold cpuMem
      split
      · rename_i q hpc
        exact absurd hpc (hexec q)
      · rename_i q hpc
        exact if_neg (hloop q hpc)
      all_goals rfl
  by_cases hexec : ∃ q, (os.cpus c).pc = .exec q
  · rcases hexec with ⟨q, hpc⟩
    exact .run hpc
  · by_cases hloop : ∃ q, (os.cpus c).pc = .loop (some q) ∧ os.Finished q
    · rcases hloop with ⟨q, hpc, hfin⟩
      exact .free hpc hfin
    · exact hnothing (fun q hpc => hexec ⟨q, hpc⟩) fun q hpc hfin => hloop ⟨q, hpc, hfin⟩

theorem callsOf_calls {p q : Pcb} (hp : p ∈ cfg.procs) (hq : q ∈ cfg.procs) (ins : Inst) :
    callsOf (memId p) ((ins.calls (memId q)).getD []) =
      if q = p then (ins.calls 0).getD [] else [] := by
  by_cases hqp : q = p
  · subst hqp
    rw [if_pos rfl, callsOf_self fun _ => Inst.callerOf_of_mem_calls,
      Inst.calls_asFirst ins (memId q)]
    cases ins.calls (memId q) <;> rfl
  · rw [if_neg hqp]
    refine callsOf_other fun op hop heq => hqp (memId_injective hq hp ?_)
    exact Option.some.inj ((Inst.callerOf_of_mem_calls hop).symm.trans heq)

/-- Step lemma: an instruction adds its calls behind those of the instructions before it. -/
theorem callsBy_cpuStep {os : Os cfg} (h : os.places.Counted) (c : Fin cfg.numCpus) {p : Pcb}
    (hp : p ∈ cfg.procs) :
    callsBy (os.cpuStep c) p = callsBy os p ++ callsOf (memId p) (cpuCalls os c) := by
  cases cpuUses os c with
  | nothing hcalls _ _ hpcs =>
      rw [callsBy, hpcs, hcalls]
      exact (List.append_nil _).symm
  | @free q hpc hfin =>
      have hcalls : cpuCalls os c = [.finish (memId q)] := by simp only [cpuCalls, hpc, if_pos hfin]
      have hpcs : (os.cpuStep c).progCounter = os.progCounter := by
        simp only [Os.cpuStep, hpc, if_pos hfin, Os.setCpu_progCounter]
      rw [callsBy, hpcs, hcalls, callsOf_other (by simp [callerOf])]
      exact (List.append_nil _).symm
  | @run q hpc =>
      have hq := mem_procs_of_exec h hpc
      have hpcs : (os.cpuStep c).progCounter = os.runPc q := by simp only [Os.cpuStep, hpc]
      rw [callsBy, hpcs, callsBy]
      cases hins : nextInst os q with
      | none =>
          -- behind the end of the program nothing happens
          have hcalls : cpuCalls os c = [] := by simp [cpuCalls, hpc, hins]
          have hge : os.progCounter q.pid ≥ q.codeSize := List.getElem?_eq_none_iff.1 hins
          rw [Os.runPc, if_pos hge, hcalls]
          exact (List.append_nil _).symm
      | some ins =>
          have hcalls : cpuCalls os c = (ins.calls (memId q)).getD [] := by
            simp [cpuCalls, hpc, hins]
          rcases List.getElem?_eq_some_iff.1 hins with ⟨hlt, hget⟩
          have hnot : ¬ os.progCounter q.pid ≥ q.codeSize := not_le.2 hlt
          rw [Os.runPc, if_neg hnot, hcalls, callsOf_calls hp hq]
          by_cases hqp : q = p
          · subst hqp
            rw [Function.update_self, List.take_succ_eq_append_getElem hlt, hget]
            simp [programCalls]
          · have hpid : p.pid ≠ q.pid := fun heq => hqp (Config.eq_of_pid_eq hp hq heq).symm
            rw [Function.update_of_ne hpid, if_neg hqp]
            exact (List.append_nil _).symm

/-! ## The invariant -/

/-- The calls have led to the memory there is, and those of a process are the calls of its
instructions. -/
structure Inv (ramsz swpsz : Nat) (k : Kernel cfg) : Prop where
  counted : k.hist.sim.os.places.Counted
  served : runFn PagingSys.exec (PagingSys.start ramsz swpsz true true) k.made = some k.mem
  own : ∀ p ∈ cfg.procs, callsOf (memId p) k.made = callsBy k.hist.sim.os p

theorem inv_init (cfg : Config) (ramsz swpsz : Nat) : (init cfg ramsz swpsz).Inv ramsz swpsz :=
  ⟨(History.inv_init cfg).programs.counted, rfl, fun p _ => by
    simp [init, callsOf, callsBy, programCalls, History.init, Simulator.init, Os.init]⟩

/-- Nobody but a CPU executes instructions. -/
theorem callsBy_exec {s s' : Simulator cfg} {a : Simulator.Action cfg} (h : s.exec a = some s')
    (hcounted : s.os.places.Counted) {p : Pcb} (hp : p ∈ cfg.procs) :
    callsBy s'.os p = callsBy s.os p ++ callsOf (memId p) (actCalls s.os a) := by
  have hquiet : callsOf (memId p) (actCalls s.os a) = [] → s'.os.progCounter = s.os.progCounter →
      callsBy s'.os p = callsBy s.os p ++ callsOf (memId p) (actCalls s.os a) := by
    intro hcalls hpcs
    rw [hcalls, List.append_nil, callsBy, hpcs, callsBy]
  have hkill : (∃ c name, a = .killRunning c name ∨ a = .killReady c name) →
      s'.os.progCounter = s.os.progCounter := by
    intro ha
    rcases (Simulator.exec_kill h ha).2 with ⟨sched, heq, _⟩
    rw [heq]
  cases a with
  | timer b => exact hquiet rfl (by rw [(Simulator.exec_timerStep h).os])
  | cpu c =>
      rw [(Simulator.move_eq h).2.2]
      exact callsBy_cpuStep hcounted c hp
  | loader =>
      refine hquiet (callsOf_other fun op hop => ?_) ?_
      · simp only [actCalls, loaderCalls] at hop
        split at hop
        · rw [List.mem_singleton.1 hop]
          simp [callerOf]
        · cases hop
      · rw [(Simulator.move_eq h).2.2]
        exact s.os.loaderStep_move.frame.2.1
  | killRunning c name => exact hquiet rfl (hkill ⟨c, name, Or.inl rfl⟩)
  | killReady c name => exact hquiet rfl (hkill ⟨c, name, Or.inr rfl⟩)

theorem counted_exec {s s' : Simulator cfg} {a : Simulator.Action cfg} (h : s.exec a = some s')
    (hcounted : s.os.places.Counted) : s'.os.places.Counted := by
  cases Simulator.exec_kind h with
  | timer _ _ _ _ _ hos =>
      rw [hos]
      exact hcounted
  | cpu c _ _ _ hos =>
      rw [hos]
      exact (s.os.cpuStep_move c).onPlaces.counted hcounted
  | loader _ _ _ hos =>
      rw [hos]
      exact s.os.loaderStep_move.onPlaces.counted hcounted
  | kill b _ hos => exact fun p => (Os.act_total_le hos p).trans (hcounted p)

/-- Step lemma. -/
theorem Inv.exec {ramsz swpsz : Nat} {k k' : Kernel cfg} {a : Simulator.Action cfg}
    (h : k.Inv ramsz swpsz) (hplain : PlainPrograms cfg) (hexec : k.exec a = some k') :
    k'.Inv ramsz swpsz := by
  rcases exec_hist hexec with ⟨hhist, hmem, hmade⟩
  rcases Option.map_eq_some_iff.1 hhist with ⟨sim, hsim, hsimeq⟩
  have hos : k'.hist.sim = sim := by rw [← hsimeq]
  refine ⟨?_, ?_, fun p hp => ?_⟩
  · rw [hos]
    exact counted_exec hsim h.counted
  · rw [hmade, runFn_append, h.served, Option.bind_some]
    exact actMem_calls hplain h.counted hmem
  · rw [hmade, callsOf_append, h.own p hp, hos]
    exact (callsBy_exec hsim h.counted hp).symm

end Kernel
end MiniOs
