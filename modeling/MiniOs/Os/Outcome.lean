import MiniOs.Os.Capacity
import MiniOs.Os.Kernel
import MiniOs.Paging.Sharing

/-!
# Outcome — what a program computes does not depend on the schedule

The processes are scheduled on any number of CPUs, and they share the frames of RAM.  If every
program finds its frames alone, without a page fault or a page that is mapped again, and RAM has as
many as all programs take together, then neither shows: what a process has reported is what its
instructions so far report on a machine of their own.  The programs use no direct device operation,
which would go past the page table, and RAM has no frame that a page table entry cannot name.
-/

namespace MiniOs
namespace Kernel

open Lib PrivateBytes

variable {cfg : Config} {ramsz swpsz : ℕ}

/-! ## Programs alone -/

/-- The state behind these calls of a process that is there alone. -/
def behindAlone (ramsz swpsz : ℕ) (ops : List PagingSys.Op) : State :=
  finalState showStep (alone ramsz swpsz true) ops

/-- The frames that a program takes. -/
def demand (ramsz swpsz : ℕ) (code : List Inst) : ℕ :=
  ramsz / 256 - (behindAlone ramsz swpsz (programCalls code)).free

/-- The programs use no direct device operation, RAM has no more frames than thirteen bits can
number, every program alone finds its frames, makes no page fault and maps no page again, and RAM
has enough frames for all. -/
structure Sized (cfg : Config) (ramsz swpsz : ℕ) : Prop where
  plain : PlainPrograms cfg
  small : ramsz / 256 ≤ 8192
  calm : ∀ p ∈ cfg.procs,
    Along advance (Calm 0) (alone ramsz swpsz true) (programCalls p.code)
  fits : ∑ i : Fin cfg.procs.length, demand ramsz swpsz (cfg.procs.get i).code ≤ ramsz / 256

theorem programCalls_append (code code' : List Inst) :
    programCalls (code ++ code') = programCalls code ++ programCalls code' :=
  List.flatMap_append ..

/-- What a process has called is the beginning of what its program calls. -/
theorem programCalls_callsBy (os : Os cfg) (p : Pcb) :
    programCalls p.code = callsBy os p ++ programCalls (p.code.drop (os.progCounter p.pid)) := by
  rw [callsBy, ← programCalls_append, List.take_append_drop]

/-- The twin of each process: alone, behind the calls that the process has made. -/
def twins (ramsz swpsz : ℕ) (os : Os cfg) (i : Fin cfg.procs.length) : State :=
  behindAlone ramsz swpsz (callsBy os (cfg.procs.get i))

theorem memId_get (i : Fin cfg.procs.length) : memId (cfg.procs.get i) = i.val := by
  have hget : cfg.procs[i.val]? = some (cfg.procs.get i) := by simp
  generalize cfg.procs.get i = p at hget ⊢
  simp only [Config.procs, List.getElem?_mapIdx, Option.map_eq_some_iff] at hget
  rcases hget with ⟨l, _, rfl⟩
  exact Nat.add_sub_cancel i.val 1

theorem exists_get {p : Pcb} (hp : p ∈ cfg.procs) :
    ∃ i : Fin cfg.procs.length, cfg.procs.get i = p ∧ i.val = memId p := by
  rcases List.mem_iff_get.1 hp with ⟨i, rfl⟩
  exact ⟨i, rfl, (memId_get i).symm⟩

theorem twins_fit (h : Sized cfg ramsz swpsz) (os : Os cfg) :
    ∑ i, (ramsz / 256 - (twins ramsz swpsz os i).free) ≤ ramsz / 256 := by
  refine (Finset.sum_le_sum fun i _ => ?_).trans h.fits
  unfold demand twins behindAlone
  rw [programCalls_callsBy os, finalState_append]
  exact Nat.sub_le_sub_left (free_finalState _ _) _

/-! ## The invariant -/

/-- All that processes call are calls of a process of the configuration. -/
theorem actCalls_bound {os : Os cfg} (h : os.places.Counted) (a : Simulator.Action cfg) :
    ∀ op ∈ actCalls os a, ∀ i, callerOf op = some i → i < cfg.procs.length := by
  intro op hop i hi
  cases a with
  | timer b | killRunning c name | killReady c name => cases hop
  | loader =>
      simp only [actCalls, loaderCalls] at hop
      split at hop
      · rw [List.mem_singleton.1 hop] at hi
        cases hi
      · cases hop
  | cpu c =>
      simp only [actCalls] at hop
      cases cpuUses os c with
      | nothing hcalls _ _ _ =>
          rw [hcalls] at hop
          cases hop
      | @free q hpc hfin =>
          simp only [cpuCalls, hpc, if_pos hfin, List.mem_singleton] at hop
          rw [hop] at hi
          cases hi
      | @run q hpc =>
          rcases exists_get (mem_procs_of_exec h hpc) with ⟨j, _, hj⟩
          simp only [cpuCalls, hpc] at hop
          cases hins : nextInst os q with
          | none => simp [hins] at hop
          | some ins =>
              rw [hins, Option.bind_some] at hop
              have howner := Inst.callerOf_of_mem_calls hop
              rw [← Option.some.inj (howner.symm.trans hi), ← hj]
              exact j.isLt

/-- Every process does what its twin does, and has never run out of frames. -/
structure Shares (ramsz swpsz : ℕ) (k : Kernel cfg) : Prop where
  inv : k.Inv ramsz swpsz
  sys : (finalState showStep (start ramsz swpsz true) k.made).sys = k.mem
  shared : Shared (ramsz / 256) (finalState showStep (start ramsz swpsz true) k.made)
    (twins ramsz swpsz k.hist.sim.os)
  calm : ∀ i : Fin cfg.procs.length, Along advance (Calm i.val) (start ramsz swpsz true) k.made

theorem shares_init (h : Sized cfg ramsz swpsz) : (init cfg ramsz swpsz).Shares ramsz swpsz := by
  have htwins : twins ramsz swpsz (init cfg ramsz swpsz).hist.sim.os =
      fun _ => alone ramsz swpsz true := by
    funext i
    simp [twins, behindAlone, callsBy, programCalls, init, History.init, Simulator.init, Os.init,
      finalState]
  refine ⟨inv_init cfg ramsz swpsz, rfl, ?_, fun _ => trivial⟩
  rw [htwins]
  exact shared_start h.small swpsz true cfg.procs.length

/-- Step lemma. -/
theorem Shares.exec (hsized : Sized cfg ramsz swpsz) {k k' : Kernel cfg}
    {a : Simulator.Action cfg} (h : k.Shares ramsz swpsz) (hexec : k.exec a = some k') :
    k'.Shares ramsz swpsz := by
  rcases exec_hist hexec with ⟨hhist, hmem, hmade⟩
  rcases Option.map_eq_some_iff.1 hhist with ⟨sim, hsim, hsimeq⟩
  have hos : k'.hist.sim = sim := by rw [← hsimeq]
  have hcounted := h.inv.counted
  have hrun := actMem_calls hsized.plain hcounted hmem
  rw [← h.sys] at hrun
  -- the calls of a twin are those of the process
  have hcalls : ∀ i : Fin cfg.procs.length, callsBy k'.hist.sim.os (cfg.procs.get i) =
      callsBy k.hist.sim.os (cfg.procs.get i) ++ callsOf i.val (actCalls k.hist.sim.os a) := by
    intro i
    rw [hos, callsBy_exec hsim hcounted (List.get_mem _ i), memId_get]
  have htwins : twins ramsz swpsz k'.hist.sim.os = fun i =>
      finalState showStep (twins ramsz swpsz k.hist.sim.os i)
        (callsOf i.val (actCalls k.hist.sim.os a)) := by
    funext i
    rw [twins, hcalls, behindAlone, finalState_append]
    rfl
  have hcalm : ∀ i : Fin cfg.procs.length, Along advance (Calm 0)
      (twins ramsz swpsz k.hist.sim.os i) (callsOf i.val (actCalls k.hist.sim.os a)) := by
    intro i
    have hprogram := hsized.calm _ (List.get_mem _ i)
    rw [programCalls_callsBy k'.hist.sim.os, hcalls] at hprogram
    exact (along_advance_append.1 (along_advance_append.1 hprogram).1).2
  have hfits := twins_fit hsized k'.hist.sim.os
  rw [htwins] at hfits
  rcases h.shared.run (actCalls_bound hcounted a) hrun hcalm hfits with ⟨halong, hshared, hsys⟩
  refine ⟨h.inv.exec hsized.plain hexec, ?_, ?_, fun i => ?_⟩
  · rw [hmade, finalState_append, hsys]
  · rw [hmade, finalState_append, htwins]
    exact hshared
  · rw [hmade]
    exact along_advance_append.2 ⟨h.calm i, halong i⟩

/-! ## Reports -/

/-- What process `p` has reported. -/
def reports (ramsz swpsz : ℕ) (k : Kernel cfg) (p : Pcb) : List (Option Report) :=
  ownOutputs showStep (isBy (memId p)) (start ramsz swpsz true) k.made

/-- What these calls report on a machine of their own. -/
def reportsAlone (ramsz swpsz : ℕ) (ops : List PagingSys.Op) : List (Option Report) :=
  ownOutputs showStep (isBy 0) (alone ramsz swpsz true) ops

/-- The memory is that behind the calls of all processes, none of which has made a page fault,
mapped a page again or run out of frames; and every process has reported what the instructions that
it has executed report alone. -/
structure AsAlone (ramsz swpsz : ℕ) (k : Kernel cfg) : Prop where
  sys : (finalState showStep (start ramsz swpsz true) k.made).sys = k.mem
  calm : ∀ p ∈ cfg.procs, Along advance (Calm (memId p)) (start ramsz swpsz true) k.made
  reports : ∀ p ∈ cfg.procs,
    reports ramsz swpsz k p = reportsAlone ramsz swpsz (callsBy k.hist.sim.os p)

theorem Shares.calm_of_mem {k : Kernel cfg} (h : k.Shares ramsz swpsz) {p : Pcb}
    (hp : p ∈ cfg.procs) :
    Along advance (Calm (memId p)) (start ramsz swpsz true) k.made := by
  rcases exists_get hp with ⟨i, _, hi⟩
  rw [← hi]
  exact h.calm i

theorem Shares.reports_eq (hsized : Sized cfg ramsz swpsz) {k : Kernel cfg}
    (h : k.Shares ramsz swpsz) {p : Pcb} (hp : p ∈ cfg.procs) :
    reports ramsz swpsz k p = reportsAlone ramsz swpsz (callsBy k.hist.sim.os p) := by
  rw [reportsAlone, ← h.inv.own p hp]
  exact ((company_start hsized.small swpsz true (memId p)).run (h.calm_of_mem hp)).1

theorem Shares.asAlone (hsized : Sized cfg ramsz swpsz) {k : Kernel cfg}
    (h : k.Shares ramsz swpsz) : k.AsAlone ramsz swpsz :=
  ⟨h.sys, fun _ hp => h.calm_of_mem hp, fun _ hp => h.reports_eq hsized hp⟩

theorem shares_run (hsized : Sized cfg ramsz swpsz) (as : List (Simulator.Action cfg)) :
    AllStates (Shares ramsz swpsz) (init cfg ramsz swpsz)
      (traceFn exec (init cfg ramsz swpsz) as) := by
  rcases run_traceFn exec (init cfg ramsz swpsz) as with ⟨k, hrun⟩
  exact hrun.allStates (fun h hexec => Shares.exec hsized h hexec) (shares_init hsized)

/-- For every configuration that is sized and every interleaving of the threads, `killall` included:
no process runs out of frames, makes a page fault or maps a page again, and what each has reported
is what its instructions so far report on a machine of their own. -/
theorem always_asAlone (hsized : Sized cfg ramsz swpsz) (as : List (Simulator.Action cfg)) :
    AllStates (AsAlone ramsz swpsz) (init cfg ramsz swpsz)
      (traceFn exec (init cfg ramsz swpsz) as) := by
  have hshares := shares_run hsized as
  exact ⟨hshares.1.asAlone hsized, fun x hx => (hshares.2 x hx).asAlone hsized⟩

/-- Two programs that map a page, write to it and read it, on some CPUs. -/
def writers (numCpus : ℕ) : Config where
  timeSlot := 1
  numCpus := numCpus
  ldProcesses := [⟨0, ascii "input/proc/p", 0⟩, ⟨0, ascii "input/proc/q", 0⟩]
  program := fun path => (1,
    [⟨.syscall, 17, 2, 0, 256⟩, ⟨.write, if path = ascii "input/proc/p" then 5 else 9, 0, 7, 0⟩,
      ⟨.read, 0, 7, 0, 0⟩])

/-- The actions that are defined when their turn comes. -/
def inTurn : List (Simulator.Action cfg) → Kernel cfg → List (Simulator.Action cfg)
  | [], _ => []
  | a :: as, k =>
      match k.exec a with
      | none => inTurn as k
      | some k' => a :: inTurn as k'

/-- The timer, then the threads one by one, and so on. -/
def turns (cfg : Config) (n : ℕ) : List (Simulator.Action cfg) :=
  inTurn (List.replicate n (List.replicate 9 (.timer .timerRoutine) ++
    (List.finRange (cfg.numCpus + 1)).map (fun d => .timer (.resume d)) ++
    (List.replicate 7 ((List.finRange cfg.numCpus).map .cpu ++ [.loader])).flatten)).flatten
    (init cfg 1024 1024)

theorem writers_sized_one : Sized (writers 1) 1024 1024 where
  plain := by decide
  small := by decide
  calm := by decide +kernel
  fits := by decide +kernel

theorem writers_sized_two : Sized (writers 2) 1024 1024 where
  plain := by decide
  small := by decide
  calm := by decide +kernel
  fits := by decide +kernel

theorem writers_asAlone :
    (runFn exec (init (writers 2) 1024 1024) (turns (writers 2) 7)).map (fun k =>
        (writers 2).procs.map fun p => (reports 1024 1024 k p).map (Option.map Report.data)) =
      some [[some none, some none, some (some 5)], [some none, some none, some (some 9)]] ∧
    AllStates (AsAlone 1024 1024) (init (writers 2) 1024 1024)
      (traceFn exec (init (writers 2) 1024 1024) (turns (writers 2) 7)) :=
  ⟨by decide +kernel, always_asAlone writers_sized_two (turns (writers 2) 7)⟩

/-! ## The end of a run -/

/-- A program that has been executed completely has made all of its calls. -/
theorem callsBy_of_executed {h : History cfg} (hinv : h.Inv) (hall : h.AllExecuted) {p : Pcb}
    (hp : p ∈ cfg.procs) : callsBy h.sim.os p = programCalls p.code := by
  have hexecuted := hall p hp
  rw [hinv.executed p hp] at hexecuted
  have hpc : h.sim.os.progCounter p.pid = p.codeSize := by
    simpa using congrArg List.length hexecuted
  rw [callsBy, hpc, Pcb.codeSize, List.take_length]

theorem fitted_run (hfits : cfg.Fits) (as : List (Simulator.Action cfg)) :
    AllStates (fun k => k.hist.Fitted) (init cfg ramsz swpsz)
      (traceFn exec (init cfg ramsz swpsz) as) := by
  rcases run_traceFn exec (init cfg ramsz swpsz) as with ⟨k, hrun⟩
  exact hrun.allStates (fun h hexec => h.exec hfits (exec_hist hexec).1) (History.fitted_init cfg)

/-- When all CPUs have stopped, every process has reported what its program reports alone. -/
def EndsAlone (ramsz swpsz : ℕ) (k : Kernel cfg) : Prop :=
  k.hist.sim.AllStopped →
    ∀ p ∈ cfg.procs, reports ramsz swpsz k p = reportsAlone ramsz swpsz (programCalls p.code)

theorem endsAlone_run (hfits : cfg.Fits) (hsized : Sized cfg ramsz swpsz)
    (as : List (Simulator.Action cfg)) :
    AllStates (EndsAlone ramsz swpsz) (init cfg ramsz swpsz)
      (traceFn exec (init cfg ramsz swpsz) as) := by
  have hboth := allStates_and.2 ⟨shares_run hsized as, fitted_run hfits as⟩
  have hends : ∀ k : Kernel cfg, k.Shares ramsz swpsz ∧ k.hist.Fitted →
      k.EndsAlone ramsz swpsz := by
    intro k hk hstopped p hp
    have hall := hk.2.whole.allExecuted hfits.cpus hstopped
    rw [hk.1.reports_eq hsized hp, callsBy_of_executed hk.2.whole.inv hall hp]
  exact ⟨hends _ hboth.1, fun x hx => hends _ (hboth.2 x hx)⟩

/-- The schedule does not matter: two configurations that fit and are sized, with any numbers of
CPUs, slices, start times and priorities, and any two runs that end with all CPUs stopped.  Then two
processes with the same program have reported the same. -/
theorem same_outcome {cfg' : Config} (hfits : cfg.Fits) (hfits' : cfg'.Fits)
    (hsized : Sized cfg ramsz swpsz) (hsized' : Sized cfg' ramsz swpsz)
    (as : List (Simulator.Action cfg)) (as' : List (Simulator.Action cfg')) :
    AllStates (fun k => AllStates (fun k' => k.hist.sim.AllStopped → k'.hist.sim.AllStopped →
        ∀ p ∈ cfg.procs, ∀ p' ∈ cfg'.procs, p.code = p'.code →
          reports ramsz swpsz k p = reports ramsz swpsz k' p')
      (init cfg' ramsz swpsz) (traceFn exec (init cfg' ramsz swpsz) as'))
      (init cfg ramsz swpsz) (traceFn exec (init cfg ramsz swpsz) as) := by
  have hends := endsAlone_run hfits hsized as
  have hends' := endsAlone_run hfits' hsized' as'
  have hsame : ∀ (k : Kernel cfg) (k' : Kernel cfg'), k.EndsAlone ramsz swpsz →
      k'.EndsAlone ramsz swpsz → k.hist.sim.AllStopped → k'.hist.sim.AllStopped →
      ∀ p ∈ cfg.procs, ∀ p' ∈ cfg'.procs, p.code = p'.code →
        reports ramsz swpsz k p = reports ramsz swpsz k' p' := by
    intro k k' hk hk' hstopped hstopped' p hp p' hp' hcode
    rw [hk hstopped p hp, hk' hstopped' p' hp', hcode]
  exact ⟨⟨hsame _ _ hends.1 hends'.1, fun x' hx' => hsame _ _ hends.1 (hends'.2 x' hx')⟩,
    fun x hx => ⟨hsame _ _ (hends.2 x hx) hends'.1,
      fun x' hx' => hsame _ _ (hends.2 x hx) (hends'.2 x' hx')⟩⟩

theorem writers_fits_one : (writers 1).Fits where
  cpus := by decide
  timeSlot := by decide
  size := by decide
  prio_lt := by decide
  room := by decide
  noKillall := by decide

theorem writers_fits_two : (writers 2).Fits where
  cpus := by decide
  timeSlot := by decide
  size := by decide
  prio_lt := by decide
  room := by decide
  noKillall := by decide

theorem writers_same_outcome :
    (runFn exec (init (writers 1) 1024 1024) (turns (writers 1) 8)).map
        (fun k => (k.hist.sim.os.cpus ⟨0, by decide⟩).pc) = some .stopped ∧
    (runFn exec (init (writers 2) 1024 1024) (turns (writers 2) 7)).map (fun k =>
        ((k.hist.sim.os.cpus ⟨0, by decide⟩).pc, (k.hist.sim.os.cpus ⟨1, by decide⟩).pc)) =
      some (.stopped, .stopped) ∧
    AllStates (fun k => AllStates (fun k' => k.hist.sim.AllStopped → k'.hist.sim.AllStopped →
          ∀ p ∈ (writers 1).procs, ∀ p' ∈ (writers 2).procs, p.code = p'.code →
            reports 1024 1024 k p = reports 1024 1024 k' p')
        (init (writers 2) 1024 1024)
        (traceFn exec (init (writers 2) 1024 1024) (turns (writers 2) 7)))
      (init (writers 1) 1024 1024)
      (traceFn exec (init (writers 1) 1024 1024) (turns (writers 1) 8)) :=
  ⟨by decide +kernel, by decide +kernel,
    same_outcome writers_fits_one writers_fits_two writers_sized_one writers_sized_two
      (turns (writers 1) 8) (turns (writers 2) 7)⟩

end Kernel
end MiniOs
