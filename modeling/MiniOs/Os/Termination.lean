import MiniOs.Os.Progress
import MiniOs.Timer.Effort

/-!
# Termination — every schedule brings the programs to their end

The threads of the simulator go through their loops in a bounded number of steps for each slot, so
by the barrier no schedule can keep a thread waiting for ever: after enough steps the clock has
moved on (`steps_le`).  With the deadline of the programs this gives termination without any
assumption on the fairness of the schedule.
-/

namespace MiniOs

open Lib

/-! ## The steps of a thread in a slot -/

/-- The steps of a CPU before it waits for the next slot, the call of `next_slot` included. -/
def CpuPc.left : CpuPc → Nat
  | .loop _ => 9
  | .putRunning _ => 8
  | .putReady _ => 7
  | .getIdle | .getNext => 6
  | .recheck _ => 5
  | .exec _ => 4
  | .slot _ => 3
  | .stopped => 2

/-- The same for the loader. -/
def LdPc.left : LdPc → Nat
  | .loop => 7
  | .wait => 6
  | .addRunning => 5
  | .addReady => 4
  | .waitSlot | .slot | .finish => 3
  | .stopped => 2

theorem CpuPc.left_le (pc : CpuPc) : pc.left ≤ 9 := by
  cases pc <;> simp [CpuPc.left]

theorem LdPc.left_le (pc : LdPc) : pc.left ≤ 9 := by
  cases pc <;> simp [LdPc.left]

namespace Simulator

variable {cfg : Config}

/-- The steps that the threads have left. -/
def workLeft (s : Os cfg) : Fin (cfg.numCpus + 1) → Nat :=
  Fin.lastCases s.loader.pc.left fun c => (s.cpus c).pc.left

theorem workLeft_cpu (s : Os cfg) (c : Fin cfg.numCpus) :
    workLeft s (cpuDevice c) = (s.cpus c).pc.left :=
  Fin.lastCases_castSucc ..

theorem workLeft_loader (s : Os cfg) : workLeft s (ldDevice cfg) = s.loader.pc.left :=
  Fin.lastCases_last ..

theorem workLeft_le (s : Os cfg) (d : Fin (cfg.numCpus + 1)) : workLeft s d ≤ 9 := by
  refine Fin.lastCases ?_ (fun c => ?_) d
  · exact (workLeft_loader s).trans_le (LdPc.left_le _)
  · exact (workLeft_cpu s c).trans_le (CpuPc.left_le _)

/-- Only the thread that moves has another number of steps left. -/
theorem workLeft_of_ne {s s' : Os cfg} {d : Fin (cfg.numCpus + 1)}
    (hcpus : ∀ c, cpuDevice c ≠ d → s'.cpus c = s.cpus c)
    (hld : ldDevice cfg ≠ d → s'.loader = s.loader) {e : Fin (cfg.numCpus + 1)} (he : e ≠ d) :
    workLeft s' e = workLeft s e := by
  revert he
  refine Fin.lastCases (fun he => ?_) (fun c he => ?_) e
  · exact (workLeft_loader s').trans ((hld he ▸ rfl : _ = s.loader.pc.left).trans
      (workLeft_loader s).symm)
  · exact (workLeft_cpu s' c).trans ((hcpus c he ▸ rfl : _ = (s.cpus c).pc.left).trans
      (workLeft_cpu s c).symm)

/-- All sections that the running slot still needs. -/
def left (s : Simulator cfg) : Nat := s.timer.left 9 (workLeft s.os)

/-- The sections of a slot at most. -/
def slotCost (cfg : Config) : Nat := Timer.slotCost (cfg.numCpus + 1) 9

/-- The steps that count: sections of the timer and steps of the threads. -/
def own : Action cfg → Nat
  | .timer b => Timer.own b
  | .cpu _ | .loader => 1
  | _ => 0

/-- Wake-ups without a signal. -/
def spurious : Action cfg → Nat
  | .timer b => Timer.spurious b
  | _ => 0

/-- On its way through the loop, a CPU has one step less. -/
theorem cpuStep_left {s : Os cfg} {c : Fin cfg.numCpus} (h : cpuCall (s.cpus c).pc = .none) :
    ((s.cpuStep c).cpus c).pc.left + 1 ≤ (s.cpus c).pc.left := by
  have hgoes := s.cpuStep_goes c
  generalize ((s.cpuStep c).cpus c).pc = pc' at hgoes ⊢
  cases hgoes with
  | take hpc _ =>
      rcases hpc with hpc | hpc
      · simp [hpc, CpuPc.left]
      · simp [hpc, CpuPc.left]
  | next hpc => simp [hpc, cpuCall] at h
  | stay hpc => simp [hpc, cpuCall] at h
  | idle hpc => simp [hpc, CpuPc.left]
  | finish hpc _ => simp [hpc, CpuPc.left]
  | expire hpc _ _ => simp [hpc, CpuPc.left]
  | keep hpc _ _ => simp [hpc, CpuPc.left]
  | skip hpc _ => simp [hpc, CpuPc.left]
  | listed hpc => simp [hpc, CpuPc.left]
  | back hpc => simp [hpc, CpuPc.left]
  | empty hpc _ => simp [hpc, CpuPc.left]
  | leave hpc _ => simp [hpc, CpuPc.left]
  | wait hpc _ => simp [hpc, CpuPc.left]
  | dispatch hpc => simp [hpc, CpuPc.left]
  | ran hpc => simp [hpc, CpuPc.left]

/-- So has the loader, which is on time and therefore never without a process to add. -/
theorem loaderStep_left {s : Simulator cfg} (h : s.Timed) (hcall : ldCall s.os.loader.pc = .none) :
    s.os.loaderStep.loader.pc.left + 1 ≤ s.os.loader.pc.left := by
  rcases h with ⟨added, hinv⟩
  have hat := hinv.loader
  have hld := Arrivals.loaderStep_loader s.os
  rw [hld]
  cases hpc : s.os.loader.pc with
  | loop =>
      dsimp only
      split <;> simp [LdPc.left]
  | wait =>
      simp only [Arrivals.LoaderAt, hpc] at hat
      simp only [hat.1, if_true]
      split <;> simp [LdPc.left]
  | addRunning =>
      simp only [Arrivals.LoaderAt, hpc] at hat
      simp [hat.1, LdPc.left]
  | addReady =>
      simp only [Arrivals.LoaderAt, hpc] at hat
      simp [hat.1, LdPc.left]
  | finish => simp [LdPc.left]
  | waitSlot => simp [hpc, ldCall] at hcall
  | slot => simp [hpc, ldCall] at hcall
  | stopped => simp [hpc, ldCall] at hcall

/-- A call of a thread in its step. -/
theorem call_left {t t' : Timer (cfg.numCpus + 1)} {d : Fin (cfg.numCpus + 1)} {r : Call}
    {m : Nat} {work work' : Fin (cfg.numCpus + 1) → Nat} (hinv : t.Inv)
    (hpc : (t.devList d).pc = .working) (hcall : call t d r = some t')
    (hnone : r = .none → work' d + 1 ≤ work d) (hnext : r = .nextSlot → 3 ≤ work d)
    (hdetach : r = .detachEvent → 2 ≤ work d) (hothers : ∀ e, e ≠ d → work' e = work e) :
    t'.left m work' + 1 ≤ t.left m work := by
  cases r with
  | none =>
      rw [← Option.some.inj hcall]
      exact Timer.work_left hpc (hnone rfl) hothers
  | nextSlot => exact Timer.nextSlot_left hinv hcall (hnext rfl) hothers
  | detachEvent => exact Timer.detachEvent_left hcall (hdetach rfl) hothers

theorem cpuCall_nextSlot {pc : CpuPc} (h : cpuCall pc = .nextSlot) : 3 ≤ pc.left := by
  cases pc <;> simp_all [cpuCall, CpuPc.left]

theorem cpuCall_detachEvent {pc : CpuPc} (h : cpuCall pc = .detachEvent) : 2 ≤ pc.left := by
  cases pc <;> simp_all [cpuCall, CpuPc.left]

theorem ldCall_nextSlot {pc : LdPc} (h : ldCall pc = .nextSlot) : 3 ≤ pc.left := by
  cases pc <;> simp_all [ldCall, LdPc.left]

theorem ldCall_detachEvent {pc : LdPc} (h : ldCall pc = .detachEvent) : 2 ≤ pc.left := by
  cases pc <;> simp_all [ldCall, LdPc.left]

/-- The step of a thread uses up potential. -/
theorem move_left {s s' : Simulator cfg} {d : Fin (cfg.numCpus + 1)} {r : Call} {os : Os cfg}
    (hinv : s.timer.Inv) (hmove : s.move d r os = some s')
    (hnone : r = .none → workLeft os d + 1 ≤ workLeft s.os d)
    (hnext : r = .nextSlot → 3 ≤ workLeft s.os d)
    (hdetach : r = .detachEvent → 2 ≤ workLeft s.os d)
    (hothers : ∀ e, e ≠ d → workLeft os e = workLeft s.os e) :
    s'.left + 1 + slotCost cfg * s.timer.time ≤ s.left + slotCost cfg * s'.timer.time := by
  rcases move_eq hmove with ⟨hwork, hcall, hos⟩
  have hleft := call_left (m := 9) hinv hwork hcall hnone hnext hdetach hothers
  rw [call_time hcall, left, left, hos]
  omega

theorem killStep_left {s s' : Simulator cfg} {a : Action cfg} (hexec : s.exec a = some s')
    (ha : ∃ c name, a = .killRunning c name ∨ a = .killReady c name) :
    s'.left + slotCost cfg * s.timer.time = s.left + slotCost cfg * s'.timer.time := by
  rcases exec_kill hexec ha with ⟨htimer, sched, hos, _⟩
  rw [left, left, htimer, hos]
  rfl

/-- Step lemma: what is left pays for the step, and a tick pays for the slot behind it. -/
theorem exec_left {s s' : Simulator cfg} {a : Action cfg} (h : s.Timed)
    (hexec : s.exec a = some s') :
    s'.left + own a + slotCost cfg * s.timer.time ≤
      s.left + spurious a + slotCost cfg * s'.timer.time := by
  have hinv := h.sound.inv
  cases a with
  | timer b =>
      have hstep := exec_timerStep hexec
      have hleft := hinv.step_left hstep.step (workLeft_le s.os) hstep.nextSlot hstep.detachEvent
      -- the threads stay where they are
      have hsame : workLeft s'.os = workLeft s.os := by rw [hstep.os]; rfl
      rw [left, left, hsame]
      exact hleft
  | cpu c =>
      refine move_left hinv hexec (fun hr => ?_) (fun hr => ?_) (fun hr => ?_) fun e he => ?_
      · rw [workLeft_cpu, workLeft_cpu]
        exact cpuStep_left hr
      · rw [workLeft_cpu]
        exact cpuCall_nextSlot hr
      · rw [workLeft_cpu]
        exact cpuCall_detachEvent hr
      · have hmove := s.os.cpuStep_move c
        exact workLeft_of_ne (fun e he => hmove.cpus_of_ne fun heq => he (heq ▸ rfl))
          (fun _ => hmove.frame.2.1) he
  | loader =>
      refine move_left hinv hexec (fun hr => ?_) (fun hr => ?_) (fun hr => ?_) fun e he => ?_
      · rw [workLeft_loader, workLeft_loader]
        exact loaderStep_left h hr
      · rw [workLeft_loader]
        exact ldCall_nextSlot hr
      · rw [workLeft_loader]
        exact ldCall_detachEvent hr
      · exact workLeft_of_ne (fun c _ => congrFun s.os.loaderStep_move.frame.1 c)
          (fun hne => absurd rfl hne) he
  | killRunning c name =>
      exact (killStep_left hexec ⟨c, name, Or.inl rfl⟩).le
  | killReady c name =>
      exact (killStep_left hexec ⟨c, name, Or.inr rfl⟩).le

theorem left_init (cfg : Config) : (init cfg).left ≤ slotCost cfg := by
  have hdevice : ∀ d, ((init cfg).timer.devList d).left 9 (init cfg).timer.time
      (workLeft (init cfg).os d) ≤ 9 := by
    intro d
    simp only [init, startTimer, attachEvents_apply, Device.left]
    exact workLeft_le _ d
  have hsum := Finset.sum_le_card_nsmul Finset.univ _ 9 fun d _ => hdevice d
  simp only [Finset.card_univ, Fintype.card_fin, smul_eq_mul] at hsum
  have hhead : (init cfg).timer.pc.left = 2 * (cfg.numCpus + 1) + 2 := rfl
  rw [left, Timer.left, hhead, slotCost, Timer.slotCost]
  omega

/-- A thread at work can call `next_slot` and `detach_event`. -/
theorem call_isSome {t : Timer (cfg.numCpus + 1)} {d : Fin (cfg.numCpus + 1)}
    (hpc : (t.devList d).pc = .working) (r : Call) : (call t d r).isSome := by
  cases r with
  | none => rfl
  | nextSlot => simp [call, Timer.nextSlot, hpc]
  | detachEvent => simp [call, Timer.detachEvent, hpc]

theorem move_isSome {s : Simulator cfg} {d : Fin (cfg.numCpus + 1)}
    (hpc : (s.timer.devList d).pc = .working) (r : Call) (os : Os cfg) :
    (s.move d r os).isSome := by
  simp [move, hpc, call_isSome hpc]

/-- A section of the timer, or a step of a thread, can be executed. -/
def CanMove (s : Simulator cfg) : Prop := ∃ a, own a = 1 ∧ (s.exec a).isSome

theorem canMove_of_working {s : Simulator cfg} {d : Fin (cfg.numCpus + 1)}
    (hpc : (s.timer.devList d).pc = .working) : s.CanMove := by
  revert hpc
  refine Fin.lastCases (fun hpc => ?_) (fun c hpc => ?_) d
  · exact ⟨.loader, rfl, move_isSome hpc _ _⟩
  · exact ⟨.cpu c, rfl, move_isSome hpc _ _⟩

/-- As long as a CPU is in its loop, somebody can move. -/
theorem canMove {s : Simulator cfg} (hinv : s.timer.Inv) (hlinked : s.Linked)
    (hlive : ¬ s.AllStopped) : s.CanMove := by
  by_contra hstuck
  have hidle : ∀ d, (s.timer.devList d).pc ≠ .working :=
    fun d hpc => hstuck (canMove_of_working hpc)
  have hsection : ∀ b : Timer.Action (cfg.numCpus + 1), own (.timer b : Action cfg) = 1 →
      (s.timer.step b).isSome = false := by
    intro b hb
    refine Bool.eq_false_iff.2 fun hsome => hstuck ⟨.timer b, hb, ?_⟩
    cases b <;> simp_all [own, Timer.own, exec]
  refine hinv.not_deadlocked ⟨?_, ?_, fun d => ⟨?_, ?_, ?_⟩⟩
  · -- the device of a CPU that goes on is not detached
    rcases not_forall.1 hlive with ⟨c, hc⟩
    exact Or.inl ⟨cpuDevice c, fun hdet => hc ((hlinked c).detached hdet)⟩
  · simpa [Timer.step] using hsection .timerRoutine rfl
  · simp [Timer.nextSlot, hidle d]
  · simpa [Timer.step] using hsection (.resume d) rfl
  · simp [Timer.detachEvent, hidle d]

end Simulator

namespace History

variable {cfg : Config}

/-- For every schedule, the sections of the timer and the steps of the threads are not more than
those of the slots that the clock has shown, spurious wake-ups aside. -/
theorem steps_le {tr : List (Simulator.Action cfg × History cfg)} {h : History cfg}
    (hrun : Run (StepOf exec) (init cfg) tr h) :
    stepSum (fun _ a => Simulator.own a) (init cfg) tr ≤
      Simulator.slotCost cfg * (h.sim.timer.time + 1) +
        stepSum (fun _ a => Simulator.spurious a) (init cfg) tr := by
  have hpay := hrun.potential (I := fun h => h.sim.Timed) (fun h => h.sim.left)
    (fun h => h.sim.timer.time) (fun _ a => Simulator.own a) (fun _ a => Simulator.spurious a)
    (Simulator.slotCost cfg)
    (fun ht hexec => by
      rcases Option.map_eq_some_iff.1 hexec with ⟨sim, hsim, rfl⟩
      exact ht.exec hsim)
    (fun ht hexec => by
      rcases Option.map_eq_some_iff.1 hexec with ⟨sim, hsim, rfl⟩
      exact Simulator.exec_left ht hsim)
    (Simulator.timed_init cfg)
  have hinit := Simulator.left_init cfg
  have hfirst : (init cfg).sim = Simulator.init cfg := rfl
  rw [hfirst] at hpay
  rw [Nat.mul_add]
  omega

/-- Termination.  In every run of a configuration that fits, as long as some program has not been
executed to its end, some thread can move, and no more steps have been made than the slots up to
the deadline allow. -/
theorem terminates (cfg : Config) (hfits : cfg.Fits)
    {tr : List (Simulator.Action cfg × History cfg)} {h : History cfg}
    (hrun : Run (StepOf exec) (init cfg) tr h) (hopen : ¬ h.AllExecuted) :
    h.sim.CanMove ∧
      stepSum (fun _ a => Simulator.own a) (init cfg) tr ≤
        Simulator.slotCost cfg * (cfg.closing + cfg.work) +
          stepSum (fun _ a => Simulator.spurious a) (init cfg) tr := by
  have hboth := hrun.last (hrun.allStates (I := fun h => h.Fitted ∧ h.Driven)
    (fun hI hexec => ⟨hI.1.exec hfits hexec,
      hI.2.exec hfits.timeSlot hfits.cpus hfits.size hexec⟩)
    ⟨fitted_init cfg, driven_init cfg⟩)
  rcases hboth with ⟨hfitted, hdriven⟩
  constructor
  · refine Simulator.canMove hdriven.looked.timed.sound.inv hdriven.looked.linked fun hall => ?_
    exact hopen (hfitted.whole.allExecuted hfits.cpus hall)
  · -- the deadline is not over
    have htime : h.sim.timer.time + 1 ≤ cfg.closing + cfg.work := by
      by_contra hlate
      exact hopen (hfitted.allExecuted_of_time hdriven (by omega))
    have hsteps := steps_le hrun
    have hmono := Nat.mul_le_mul_left (Simulator.slotCost cfg) htime
    omega

/-- Two instructions of three have been executed. -/
theorem late_terminates :
    ∃ h, Run (StepOf exec) (init short) (traceFn exec (init short) (lateRun.take 55)) h ∧
      h.sim.timer.time = 3 ∧ ¬ h.AllExecuted ∧ h.sim.CanMove ∧
      stepSum (fun _ a => Simulator.own a) (init short)
          (traceFn exec (init short) (lateRun.take 55)) ≤
        Simulator.slotCost short * (short.closing + short.work) +
          stepSum (fun _ a => Simulator.spurious a) (init short)
            (traceFn exec (init short) (lateRun.take 55)) := by
  have hopen : (runFn exec (init short) (lateRun.take 55)).map (fun h =>
      (h.sim.timer.time, short.procs.map h.executed)) = some (3, [[0, 1]]) := by
    decide +kernel
  rcases Option.map_eq_some_iff.1 hopen with ⟨h, hrun, hend⟩
  rw [Prod.mk.injEq] at hend
  have hnot : ¬ h.AllExecuted := by
    intro hall
    have heq := List.map_congr_left hall
    rw [hend.2] at heq
    revert heq
    decide
  exact ⟨h, run_of_runFn hrun, hend.1, hnot,
    terminates short short_fits (run_of_runFn hrun) hnot⟩

end History
end MiniOs
