import MiniOs.Os.Capacity

/-!
# Progress — in every slot somebody works

Behind the last arrival nothing enters the levels but what a CPU puts back.  So as long as an
unfinished process is left, no slot goes by in which no instruction is executed: a CPU that has
nothing to do has found the levels empty, and then the process is on another one.  Counted from the
beginning of one slot this says that the slot is worked in; counted from the last arrival it bounds
the time that the simulator takes for its programs.
-/

namespace MiniOs

open Lib

/-- The number of instructions of all programs. -/
def Config.work (cfg : Config) : Nat := (cfg.procs.map Pcb.codeSize).sum

/-- What is taken out of the levels makes nobody wait. -/
theorem Sched.Waiting.of_subperm {s s' : Sched} {p : Pcb} (h : s'.Waiting p)
    (hsub : ∀ k, (s'.level k).Subperm (s.level k)) : s.Waiting p := by
  rcases h with ⟨k, hk⟩
  exact ⟨k, (hsub k).subset hk⟩

namespace Os

variable {cfg : Config}

/-- The number of instructions that have been executed. -/
def worked (s : Os cfg) : Nat := (cfg.procs.map fun p => s.progCounter p.pid).sum

/-- An unfinished process waits or is held by a CPU. -/
def Busy (s : Os cfg) : Prop := ∃ p, s.Held p ∧ s.progCounter p.pid < p.codeSize

/-- `run` increments a `pc` or leaves all as they are. -/
theorem progCounter_le_cpuStep (s : Os cfg) (c : Fin cfg.numCpus) (i : Nat) :
    s.progCounter i ≤ (s.cpuStep c).progCounter i := by
  rcases (s.cpuStep_move c).progCounter with heq | ⟨p, _, heq⟩
  · rw [heq]
  · rw [heq, runPc]
    split
    · exact Nat.le_refl _
    · by_cases hi : i = p.pid
      · subst hi
        rw [Function.update_self]
        exact Nat.le_succ _
      · rw [Function.update_of_ne hi]

theorem worked_le_cpuStep (s : Os cfg) (c : Fin cfg.numCpus) :
    s.worked ≤ (s.cpuStep c).worked :=
  List.sum_le_sum fun p _ => progCounter_le_cpuStep s c p.pid

/-- An instruction counts. -/
theorem worked_exec {s : Os cfg} {c : Fin cfg.numCpus} {p : Pcb} (hp : p ∈ cfg.procs)
    (hpc : (s.cpus c).pc = .exec p) (hlt : s.progCounter p.pid < p.codeSize) :
    (s.cpuStep c).worked = s.worked + 1 := by
  have hpcs : (s.cpuStep c).progCounter =
      Function.update s.progCounter p.pid (s.progCounter p.pid + 1) := by
    simp [cpuStep, hpc, runPc, not_le.2 hlt]
  have hsum := sum_map_update_add Pcb.pid s.progCounter cfg.procs_pid_nodup hp
    (s.progCounter p.pid + 1)
  rw [worked, worked, hpcs]
  omega

theorem worked_lt {s : Os cfg} (hle : ∀ p ∈ cfg.procs, s.progCounter p.pid ≤ p.codeSize)
    {p : Pcb} (hp : p ∈ cfg.procs) (hlt : s.progCounter p.pid < p.codeSize) :
    s.worked < cfg.work :=
  List.sum_lt_sum _ _ hle ⟨p, hp, hlt⟩

/-- The process that CPU `c` holds after its step was held, or waited. -/
theorem held_of_current_cpuStep {s : Os cfg} {c : Fin cfg.numCpus} {p : Pcb}
    (h : (s.cpuStep c).current c = some p) : s.Held p := by
  have hgoes := s.cpuStep_goes c
  rw [current] at h
  generalize ((s.cpuStep c).cpus c).pc = pc' at h hgoes
  have hself : ∀ {pc : CpuPc}, (s.cpus c).pc = pc → pc.current = some p → s.Held p :=
    fun hpc hcur => Or.inr ⟨c, (congrArg CpuPc.current hpc).trans hcur⟩
  cases hgoes with
  | expire hpc _ _ => exact hself hpc h
  | keep hpc _ _ => exact hself hpc h
  | take _ hget =>
      obtain rfl := Option.some.inj h
      exact Or.inl (Sched.waiting_of_getProc hget)
  | listed hpc => exact hself hpc h
  | dispatch hpc => exact hself hpc h
  | ran hpc => exact hself hpc h
  | next hpc => exact hself hpc h
  | _ => cases h

/-- A CPU makes no process busy that was not. -/
theorem busy_of_cpuStep {s : Os cfg} {c : Fin cfg.numCpus} (h : (s.cpuStep c).Busy) : s.Busy := by
  rcases h with ⟨p, hheld, hlt⟩
  refine ⟨p, ?_, Nat.lt_of_le_of_lt (progCounter_le_cpuStep s c p.pid) hlt⟩
  rcases hheld with ⟨k, hk⟩ | ⟨d, hd⟩
  · rcases (s.cpuStep_move c).onPlaces.mem_level hk with hbefore | henter
    · exact Or.inl ⟨k, hbefore⟩
    · -- it has been put back by this CPU
      simp only [entering] at henter
      split at henter
      · rename_i hpc
        refine Or.inr ⟨c, ?_⟩
        simp only [current, hpc, CpuPc.current]
        exact henter
      · cases henter
  · by_cases hdc : d = c
    · subst hdc
      exact held_of_current_cpuStep hd
    · rw [current, (s.cpuStep_move c).cpus_of_ne hdc] at hd
      exact Or.inr ⟨d, hd⟩

/-- A step that executes nothing and adds nothing to the levels makes no process busy. -/
theorem Busy.of_waiting {s s' : Os cfg} (h : s'.Busy) (hcpus : s'.cpus = s.cpus)
    (hpcs : s'.progCounter = s.progCounter)
    (hwait : ∀ p, s'.sched.Waiting p → s.sched.Waiting p) : s.Busy := by
  rcases h with ⟨p, hheld, hlt⟩
  rw [hpcs] at hlt
  refine ⟨p, ?_, hlt⟩
  rcases hheld with hp | ⟨c, hc⟩
  · exact Or.inl (hwait p hp)
  · rw [current, hcpus] at hc
    exact Or.inr ⟨c, hc⟩

end Os

namespace Simulator

variable {cfg : Config}

/-- Behind the last arrival, the loader adds nothing. -/
theorem waiting_of_loaderStep {s : Simulator cfg} (h : s.Looked)
    (hclosing : cfg.closing ≤ s.timer.time) {p : Pcb}
    (hp : s.os.loaderStep.sched.Waiting p) : s.os.sched.Waiting p := by
  rcases hp with ⟨k, hk⟩
  exact ⟨k, loaderStep_level (h.timed.all_added hclosing).2 k ▸ hk⟩

/-- Nor does anything else make a process busy that was not. -/
theorem busy_of_exec {s s' : Simulator cfg} {a : Action cfg} (h : s.Looked)
    (hclosing : cfg.closing ≤ s.timer.time) (hexec : s.exec a = some s') (hb : s'.os.Busy) :
    s.os.Busy := by
  have hkill : (∃ c name, a = .killRunning c name ∨ a = .killReady c name) → s.os.Busy := by
    intro ha
    rcases exec_kill hexec ha with ⟨_, sched, hos, hsub⟩
    rw [hos] at hb
    exact hb.of_waiting rfl rfl fun _ hp => Sched.Waiting.of_subperm hp hsub
  cases a with
  | timer b =>
      rw [(exec_timerStep hexec).os] at hb
      exact hb
  | cpu c =>
      rcases move_eq hexec with ⟨_, _, hos⟩
      rw [hos] at hb
      exact Os.busy_of_cpuStep hb
  | loader =>
      rcases move_eq hexec with ⟨_, _, hos⟩
      rw [hos] at hb
      rcases s.os.loaderStep_move.frame with ⟨hcpus, hpcs, _⟩
      exact hb.of_waiting hcpus hpcs fun _ hp => waiting_of_loaderStep h hclosing hp
  | killRunning c name => exact hkill ⟨c, name, Or.inl rfl⟩
  | killReady c name => exact hkill ⟨c, name, Or.inr rfl⟩

/-- The clock moves by one, while nothing is executed. -/
theorem exec_clock {s s' : Simulator cfg} {a : Action cfg} (hexec : s.exec a = some s')
    (htime : s'.timer.time ≠ s.timer.time) :
    s'.timer.time = s.timer.time + 1 ∧ s'.os.worked = s.os.worked := by
  cases a with
  | timer b =>
      have hstep := exec_timerStep hexec
      rcases Timer.step_tick hstep.step htime with ⟨_, htimer⟩
      exact ⟨by rw [htimer], by rw [hstep.os]; rfl⟩
  | cpu c =>
      rcases move_eq hexec with ⟨_, hcall, _⟩
      exact absurd (call_time hcall) htime
  | loader =>
      rcases move_eq hexec with ⟨_, hcall, _⟩
      exact absurd (call_time hcall) htime
  | killRunning c name =>
      exact absurd (by rw [(exec_kill hexec ⟨c, name, Or.inl rfl⟩).1]) htime
  | killReady c name =>
      exact absurd (by rw [(exec_kill hexec ⟨c, name, Or.inr rfl⟩).1]) htime

/-! ## CPUs in a slot -/

/-- Program points from which a CPU goes on to execute an instruction or to find the levels
empty. -/
def AtWork : CpuPc → Prop
  | .recheck none | .slot _ | .stopped => False
  | _ => True

/-- The CPU is in the running slot and not through with it. -/
def Active (s : Simulator cfg) (c : Fin cfg.numCpus) : Prop :=
  AtWork (s.os.cpus c).pc ∧ (s.timer.devList (cpuDevice c)).slot = s.timer.time

/-- The CPU has executed an instruction in the running slot. -/
def HasRun (s : Simulator cfg) (c : Fin cfg.numCpus) : Prop :=
  ∃ p, (s.os.cpus c).pc = .slot (some p) ∨
    (s.os.cpus c).pc = .loop (some p) ∧
      (s.timer.devList (cpuDevice c)).slot = s.timer.time + 1

/-- A CPU with a process is at work or has run it. -/
theorem active_or_hasRun {s : Simulator cfg} (hsound : s.Sound) (hlinked : s.Linked)
    {c : Fin cfg.numCpus} {p : Pcb} (hcur : s.os.current c = some p) : s.Active c ∨ s.HasRun c := by
  have hlink := hlinked c
  have hdet : (s.timer.devList (cpuDevice c)).pc ≠ .detached := by
    intro hdet
    rw [Os.current, hlink.detached hdet] at hcur
    cases hcur
  by_cases hwork : (s.timer.devList (cpuDevice c)).pc = .working
  · have hslot := (hsound.inv.time_eq_slot hwork).symm
    cases hpc : (s.os.cpus c).pc with
    | slot proc =>
        obtain rfl : proc = some p := by simpa [Os.current, hpc, CpuPc.current] using hcur
        exact Or.inr ⟨p, Or.inl hpc⟩
    | recheck proc =>
        obtain rfl : proc = some p := by simpa [Os.current, hpc, CpuPc.current] using hcur
        exact Or.inl ⟨by simp [AtWork, hpc], hslot⟩
    | stopped => simp [Os.current, hpc, CpuPc.current] at hcur
    | _ => exact Or.inl ⟨by simp [AtWork, hpc], hslot⟩
  · -- inside `next_slot`: on its way into this slot, or out of it
    rcases hlink.inside hwork hdet with ⟨proc, hpc⟩
    obtain rfl : proc = some p := by simpa [Os.current, hpc, CpuPc.current] using hcur
    rcases hsound.inv.slot_eq hdet with hslot | hslot
    · exact Or.inl ⟨by simp [AtWork, hpc], hslot⟩
    · exact Or.inr ⟨p, Or.inr ⟨hpc, hslot⟩⟩

/-! ## The invariant -/

/-- From slot `t₀` on, which began with `w₀` instructions executed: the clock is at most as many
slots ahead as instructions have been executed since; and if it is that many, the CPUs are not
through with the slot. -/
structure Paced (s : Simulator cfg) (t₀ w₀ : Nat) : Prop where
  base : w₀ ≤ s.os.worked
  pace : t₀ ≤ s.timer.time → s.os.Busy → s.timer.time + w₀ ≤ t₀ + s.os.worked
  active : t₀ ≤ s.timer.time → s.os.Busy →
    s.timer.time + w₀ < t₀ + s.os.worked ∨ ∃ c, s.Active c
  hasRun : t₀ ≤ s.timer.time → ∀ c, s.HasRun c → s.timer.time + w₀ < t₀ + s.os.worked

/-- Before slot `t₀` there is nothing to count. -/
theorem paced_of_lt {s : Simulator cfg} {t₀ : Nat} (h : s.timer.time < t₀) :
    s.Paced t₀ s.os.worked :=
  ⟨Nat.le_refl _, fun hle => absurd hle (not_le.2 h), fun hle => absurd hle (not_le.2 h),
    fun hle => absurd hle (not_le.2 h)⟩

section Slots

variable {t₀ w₀ : Nat}

/-- A step in a slot that is none of a CPU. -/
theorem Paced.otherStep {s s' : Simulator cfg} (hclosing : cfg.closing ≤ t₀) (h : s.Paced t₀ w₀)
    (htime : s'.timer.time = s.timer.time) (hcpus : s'.os.cpus = s.os.cpus)
    (hpcs : s'.os.progCounter = s.os.progCounter)
    (hslot : ∀ c, (s'.timer.devList (cpuDevice c)).slot = (s.timer.devList (cpuDevice c)).slot)
    (hwait : cfg.closing ≤ s.timer.time → ∀ p, s'.os.sched.Waiting p → s.os.sched.Waiting p) :
    s'.Paced t₀ w₀ := by
  have hworked : s'.os.worked = s.os.worked := by rw [Os.worked, hpcs, Os.worked]
  have hbusy : t₀ ≤ s.timer.time → s'.os.Busy → s.os.Busy := fun hfrom hb =>
    hb.of_waiting hcpus hpcs (hwait (hclosing.trans hfrom))
  refine ⟨hworked ▸ h.base, fun hfrom hb => ?_, fun hfrom hb => ?_, fun hfrom c hrun => ?_⟩
  · rw [htime] at hfrom ⊢
    rw [hworked]
    exact h.pace hfrom (hbusy hfrom hb)
  · rw [htime] at hfrom ⊢
    rw [hworked]
    rcases h.active hfrom (hbusy hfrom hb) with hworking | ⟨c, hc⟩
    · exact Or.inl hworking
    · refine Or.inr ⟨c, ?_⟩
      rw [Active, hcpus, hslot, htime]
      exact hc
  · rw [htime] at hfrom ⊢
    rw [hworked]
    rw [HasRun, hcpus, hslot, htime] at hrun
    exact h.hasRun hfrom c hrun

/-- When the clock is about to move, a CPU that has not stopped is through with the slot and will go
on with the head of its loop. -/
theorem tick_cpu {s : Simulator cfg} (hsound : s.Sound) (hlinked : s.Linked)
    (htick : s.timer.pc = .tick) (c : Fin cfg.numCpus) :
    (s.os.cpus c).pc = .stopped ∨ (∃ proc, (s.os.cpus c).pc = .loop proc) ∧
      (s.timer.devList (cpuDevice c)).slot = s.timer.time + 1 := by
  rcases hsound.inv.tick_device htick (cpuDevice c) with hdet | ⟨hin, hslot⟩
  · exact Or.inl ((hlinked c).detached hdet)
  · refine Or.inr ⟨?_, hslot⟩
    rcases hin with hin | hin
    · exact (hlinked c).inside (by simp [hin]) (by simp [hin])
    · exact (hlinked c).inside (by simp [hin]) (by simp [hin])

/-- The tick ends a slot in which an instruction has been executed, if anything was left. -/
theorem Paced.tick {s s' : Simulator cfg} (hclosing : cfg.closing ≤ t₀) (h : s.Paced t₀ w₀)
    (hlooked : s.Looked) (hlooked' : s'.Looked) (htick : s.timer.pc = .tick)
    (hos : s'.os = { s.os with time := s'.timer.time })
    (htimer : s'.timer = { s.timer with pc := .release 0, time := s.timer.time + 1 }) :
    s'.Paced t₀ w₀ := by
  have hcpu := tick_cpu hlooked.timed.sound hlooked.linked htick
  have htime : s'.timer.time = s.timer.time + 1 := by rw [htimer]
  have hcpus : s'.os.cpus = s.os.cpus := by rw [hos]
  have hdev : s'.timer.devList = s.timer.devList := by rw [htimer]
  have hworked : s'.os.worked = s.os.worked := by rw [hos]; rfl
  have hbase := h.base
  have hbusy : s'.os.Busy → s.os.Busy := by
    rw [hos]
    exact id
  refine ⟨hworked ▸ hbase, fun hfrom hb => ?_, fun hfrom hb => Or.inr ?_, fun _ c hrun => ?_⟩
  · rw [hworked]
    by_cases hbefore : t₀ ≤ s.timer.time
    · rcases h.active hbefore (hbusy hb) with hlt | ⟨c, hatWork, hslot⟩
      · omega
      · -- no CPU is at work in the old slot any more
        rcases hcpu c with hpc | ⟨_, hslot'⟩
        · simp [AtWork, hpc] at hatWork
        · omega
    · omega
  · -- in the new slot, the CPU with the process is at work, or one that looks for it
    have hactive : ∀ c, (s.os.cpus c).pc ≠ .stopped → s'.Active c := by
      intro c hc
      rcases hcpu c with hpc | ⟨⟨proc, hpc⟩, hslot⟩
      · exact absurd hpc hc
      · refine ⟨?_, ?_⟩
        · rw [hcpus, hpc]
          exact trivial
        · rw [hdev, htime, hslot]
    rcases hb with ⟨p, hwait | ⟨c, hc⟩, _⟩
    · rcases hlooked'.looked (hclosing.trans hfrom) p hwait with ⟨c, hc⟩
      rw [hcpus] at hc
      exact ⟨c, hactive c fun hpc => hc (Or.inr hpc)⟩
    · refine ⟨c, hactive c fun hpc => ?_⟩
      rw [Os.current, hcpus, hpc] at hc
      cases hc
  · rcases hrun with ⟨p, hpc | ⟨hpc, hslot⟩⟩
    · rw [hcpus] at hpc
      rcases hcpu c with hpc' | ⟨⟨proc, hpc'⟩, _⟩
      · rw [hpc'] at hpc
        cases hpc
      · rw [hpc'] at hpc
        cases hpc
    · rw [hcpus] at hpc
      rw [hdev] at hslot
      rcases hcpu c with hpc' | ⟨_, hslot'⟩
      · rw [hpc'] at hpc
        cases hpc
      · omega

/-- Where a CPU goes that was at work: on, out of the slot behind an instruction, or out of it
behind empty levels. -/
theorem atWork_cpuStep {s : Os cfg} {c : Fin cfg.numCpus} (h : AtWork (s.cpus c).pc) :
    AtWork ((s.cpuStep c).cpus c).pc ∨ (∃ p, ((s.cpuStep c).cpus c).pc = .slot (some p)) ∨
      (s.cpuStep c).sched = s.sched ∧ s.sched.getProc = none := by
  have hgoes := s.cpuStep_goes c
  generalize hpc' : ((s.cpuStep c).cpus c).pc = pc' at hgoes ⊢
  cases hgoes with
  | skip hpc hget =>
      refine Or.inr (Or.inr ⟨?_, hget⟩)
      simp only [Os.cpuStep, hpc, hget]
      rfl
  | empty hpc hget =>
      refine Or.inr (Or.inr ⟨?_, hget⟩)
      simp only [Os.cpuStep, hpc, hget]
      rfl
  | leave hpc _ => simp [AtWork, hpc] at h
  | wait hpc _ => simp [AtWork, hpc] at h
  | next hpc => simp [AtWork, hpc] at h
  | stay hpc => simp [AtWork, hpc] at h
  | ran hpc => exact Or.inr (Or.inl ⟨_, rfl⟩)
  | _ => exact Or.inl trivial

/-- Step lemma for a CPU; `hexec` tells that it executes an instruction when it calls `run`. -/
theorem Paced.cpuStep {s s' : Simulator cfg} {c : Fin cfg.numCpus} (h : s.Paced t₀ w₀)
    (hlooked' : s'.Looked) (hstep : s.exec (.cpu c) = some s')
    (hexec : ∀ p, (s.os.cpus c).pc = .exec p →
      p ∈ cfg.procs ∧ s.os.progCounter p.pid < p.codeSize) :
    s'.Paced t₀ w₀ := by
  rcases move_eq hstep with ⟨hwork, hcall, hos⟩
  have htime : s'.timer.time = s.timer.time := call_time hcall
  have hos' : s'.os = s.os.cpuStep c := hos
  have hothers : ∀ d, d ≠ c → s'.os.cpus d = s.os.cpus d ∧
      (s'.timer.devList (cpuDevice d)).slot = (s.timer.devList (cpuDevice d)).slot := by
    intro d hd
    refine ⟨exec_cpu_of_ne hstep (by simp [hd.symm]), ?_⟩
    refine (exec_device hstep (fun e he heq => ?_) (fun _ => cpuDevice_ne_ldDevice d)).slot
    obtain rfl : c = e := by simpa using he
    exact hd (cpuDevice_injective heq)
  have hworked : s.os.worked ≤ s'.os.worked := hos' ▸ Os.worked_le_cpuStep s.os c
  have hbusy : s'.os.Busy → s.os.Busy := fun hb => Os.busy_of_cpuStep (hos' ▸ hb)
  have hrun : t₀ ≤ s.timer.time → ∀ d, s'.HasRun d →
      s.timer.time + w₀ < t₀ + s'.os.worked := by
    intro hfrom d hd
    by_cases hdc : d = c
    · subst hdc
      rcases hd with ⟨p, hpc⟩
      have hgoes := s.os.cpuStep_goes d
      rw [← hos'] at hgoes
      rcases hpc with hpc | ⟨hpc, _⟩
      · -- it has just executed an instruction
        rw [hpc] at hgoes
        cases hgoes with
        | ran hpc₀ =>
            rcases hexec p hpc₀ with ⟨hp, hlt⟩
            have hmore : s'.os.worked = s.os.worked + 1 := hos' ▸ Os.worked_exec hp hpc₀ hlt
            have hcur : s.os.current d = some p := congrArg CpuPc.current hpc₀
            have hpace := h.pace hfrom ⟨p, Or.inr ⟨d, hcur⟩, hlt⟩
            omega
      · -- it did so before it called `next_slot`
        rw [hpc] at hgoes
        cases hgoes with
        | next hpc₀ =>
            have hbefore := h.hasRun hfrom d ⟨p, Or.inl hpc₀⟩
            omega
    · rcases hothers d hdc with ⟨hcpu, hslot⟩
      rw [HasRun, hcpu, hslot, htime] at hd
      have hbefore := h.hasRun hfrom d hd
      omega
  refine ⟨h.base.trans hworked, fun hfrom hb => ?_, fun hfrom hb => ?_, fun hfrom d hd => ?_⟩
  · rw [htime] at hfrom ⊢
    have hpace := h.pace hfrom (hbusy hb)
    omega
  · rw [htime] at hfrom ⊢
    have hold := h.active hfrom (hbusy hb)
    rcases hb with ⟨p, hwait | ⟨d, hd⟩, _⟩
    · rcases hold with hlt | ⟨d, hatWork, hslot⟩
      · exact Or.inl (by omega)
      · by_cases hdc : d = c
        · subst hdc
          rcases atWork_cpuStep hatWork with hstill | ⟨q, hq⟩ | ⟨hsched, hget⟩
          · -- a CPU at work does not call `next_slot`
            refine Or.inr ⟨d, by rw [hos']; exact hstill, ?_⟩
            have hnone : cpuCall (s.os.cpus d).pc ≠ .nextSlot := by
              cases hpc : (s.os.cpus d).pc with
              | slot proc => simp [AtWork, hpc] at hatWork
              | _ => simp [cpuCall]
            rw [call_slot hcall, if_neg hnone, hslot, htime]
          · exact Or.inl (hrun hfrom d ⟨q, Or.inl (by rw [hos']; exact hq)⟩)
          · -- it has found the levels empty
            rcases hwait with ⟨k, hk⟩
            rw [hos', hsched, Sched.getProc_eq_none_iff.1 hget k] at hk
            cases hk
        · rcases hothers d hdc with ⟨hcpu, hslot'⟩
          refine Or.inr ⟨d, ?_⟩
          rw [Active, hcpu, hslot', htime]
          exact ⟨hatWork, hslot⟩
    · rcases active_or_hasRun hlooked'.timed.sound hlooked'.linked hd with hactive | hran
      · exact Or.inr ⟨d, hactive⟩
      · exact Or.inl (hrun hfrom d hran)
  · rw [htime] at hfrom ⊢
    exact hrun hfrom d hd

/-- A section of the timer: the tick, or one that leaves the clock alone. -/
theorem Paced.timerStep {s s' : Simulator cfg} {b : Timer.Action (cfg.numCpus + 1)}
    (hclosing : cfg.closing ≤ t₀) (h : s.Paced t₀ w₀) (hlooked : s.Looked) (hlooked' : s'.Looked)
    (hstep : s.exec (.timer b) = some s') : s'.Paced t₀ w₀ := by
  have hos := (exec_timerStep hstep).os
  by_cases htime : s'.timer.time = s.timer.time
  · have hslot := fun c => (exec_device hstep (d := cpuDevice c) (by simp) (by simp)).slot
    refine h.otherStep hclosing htime (by rw [hos]) (by rw [hos]) hslot fun _ p hp => ?_
    rw [hos] at hp
    exact hp
  · rcases exec_timer hstep with heq | ⟨b', hb'⟩
    · exact absurd (by rw [heq]) htime
    · rcases Timer.step_tick hb' htime with ⟨htick, htimer⟩
      exact h.tick hclosing hlooked hlooked' htick hos htimer

theorem Paced.loaderStep {s s' : Simulator cfg} (hclosing : cfg.closing ≤ t₀) (h : s.Paced t₀ w₀)
    (hlooked : s.Looked) (hstep : s.exec .loader = some s') : s'.Paced t₀ w₀ := by
  rcases move_eq hstep with ⟨_, hcall, hos⟩
  have hslot := fun c => (exec_device hstep (d := cpuDevice c) (by simp)
    (fun _ => cpuDevice_ne_ldDevice c)).slot
  rcases s.os.loaderStep_move.frame with ⟨hcpus, hpcs, _⟩
  refine h.otherStep hclosing (call_time hcall) (by rw [hos]; exact hcpus)
    (by rw [hos]; exact hpcs) hslot fun hover p hp => ?_
  rw [hos] at hp
  exact waiting_of_loaderStep hlooked hover hp

theorem Paced.killStep {s s' : Simulator cfg} {a : Action cfg} (hclosing : cfg.closing ≤ t₀)
    (h : s.Paced t₀ w₀) (hexec : s.exec a = some s')
    (ha : ∃ c name, a = .killRunning c name ∨ a = .killReady c name) : s'.Paced t₀ w₀ := by
  rcases exec_kill hexec ha with ⟨htimer, sched, heq, hsub⟩
  refine h.otherStep hclosing (by rw [htimer]) (by rw [heq]) (by rw [heq]) (fun c => by rw [htimer])
    fun _ p hp => ?_
  rw [heq] at hp
  exact Sched.Waiting.of_subperm hp hsub

end Slots

end Simulator

namespace History

variable {cfg : Config}

/-- The invariant: the history, the way of the CPUs through their loops, and the pace since the last
arrival. -/
structure Driven (h : History cfg) : Prop where
  inv : h.Inv
  looked : h.sim.Looked
  paced : h.sim.Paced cfg.closing 0

theorem not_busy_init (cfg : Config) : ¬ (Os.init cfg).Busy := by
  rintro ⟨p, hheld, _⟩
  rcases hheld with ⟨k, hk⟩ | ⟨c, hc⟩
  · simp [Os.init] at hk
  · simp [Os.init, Os.current, CpuPc.current] at hc

theorem paced_init (cfg : Config) {t₀ w₀ : Nat} (hbase : w₀ ≤ (Os.init cfg).worked) :
    (init cfg).sim.Paced t₀ w₀ := by
  refine ⟨hbase, fun _ hb => absurd hb (not_busy_init cfg),
    fun _ hb => absurd hb (not_busy_init cfg), fun _ c hrun => ?_⟩
  rcases hrun with ⟨p, hpc | ⟨hpc, _⟩⟩
  · simp [init, Simulator.init, Os.init] at hpc
  · simp [init, Simulator.init, Os.init] at hpc

theorem driven_init (cfg : Config) : (init cfg).Driven :=
  ⟨inv_init cfg, Simulator.looked_init cfg, paced_init cfg (Nat.zero_le _)⟩

/-- Step lemma for the pace since any slot behind the last arrival. -/
theorem Inv.paced_exec {h h' : History cfg} {a : Simulator.Action cfg} {t₀ w₀ : Nat} (hinv : h.Inv)
    (hclosing : cfg.closing ≤ t₀) (hlooked : h.sim.Looked) (hlooked' : h'.sim.Looked)
    (hpaced : h.sim.Paced t₀ w₀) (hsim : h.sim.exec a = some h'.sim) : h'.sim.Paced t₀ w₀ := by
  cases a with
  | timer b => exact hpaced.timerStep hclosing hlooked hlooked' hsim
  | cpu c =>
      refine hpaced.cpuStep hlooked' hsim fun p hpc => ?_
      have hcur : h.sim.os.current c = some p := congrArg CpuPc.current hpc
      exact ⟨Os.mem_procs_of_held hinv.programs.counted (Or.inr ⟨c, hcur⟩), hinv.exec_lt hpc⟩
  | loader => exact hpaced.loaderStep hclosing hlooked hsim
  | killRunning c name => exact hpaced.killStep hclosing hsim ⟨c, name, Or.inl rfl⟩
  | killReady c name => exact hpaced.killStep hclosing hsim ⟨c, name, Or.inr rfl⟩

theorem Driven.exec {h h' : History cfg} {a : Simulator.Action cfg} (hd : h.Driven)
    (hts : 0 < cfg.timeSlot) (hcpus : 0 < cfg.numCpus) (hsize : ∀ p ∈ cfg.procs, 1 ≤ p.codeSize)
    (hexec : h.exec a = some h') : h'.Driven := by
  have hinv := hd.inv.exec hts hsize hexec
  rcases Option.map_eq_some_iff.1 hexec with ⟨sim, hsim, rfl⟩
  have hlooked := hd.looked.exec hcpus hsim
  exact ⟨hinv, hlooked, hd.inv.paced_exec (Nat.le_refl _) hd.looked hlooked hd.paced hsim⟩

/-! ## Slots -/

/-- Among the states, an instruction has been executed in slot `n`: the number of those executed
is not the same in two states of the slot. -/
def WorksIn (states : List (History cfg)) (n : Nat) : Prop :=
  ∃ x ∈ states, ∃ y ∈ states, x.sim.timer.time = n ∧ y.sim.timer.time = n ∧
    x.sim.os.worked < y.sim.os.worked

/-- As long as an unfinished process is left, every slot behind the last arrival that is over has
been worked in. -/
def Paces (states : List (History cfg)) (h : History cfg) : Prop :=
  h.sim.os.Busy → ∀ n, cfg.closing ≤ n → n < h.sim.timer.time → WorksIn states n

/-- The invariant inside the states of a run: the running slot began with a state of them. -/
structure Followed (states : List (History cfg)) (h : History cfg) : Prop where
  driven : h.Driven
  start : cfg.closing ≤ h.sim.timer.time → ∃ x ∈ states, x.sim.timer.time = h.sim.timer.time ∧
    h.sim.Paced h.sim.timer.time x.sim.os.worked
  paces : Paces states h

theorem followed_init {states : List (History cfg)} (hmem : init cfg ∈ states) :
    (init cfg).Followed states := by
  refine ⟨driven_init cfg, fun _ => ⟨init cfg, hmem, rfl, paced_init cfg (Nat.le_refl _)⟩,
    fun hb => absurd hb (not_busy_init cfg)⟩

/-- Step lemma: the tick ends a slot that has been worked in. -/
theorem Followed.exec {states : List (History cfg)} {h h' : History cfg}
    {a : Simulator.Action cfg} (hf : h.Followed states) (hts : 0 < cfg.timeSlot)
    (hcpus : 0 < cfg.numCpus) (hsize : ∀ p ∈ cfg.procs, 1 ≤ p.codeSize) (hmem : h ∈ states)
    (hmem' : h' ∈ states) (hexec : h.exec a = some h') : h'.Followed states := by
  have hdriven := hf.driven.exec hts hcpus hsize hexec
  have hsim : h.sim.exec a = some h'.sim := by
    rcases Option.map_eq_some_iff.1 hexec with ⟨sim, hsim, rfl⟩
    exact hsim
  have hpaced : ∀ {t₀ w₀ : Nat}, cfg.closing ≤ t₀ → h.sim.Paced t₀ w₀ → h'.sim.Paced t₀ w₀ :=
    fun hclosing hp => hf.driven.inv.paced_exec hclosing hf.driven.looked hdriven.looked hp hsim
  have hbefore : cfg.closing ≤ h.sim.timer.time → h'.sim.os.Busy → h.sim.os.Busy :=
    fun hclosing hb => Simulator.busy_of_exec hf.driven.looked hclosing hsim hb
  by_cases htime : h'.sim.timer.time = h.sim.timer.time
  · refine ⟨hdriven, fun hclosing => ?_, fun hb n hclosing hn => ?_⟩
    · rw [htime] at hclosing ⊢
      rcases hf.start hclosing with ⟨x, hx, hslot, hp⟩
      exact ⟨x, hx, hslot, hpaced hclosing hp⟩
    · rw [htime] at hn
      exact hf.paces (hbefore (by omega) hb) n hclosing hn
  · rcases Simulator.exec_clock hsim htime with ⟨htick, hworked⟩
    refine ⟨hdriven, fun hclosing => ?_, fun hb n hclosing hn => ?_⟩
    · -- the new slot begins with the state behind the tick
      refine ⟨h', hmem', rfl, ?_⟩
      rw [hworked]
      exact hpaced hclosing (Simulator.paced_of_lt (by omega))
    · have hbusy := hbefore (by omega) hb
      by_cases hlast : n < h.sim.timer.time
      · exact hf.paces hbusy n hclosing hlast
      · -- the slot that the tick has ended
        obtain rfl : n = h.sim.timer.time := by omega
        rcases hf.start hclosing with ⟨x, hx, hslot, hp⟩
        have hpace := (hpaced hclosing hp).pace (by omega) hb
        exact ⟨x, hx, h, hmem, hslot, rfl, by omega⟩

/-- For every number of CPUs, every set of programs and every interleaving, the passes of `killall`
included: as long as an unfinished process is left, an instruction has been executed in every slot
behind the last arrival that is over. -/
theorem always_paces (cfg : Config) (hts : 0 < cfg.timeSlot) (hcpus : 0 < cfg.numCpus)
    (hsize : ∀ p ∈ cfg.procs, 1 ≤ p.codeSize) (as : List (Simulator.Action cfg)) :
    AllStates (Paces (init cfg :: (traceFn exec (init cfg) as).map Prod.snd)) (init cfg)
      (traceFn exec (init cfg) as) := by
  rcases run_traceFn exec (init cfg) as with ⟨t, hrun⟩
  have hfollowed := hrun.allStates_within
    (S := (· ∈ init cfg :: (traceFn exec (init cfg) as).map Prod.snd))
    ⟨List.mem_cons_self, fun x hx => List.mem_cons_of_mem _ (List.mem_map_of_mem hx)⟩
    (fun hmem hmem' hf hexec => hf.exec hts hcpus hsize hmem hmem' hexec)
    (followed_init List.mem_cons_self)
  exact ⟨hfollowed.1.paces, fun x hx => (hfollowed.2 x hx).paces⟩

/-- The CPU looks for a process before the loader adds it, so that it executes the instructions of
`short` in the three slots behind the last arrival. -/
def lateRun : List (Simulator.Action short) :=
  let first : Fin short.numCpus := ⟨0, Nat.one_pos⟩
  let cpu : Simulator.Action short := .cpu first
  let slot : List (Simulator.Action short) :=
    List.replicate 9 (.timer .timerRoutine) ++ [.timer (.resume (Simulator.cpuDevice first))]
  List.replicate 3 cpu ++ List.replicate 5 .loader ++ slot ++
    [.timer (.resume (Simulator.ldDevice short))] ++
    List.replicate 3 .loader ++ List.replicate 5 cpu ++ slot ++ List.replicate 4 cpu ++ slot ++
      List.replicate 7 cpu ++ slot

/-- In the third of these slots the process is held, and two of them are over. -/
theorem late_paces :
    (runFn exec (init short) (lateRun.take 55)).map (fun h =>
        (h.sim.timer.time, (h.sim.os.current ⟨0, by decide⟩).map Pcb.codeSize,
          h.sim.os.progCounter 1)) = some (3, some 3, 2) ∧
      AllStates (Paces (init short :: (traceFn exec (init short) (lateRun.take 55)).map Prod.snd))
        (init short) (traceFn exec (init short) (lateRun.take 55)) :=
  ⟨by decide +kernel, always_paces short (by decide) (by decide) (by decide) (lateRun.take 55)⟩

/-! ## The deadline -/

/-- Behind the last arrival and as long as an unfinished process is left, at least one instruction
has been executed for every slot that is over. -/
theorem Driven.time_le {h : History cfg} (hd : h.Driven) (hclosing : cfg.closing ≤ h.sim.timer.time)
    (hbusy : h.sim.os.Busy) :
    h.sim.timer.time ≤ cfg.closing + h.sim.os.worked ∧ h.sim.os.worked < cfg.work := by
  refine ⟨hd.paced.pace hclosing hbusy, ?_⟩
  rcases hbusy with ⟨p, hheld, hlt⟩
  exact Os.worked_lt (fun q hq => hd.inv.progCounter_le hq)
    (Os.mem_procs_of_held hd.inv.programs.counted hheld) hlt

/-- The programs of a configuration that fits are over when the clock is as many slots behind the
last arrival as they have instructions. -/
theorem Fitted.allExecuted_of_time {h : History cfg} (hf : h.Fitted) (hd : h.Driven)
    (htime : cfg.closing + cfg.work ≤ h.sim.timer.time) : h.AllExecuted := by
  intro p hp
  have hclosing : cfg.closing ≤ h.sim.timer.time := by omega
  have hle := hd.inv.progCounter_le hp
  have hover : ¬ h.sim.os.progCounter p.pid < p.codeSize := by
    intro hlt
    have hadded : p ∈ cfg.procs.take h.sim.os.loader.i := by
      rw [(hd.looked.timed.all_added hclosing).1,
        List.take_of_length_le (by simp [Config.procs])]
      exact hp
    have hheld : h.sim.os.Held p := by
      rcases hf.whole.noneLost p hadded hlt with ⟨hprio, hmem⟩ | hcur
      · exact Or.inl ⟨_, hmem⟩
      · exact Or.inr hcur
    have hpaces := hd.time_le hclosing ⟨p, hheld, hlt⟩
    omega
  rw [hd.inv.executed p hp, le_antisymm hle (not_lt.1 hover)]

/-- The deadline: in every run of a configuration that fits, all programs have been executed when
the clock shows the slot behind the last arrival and one more for each of their instructions. -/
theorem deadline (cfg : Config) (hfits : cfg.Fits) (as : List (Simulator.Action cfg)) :
    AllStates (fun h => cfg.closing + cfg.work ≤ h.sim.timer.time → h.AllExecuted) (init cfg)
      (traceFn exec (init cfg) as) := by
  rcases run_traceFn exec (init cfg) as with ⟨t, hrun⟩
  have hboth := hrun.allStates (I := fun h => h.Fitted ∧ h.Driven)
    (fun hI hexec => ⟨hI.1.exec hfits hexec,
      hI.2.exec hfits.timeSlot hfits.cpus hfits.size hexec⟩)
    ⟨fitted_init cfg, driven_init cfg⟩
  exact ⟨fun htime => hboth.1.1.allExecuted_of_time hboth.1.2 htime,
    fun x hx htime => (hboth.2 x hx).1.allExecuted_of_time (hboth.2 x hx).2 htime⟩

theorem late_deadline :
    short.closing + short.work = 4 ∧
      (runFn exec (init short) lateRun).map (fun h => h.sim.timer.time) = some 4 ∧
      AllStates (fun h => short.closing + short.work ≤ h.sim.timer.time → h.AllExecuted)
        (init short) (traceFn exec (init short) lateRun) :=
  ⟨by decide, by decide +kernel, deadline short short_fits lateRun⟩

end History
end MiniOs
