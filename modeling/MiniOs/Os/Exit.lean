import MiniOs.Os.NoneLost

/-!
# Exit — which CPUs leave their loop

When the loader is done, all levels are empty and no CPU holds a process, nothing but the CPUs'
own program points can change any more (`quiet_step`).  From there a CPU reaches the `break` only
if it is already behind the first test of its iteration: the branch for `proc == NULL` calls
`next_slot` and `continue`s before it has looked at `done`.
-/

namespace MiniOs

/-- The way of a CPU without a process through its loop when there is nothing to get. -/
def CpuPc.quietNext : CpuPc → CpuPc
  -- the idle branch is a cycle of its own
  | .loop none => .getIdle
  | .getIdle => .slot none
  | .slot none => .loop none
  -- the other way leads through the test of `done`
  | .getNext => .recheck none
  | .recheck none => .stopped
  | pc => pc

theorem CpuPc.quietNext_current {pc : CpuPc} (h : pc.current = none) :
    pc.quietNext.current = none := by
  cases pc with
  | loop proc =>
      obtain rfl : proc = none := h
      rfl
  | recheck proc =>
      obtain rfl : proc = none := h
      rfl
  | slot proc =>
      obtain rfl : proc = none := h
      rfl
  | putRunning proc => cases h
  | putReady proc => cases h
  | exec proc => cases h
  | _ => rfl

namespace Os

open Lib

variable {cfg : Config}

/-! ## Definitions -/

/-- The loader has set `done`, every ready level is empty and no CPU holds a process. -/
structure Quiet (s : Os cfg) : Prop where
  done : s.done = true
  levels : ∀ k, s.sched.level k = []
  idle : ∀ c, s.current c = none

/-- Whatever the threads do next, CPU `c` is at the `break` after at most six steps of its own,
which is a rest of `next_slot` and the longest way through an iteration that does not call
`next_slot`; and it does not get into `next_slot` again. -/
structure LeavesNext (s : Os cfg) (c : Fin cfg.numCpus) : Prop where
  breaks : ∀ ts, 6 ≤ ts.count (.cpu c) → ((s.run ts).cpus c).pc = .stopped
  noSlot : ∀ ts, 0 < ts.count (.cpu c) → ∀ proc, ((s.run ts).cpus c).pc ≠ .slot proc

/-- When all is done, every CPU that has not stopped leaves its loop next. -/
def ExitsWhenQuiet (s : Os cfg) : Prop :=
  s.Quiet → ∀ c, (s.cpus c).pc ≠ .stopped → s.LeavesNext c

/-- When all is done, every CPU that has not stopped is behind the first test of its iteration: it
has just finished a process or put one back. -/
def PastFirstTest (s : Os cfg) : Prop :=
  s.Quiet → ∀ c, (s.cpus c).pc ≠ .stopped →
    (s.cpus c).pc = .getNext ∨ (s.cpus c).pc = .recheck none

/-! ## Quiet states -/

/-- The loader stops in the step that sets `done`. -/
def LoaderStopped (s : Os cfg) : Prop := s.done = true → s.loader.pc = .stopped

theorem loaderStopped_step {s : Os cfg} (h : s.LoaderStopped) (t : Thread cfg) :
    (s.step t).LoaderStopped := by
  cases t with
  | cpu c =>
      rcases (s.cpuStep_move c).frame with ⟨hdone, hloader, _⟩
      intro hd
      rw [step, hloader]
      exact h (hdone ▸ hd)
  | timer => exact h
  | loader => exact s.loaderStep_move.stopped h

/-- A quiet state with its loader at rest. -/
structure Settled (s : Os cfg) : Prop extends Quiet s where
  loader : s.loader.pc = .stopped

theorem Settled.getProc {s : Os cfg} (h : s.Settled) : s.sched.getProc = none :=
  Sched.getProc_eq_none_iff.2 h.levels

/-- A CPU step in a settled state only moves the program point on. -/
theorem Settled.cpuStep {s : Os cfg} (h : s.Settled) (c : Fin cfg.numCpus) :
    ∃ timeLeft, s.cpuStep c = s.setCpu c ⟨(s.cpus c).pc.quietNext, timeLeft⟩ := by
  -- the CPU holds no process, which leaves the points of `quietNext`
  have hidle : (s.cpus c).pc.current = none := h.idle c
  refine ⟨(s.cpus c).timeLeft, ?_⟩
  cases hpc : (s.cpus c).pc with
  | loop proc =>
      obtain rfl : proc = none := by simpa [hpc, CpuPc.current] using hidle
      simp [Os.cpuStep, hpc, CpuPc.quietNext]
  | recheck proc =>
      obtain rfl : proc = none := by simpa [hpc, CpuPc.current] using hidle
      simp [Os.cpuStep, hpc, CpuPc.quietNext, h.done]
  | slot proc =>
      obtain rfl : proc = none := by simpa [hpc, CpuPc.current] using hidle
      simp [Os.cpuStep, hpc, CpuPc.quietNext]
  | getIdle => simp [Os.cpuStep, hpc, CpuPc.quietNext, h.getProc]
  | getNext => simp [Os.cpuStep, hpc, CpuPc.quietNext, h.getProc]
  | stopped =>
      have hself : s.setCpu c ⟨.stopped, (s.cpus c).timeLeft⟩ = s := by
        have hcpu : (⟨.stopped, (s.cpus c).timeLeft⟩ : Cpu) = s.cpus c := by rw [← hpc]
        simp [setCpu, hcpu]
      simpa [Os.cpuStep, hpc, CpuPc.quietNext] using hself.symm
  | _ => simp [hpc, CpuPc.current] at hidle

/-- Step lemma: settled states stay settled, and a step moves the program point of the CPU that
takes it and of no other. -/
theorem Settled.step {s : Os cfg} (h : s.Settled) (t : Thread cfg) :
    (s.step t).Settled ∧ ∀ c, ((s.step t).cpus c).pc =
      if t = .cpu c then (s.cpus c).pc.quietNext else (s.cpus c).pc := by
  cases t with
  | timer => exact ⟨⟨⟨h.done, h.levels, h.idle⟩, h.loader⟩, fun c => by simp [Os.step]⟩
  | loader =>
      have hsame : s.step .loader = s := by simp [Os.step, loaderStep, h.loader]
      rw [hsame]
      exact ⟨h, fun c => by simp⟩
  | cpu c =>
      -- the scheduler, the loader and the other CPUs are not touched
      rcases h.cpuStep c with ⟨timeLeft, hstep⟩
      simp only [Os.step, hstep]
      refine ⟨⟨⟨h.done, h.levels, fun d => ?_⟩, h.loader⟩, fun d => ?_⟩
      · rw [current_setCpu]
        by_cases hd : d = c
        · subst hd
          simpa using CpuPc.quietNext_current (h.idle d)
        · simpa [Function.update_of_ne hd] using h.idle d
      · by_cases hd : d = c
        · subst hd
          simp [setCpu]
        · have hne : (Thread.cpu c : Thread cfg) ≠ .cpu d := by
            intro heq
            cases heq
            exact hd rfl
          simp [setCpu, Function.update_of_ne hd, hne]

/-- Run lemma: from a settled state, the program point of a CPU depends on the number of its own
steps only. -/
theorem Settled.run_pc {s : Os cfg} (h : s.Settled) (ts : List (Thread cfg))
    (c : Fin cfg.numCpus) :
    ((s.run ts).cpus c).pc = CpuPc.quietNext^[ts.count (.cpu c)] (s.cpus c).pc := by
  induction ts generalizing s with
  | nil => rfl
  | cons t ts ih =>
      rcases h.step t with ⟨hsettled, hpc⟩
      calc
        ((s.run (t :: ts)).cpus c).pc = (((s.step t).run ts).cpus c).pc := rfl
        _ = CpuPc.quietNext^[ts.count (.cpu c)] ((s.step t).cpus c).pc := ih hsettled
        _ = CpuPc.quietNext^[(t :: ts).count (.cpu c)] (s.cpus c).pc := by
          rw [hpc c]
          -- only the steps of CPU `c` count
          by_cases ht : t = .cpu c
          · simp [ht, Function.iterate_succ_apply]
          · simp [ht]

/-! ## Leaving the loop -/

theorem quietNext_stopped (n : Nat) : CpuPc.quietNext^[n] .stopped = .stopped :=
  Function.iterate_fixed rfl n

/-- The idle branch: loop head, `get_proc` and `next_slot` in turn, for ever. -/
theorem quietNext_idle (n : Nat) {pc : CpuPc}
    (h : pc = .loop none ∨ pc = .getIdle ∨ pc = .slot none) :
    CpuPc.quietNext^[n] pc = .loop none ∨ CpuPc.quietNext^[n] pc = .getIdle ∨
      CpuPc.quietNext^[n] pc = .slot none := by
  induction n generalizing pc with
  | zero => exact h
  | succ n ih =>
      rw [Function.iterate_succ_apply]
      apply ih
      -- each of the three points is followed by the next one of the cycle
      rcases h with rfl | rfl | rfl
      · exact Or.inr (Or.inl rfl)
      · exact Or.inr (Or.inr rfl)
      · exact Or.inl rfl

/-- A CPU behind the first test reaches the `break` and does not call `next_slot` on the way. -/
theorem Settled.leavesNext {s : Os cfg} (h : s.Settled) {c : Fin cfg.numCpus}
    (hpc : (s.cpus c).pc = .getNext ∨ (s.cpus c).pc = .recheck none) : s.LeavesNext c := by
  have hway : ∀ n, 0 < n → CpuPc.quietNext^[n] (s.cpus c).pc = .stopped ∨
      n = 1 ∧ CpuPc.quietNext^[n] (s.cpus c).pc = .recheck none := by
    intro n hn
    obtain ⟨m, rfl⟩ := Nat.exists_eq_add_of_lt hn
    simp only [Nat.zero_add, Function.iterate_succ_apply]
    -- from `getNext` it takes two steps, from `recheck` one
    rcases hpc with hpc | hpc
    · rw [hpc]
      cases m with
      | zero => exact Or.inr ⟨rfl, rfl⟩
      | succ m => exact Or.inl (quietNext_stopped m)
    · rw [hpc]
      exact Or.inl (quietNext_stopped m)
  refine ⟨fun ts hts => ?_, fun ts hts proc => ?_⟩
  · rw [h.run_pc]
    rcases hway (ts.count (.cpu c)) (by omega) with hstop | ⟨hone, _⟩
    · exact hstop
    · omega
  · rw [h.run_pc]
    rcases hway (ts.count (.cpu c)) hts with hstop | ⟨_, hrecheck⟩
    · simp [hstop]
    · simp [hrecheck]

/-- Every other CPU stays in its loop for ever, whatever the threads do. -/
theorem Settled.neverLeaves {s : Os cfg} (h : s.Settled) {c : Fin cfg.numCpus}
    (hrun : (s.cpus c).pc ≠ .stopped)
    (hpc : ¬ ((s.cpus c).pc = .getNext ∨ (s.cpus c).pc = .recheck none)) (ts : List (Thread cfg)) :
    ((s.run ts).cpus c).pc ≠ .stopped := by
  have hidle : (s.cpus c).pc.current = none := h.idle c
  -- no process, not stopped and not behind the test: one of the three points of the idle branch
  have hloop : (s.cpus c).pc = .loop none ∨ (s.cpus c).pc = .getIdle ∨
      (s.cpus c).pc = .slot none := by
    revert hrun hpc hidle
    cases (s.cpus c).pc <;> simp +contextual [CpuPc.current]
  rw [h.run_pc]
  rcases quietNext_idle (ts.count (.cpu c)) hloop with heq | heq | heq <;> simp [heq]

theorem Settled.leavesNext_iff {s : Os cfg} (h : s.Settled) {c : Fin cfg.numCpus}
    (hrun : (s.cpus c).pc ≠ .stopped) :
    s.LeavesNext c ↔ (s.cpus c).pc = .getNext ∨ (s.cpus c).pc = .recheck none := by
  constructor
  · intro hleaves
    -- the run in which `c` makes six steps alone tells the two cases apart
    by_contra hpc
    exact h.neverLeaves hrun hpc (List.replicate 6 (.cpu c)) (hleaves.breaks _ (by simp))
  · exact h.leavesNext

/-- For every configuration and every schedule: in every state of the run every idle CPU leaves
its loop once all is done, exactly when in every such state the CPUs that have not stopped are
behind the first test of their iteration. -/
theorem exits_iff (cfg : Config) (ts : List (Thread cfg)) :
    AllStates ExitsWhenQuiet (init cfg) (traceFn tick (init cfg) ts) ↔
      AllStates PastFirstTest (init cfg) (traceFn tick (init cfg) ts) := by
  rcases run_traceFn tick (init cfg) ts with ⟨t, hrun⟩
  have hstopped : AllStates LoaderStopped (init cfg) (traceFn tick (init cfg) ts) := by
    refine hrun.allStates ?_ ?_
    · rintro s a _ hs hstep
      obtain rfl := Option.some.inj hstep
      exact loaderStopped_step hs a
    · intro hdone
      simp [init] at hdone
  -- the equivalence holds state by state
  have hpoint : ∀ {s : Os cfg}, s.LoaderStopped → (s.ExitsWhenQuiet ↔ s.PastFirstTest) := by
    intro s hs
    refine forall_congr' fun hquiet => forall_congr' fun c => forall_congr' fun hpc => ?_
    exact Settled.leavesNext_iff ⟨hquiet, hs hquiet.done⟩ hpc
  constructor
  · rintro ⟨h₀, hall⟩
    exact ⟨(hpoint hstopped.1).1 h₀, fun x hx => (hpoint (hstopped.2 x hx)).1 (hall x hx)⟩
  · rintro ⟨h₀, hall⟩
    exact ⟨(hpoint hstopped.1).2 h₀, fun x hx => (hpoint (hstopped.2 x hx)).2 (hall x hx)⟩

/-- Two CPUs and one process of one instruction. -/
def single : Config where
  timeSlot := 1
  numCpus := 2
  ldProcesses := [⟨0, ascii "input/proc/p", 0⟩]
  program := fun _ => (1, [⟨.calc, 0, 0, 0, 0⟩])

/-- Two slots: CPU 0 gets the process, runs it and stops; CPU 1 finds nothing in the first slot
and is at its loop head when everything is over. -/
def singleSchedule : List (Thread single) :=
  let cpu₀ : Thread single := .cpu ⟨0, by decide⟩
  let cpu₁ : Thread single := .cpu ⟨1, by decide⟩
  List.replicate 5 .loader ++ List.replicate 5 cpu₀ ++ List.replicate 3 cpu₁ ++ [.timer] ++
    List.replicate 2 .loader ++ List.replicate 3 cpu₀

theorem single_does_not_exit :
    ¬ AllStates ExitsWhenQuiet (init single) (traceFn tick (init single) singleSchedule) := by
  intro h
  have hlast : ∃ x ∈ traceFn tick (init single) singleSchedule,
      x.2.done = true ∧ x.2.loader.pc = .stopped ∧ x.2.sched.servedLevel = none ∧
      (∀ c, (x.2.current c).isNone) ∧ (x.2.cpus ⟨1, by decide⟩).pc = .loop none := by
    decide +kernel
  rcases hlast with ⟨x, hx, hdone, hloader, hserved, hidle, hpc⟩
  -- everything is over, and CPU 1 is at its loop head
  have hlevels : ∀ k, x.2.sched.level k = [] :=
    fun k => Sched.highestLevel_eq_none_iff.1 hserved k k.isLt
  have hquiet : x.2.Quiet := ⟨hdone, hlevels, fun c => Option.isNone_iff_eq_none.1 (hidle c)⟩
  have hleaves := h.2 x hx hquiet ⟨1, by decide⟩ (by simp [hpc])
  have hsettled : x.2.Settled := ⟨hquiet, hloader⟩
  exact hsettled.neverLeaves (by simp [hpc]) (by simp [hpc])
    (List.replicate 6 (.cpu ⟨1, by decide⟩)) (hleaves.breaks _ (by simp))

end Os
end MiniOs
