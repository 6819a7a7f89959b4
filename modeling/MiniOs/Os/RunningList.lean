import MiniOs.Os.NoneLost
import MiniOs.Os.OnePlace

/-!
# RunningList — what `running_list` lists

`add_proc` and `put_proc` append to `running_list`, and nothing but `killall` ever removes an entry.
Without `killall` it lists the live processes, each once, exactly as long as every process that is
added finds a slot in it, none is put back while it has a free slot, and none finishes.
-/

namespace MiniOs
namespace Os

open Lib

variable {cfg : Config}

/-! ## Definitions -/

/-- The number of processes that `add_proc` has been given so far, the one in the second section of
the call included. -/
def listed (s : Os cfg) : Nat :=
  if s.loader.pc = .addReady then s.loader.i + 1 else s.loader.i

/-- `running_list` holds every process given to `add_proc` and not finished once, and no process
whose PCB has been freed. -/
structure ListsLive (s : Os cfg) : Prop where
  live : ∀ p ∈ cfg.procs.take s.listed, p ∉ s.freed → s.sched.runningList.proc.count p = 1
  noFreed : ∀ p ∈ s.freed, p ∉ s.sched.runningList.proc

/-- No thread is inside `add_proc` or `put_proc`. -/
def BetweenCalls (s : Os cfg) : Prop :=
  s.loader.pc ≠ .addReady ∧ ∀ c proc, (s.cpus c).pc ≠ .putReady proc

/-- The same of the processes whose `add_proc` has returned. -/
structure ListsAdded (s : Os cfg) : Prop where
  live : ∀ p ∈ cfg.procs.take s.loader.i, p ∉ s.freed → s.sched.runningList.proc.count p = 1
  noFreed : ∀ p ∈ s.freed, p ∉ s.sched.runningList.proc

/-- The step keeps the list in order: a process that is added finds a slot, one that is put back
finds none, and none finishes. -/
structure KeepsList (s : Os cfg) (t : Thread cfg) : Prop where
  add : t = .loader → s.loader.pc = .addRunning → ∀ p, cfg.procs[s.loader.i]? = some p →
    s.sched.runningList.size < maxQueueSize
  put : ∀ c p, t = .cpu c → (s.cpus c).pc = .putRunning p →
    maxQueueSize ≤ s.sched.runningList.size
  exit : ∀ c p, t = .cpu c → (s.cpus c).pc = .loop (some p) → ¬ s.Finished p

/-! ## What a step does to the list -/

/-- The steps that matter here: the two sections that append, and the end of a process. -/
inductive ListMove (s : Os cfg) (t : Thread cfg) (s' : Os cfg) : Prop
  | quiet (hlist : s'.sched.runningList = s.sched.runningList) (hlisted : s'.listed = s.listed)
      (hfreed : s'.freed = s.freed)
  | add (ht : t = .loader) (hpc : s.loader.pc = .addRunning) (p : Pcb)
      (hnext : cfg.procs[s.loader.i]? = some p)
      (hlist : s'.sched.runningList = s.sched.runningList.enqueue p)
      (hlisted : s'.listed = s.loader.i + 1) (hfreed : s'.freed = s.freed)
  | put (c : Fin cfg.numCpus) (p : Pcb) (ht : t = .cpu c) (hpc : (s.cpus c).pc = .putRunning p)
      (hlist : s'.sched.runningList = s.sched.runningList.enqueue p)
      (hlisted : s'.listed = s.listed) (hfreed : s'.freed = s.freed)
  | exit (c : Fin cfg.numCpus) (p : Pcb) (ht : t = .cpu c) (hpc : (s.cpus c).pc = .loop (some p))
      (hfin : s.Finished p) (hlist : s'.sched.runningList = s.sched.runningList)
      (hlisted : s'.listed = s.listed) (hfreed : s'.freed = p :: s.freed)

theorem getProc_runningList {sched sched' : Sched} {p : Pcb}
    (h : sched.getProc = some (p, sched')) : sched'.runningList = sched.runningList := by
  rcases Sched.getProc_spec h with ⟨k, q, pre, post, rfl, _⟩
  rfl

theorem enqueueLevel_runningList (sched : Sched) (p : Pcb) :
    (sched.enqueueLevel p).runningList = sched.runningList := by
  unfold Sched.enqueueLevel
  split <;> rfl

theorem CpuMove.onList {s s' : Os cfg} {c : Fin cfg.numCpus} (h : s.CpuMove c s') :
    ListMove s (.cpu c) s' := by
  cases h with
  | goto _ _ => exact .quiet rfl rfl rfl
  | finish hpc hfin => exact .exit c _ rfl hpc hfin rfl rfl rfl
  | take _ hget => exact .quiet (getProc_runningList hget) rfl rfl
  | putRunning hpc => exact .put c _ rfl hpc rfl rfl rfl
  | putReady _ => exact .quiet (enqueueLevel_runningList _ _) rfl rfl
  | exec _ => exact .quiet rfl rfl rfl

theorem LoaderMove.onList {s s' : Os cfg} (h : s.LoaderMove s') : ListMove s .loader s' := by
  cases h with
  | goto hready _ hpc => exact .quiet rfl (by simp [listed, setLoader, hready, hpc]) rfl
  | addRunning hpc hnext => exact .add rfl hpc _ hnext rfl (by simp [listed, setLoader]) rfl
  | addReady hpc _ =>
      -- the process is counted before and after
      exact .quiet (enqueueLevel_runningList _ _) (by simp [listed, hpc, setLoader]) rfl
  | finish hpc => exact .quiet rfl (by simp [listed, hpc, setLoader]) rfl
  | stay _ => exact .quiet rfl rfl rfl

theorem step_list (s : Os cfg) (t : Thread cfg) : ListMove s t (s.step t) := by
  cases t with
  | cpu c => exact (s.cpuStep_move c).onList
  | loader => exact s.loaderStep_move.onList
  | timer => exact .quiet rfl rfl rfl

/-! ## The invariant -/

/-- The list is in order and holds no process that is still to come; and no process is in two
places. -/
structure ListInv (s : Os cfg) : Prop where
  lists : s.ListsLive
  added : ∀ p ∈ s.sched.runningList.proc, p ∈ cfg.procs.take s.listed
  counted : s.places.Counted

theorem mem_take_listed {s : Os cfg} {p : Pcb} (h : p ∈ cfg.procs.take s.loader.i) :
    p ∈ cfg.procs.take s.listed := by
  unfold listed
  split
  · exact (List.take_subset_take_left _ (Nat.le_succ _)) h
  · exact h

theorem listed_of_addRunning {s : Os cfg} (h : s.loader.pc = .addRunning) :
    s.listed = s.loader.i := by
  simp [listed, h]

theorem take_succ_of_next {s : Os cfg} {p : Pcb} (h : cfg.procs[s.loader.i]? = some p) :
    cfg.procs.take (s.loader.i + 1) = cfg.procs.take s.loader.i ++ [p] := by
  rcases List.getElem?_eq_some_iff.1 h with ⟨hlt, hp⟩
  rw [List.take_succ_eq_append_getElem hlt, hp]

/-- Step lemma, good case. -/
theorem ListInv.step {s : Os cfg} {t : Thread cfg} (h : s.ListInv) (hkeeps : s.KeepsList t) :
    (s.step t).ListInv := by
  have hcounted := (step_places s t).counted h.counted
  cases step_list s t with
  | quiet hlist hlisted hfreed =>
      refine ⟨⟨fun p hp hlive => ?_, fun p hp => ?_⟩, fun p hp => ?_, hcounted⟩
      · rw [hlist]
        exact h.lists.live p (hlisted ▸ hp) (hfreed ▸ hlive)
      · rw [hlist]
        exact h.lists.noFreed p (hfreed ▸ hp)
      · rw [hlisted]
        exact h.added p (hlist ▸ hp)
  | add ht hpc p hnext hlist hlisted hfreed =>
      -- the new process takes the slot behind the old ones
      have hroom := hkeeps.add ht hpc p hnext
      have hproc : (s.step t).sched.runningList.proc = s.sched.runningList.proc ++ [p] := by
        rw [hlist]
        exact QueueT.enqueue_proc_of_lt hroom
      rcases fresh_of_next h.counted hnext with ⟨hnew, hnotFreed⟩
      have hnotListed : p ∉ s.sched.runningList.proc := by
        intro hp
        exact hnew (listed_of_addRunning hpc ▸ h.added p hp)
      refine ⟨⟨fun q hq hlive => ?_, fun q hq => ?_⟩, fun q hq => ?_, hcounted⟩
      · rw [hlisted, take_succ_of_next hnext] at hq
        rw [hfreed] at hlive
        rw [hproc, List.count_append]
        rcases List.mem_append.1 hq with hold | hlast
        · have hne : p ≠ q := fun heq => hnew (heq ▸ hold)
          have hone := h.lists.live q (listed_of_addRunning hpc ▸ hold) hlive
          simp [hone, hne]
        · obtain rfl := List.mem_singleton.1 hlast
          simp [List.count_eq_zero.2 hnotListed]
      · rw [hfreed] at hq
        have hne : q ≠ p := fun heq => hnotFreed (heq ▸ hq)
        simpa [hproc, hne] using h.lists.noFreed q hq
      · rw [hlisted, take_succ_of_next hnext]
        rw [hproc] at hq
        refine (List.mem_append.1 hq).elim (fun hold => List.mem_append_left _ ?_)
          (fun hlast => List.mem_append_right _ hlast)
        exact listed_of_addRunning hpc ▸ h.added q hold
  | put c p ht hpc hlist hlisted hfreed =>
      -- the list is full, so the second entry is dropped
      have hsame : (s.step t).sched.runningList = s.sched.runningList := by
        rw [hlist, QueueT.enqueue_of_full (hkeeps.put c p ht hpc)]
      refine ⟨⟨fun q hq hlive => ?_, fun q hq => ?_⟩, fun q hq => ?_, hcounted⟩
      · rw [hsame]
        exact h.lists.live q (hlisted ▸ hq) (hfreed ▸ hlive)
      · rw [hsame]
        exact h.lists.noFreed q (hfreed ▸ hq)
      · rw [hlisted]
        exact h.added q (hsame ▸ hq)
  | exit c p ht hpc hfin => exact absurd hfin (hkeeps.exit c p ht hpc)

/-- Step lemma, bad case: the list is wrong at once. -/
theorem ListInv.bad {s : Os cfg} {t : Thread cfg} (h : s.ListInv) (hbad : ¬ s.KeepsList t) :
    ¬ (s.step t).ListsLive := by
  intro hlists
  apply hbad
  have hmove := step_list s t
  refine ⟨fun ht hpc p hnext => ?_, fun c p ht hpc => ?_, fun c p ht hpc hfin => ?_⟩
  · -- were the list full, the process added would be missing
    by_contra hfull
    rcases fresh_of_next h.counted hnext with ⟨hnew, hnotFreed⟩
    subst ht
    have hstep : (s.step .loader).sched.runningList = s.sched.runningList ∧
        (s.step .loader).listed = s.loader.i + 1 ∧ (s.step .loader).freed = s.freed := by
      simp only [Os.step, loaderStep, hpc, hnext]
      exact ⟨QueueT.enqueue_of_full (not_lt.1 hfull), by simp [listed, setLoader], rfl⟩
    have hmem : p ∈ cfg.procs.take (s.step .loader).listed := by
      rw [hstep.2.1, take_succ_of_next hnext]
      simp
    have hone := hlists.live p hmem (hstep.2.2 ▸ hnotFreed)
    rw [hstep.1] at hone
    have hin := h.added p (List.one_le_count_iff.1 hone.ge)
    exact hnew (listed_of_addRunning hpc ▸ hin)
  · -- with a free slot, the process put back would be listed twice
    by_contra hroom
    subst ht
    have hcur : s.current c = some p := by simp [current, hpc, CpuPc.current]
    rcases added_of_current h.counted hcur with ⟨hadded, hnotFreed⟩
    have hstep : (s.step (.cpu c)).sched.runningList = s.sched.runningList.enqueue p ∧
        (s.step (.cpu c)).listed = s.listed ∧ (s.step (.cpu c)).freed = s.freed := by
      simp only [Os.step, cpuStep, hpc]
      exact ⟨rfl, rfl, rfl⟩
    have hbefore := h.lists.live p (mem_take_listed hadded) hnotFreed
    have hafter := hlists.live p (hstep.2.1 ▸ mem_take_listed hadded) (hstep.2.2 ▸ hnotFreed)
    rw [hstep.1, QueueT.enqueue_proc_of_lt (not_le.1 hroom), List.count_append, hbefore] at hafter
    simp at hafter
  · -- a process that finishes stays in the list
    subst ht
    have hcur : s.current c = some p := by simp [current, hpc, CpuPc.current]
    rcases added_of_current h.counted hcur with ⟨hadded, hnotFreed⟩
    have hone := h.lists.live p (mem_take_listed hadded) hnotFreed
    have hstep : (s.step (.cpu c)).sched.runningList = s.sched.runningList ∧
        (s.step (.cpu c)).freed = p :: s.freed := by
      simp [Os.step, cpuStep, hpc, hfin]
    have hgone := hlists.noFreed p (hstep.2 ▸ List.mem_cons_self ..)
    rw [hstep.1] at hgone
    exact hgone (List.one_le_count_iff.1 hone.ge)

theorem listInv_init (cfg : Config) : (init cfg).ListInv := by
  refine ⟨⟨fun p hp => by simp [init, listed] at hp, fun p hp => by simp [init] at hp⟩,
    fun p hp => by simp [init, Sched.initScheduler] at hp, fun p => ?_⟩
  simp [Places.total, places, init, current, CpuPc.current]

theorem ListsLive.listsAdded {s : Os cfg} (h : s.ListsLive) : s.ListsAdded :=
  ⟨fun p hp hlive => h.live p (mem_take_listed hp) hlive, h.noFreed⟩

/-- For every configuration and every schedule: `running_list` lists the live processes in every
state exactly when every step keeps it in order; and then it does so for the processes added, in
every state between scheduler calls. -/
theorem runningList_iff (cfg : Config) (ts : List (Thread cfg)) :
    (AllStates ListsLive (init cfg) (traceFn tick (init cfg) ts) ↔
      AllSteps KeepsList (init cfg) (traceFn tick (init cfg) ts)) ∧
    (AllSteps KeepsList (init cfg) (traceFn tick (init cfg) ts) →
      AllStates (fun s => s.BetweenCalls → s.ListsAdded) (init cfg)
        (traceFn tick (init cfg) ts)) := by
  rcases run_traceFn tick (init cfg) ts with ⟨t, hrun⟩
  have hiff : AllStates ListsLive (init cfg) (traceFn tick (init cfg) ts) ↔
      AllSteps KeepsList (init cfg) (traceFn tick (init cfg) ts) := by
    refine hrun.exact (I := ListInv) (fun h => h.lists) ?_ ?_ (listInv_init cfg)
    · rintro s a _ hs hstep hkeeps
      obtain rfl := Option.some.inj hstep
      exact hs.step hkeeps
    · rintro s a _ hs hstep hbad
      obtain rfl := Option.some.inj hstep
      exact hs.bad hbad
  refine ⟨hiff, fun hsteps => ?_⟩
  have hlists := hiff.2 hsteps
  exact ⟨fun _ => hlists.1.listsAdded, fun x hx _ => (hlists.2 x hx).listsAdded⟩

/-- One CPU and one process of one instruction. -/
def lone : Config where
  timeSlot := 1
  numCpus := 1
  ldProcesses := [⟨0, ascii "input/proc/p", 0⟩]
  program := fun _ => (1, [⟨.calc, 0, 0, 0, 0⟩])

/-- The loader adds the process, the CPU runs its instruction and frees it. -/
def loneSchedule : List (Thread lone) :=
  List.replicate 5 .loader ++ List.replicate 6 (.cpu ⟨0, by decide⟩)

/-- The freed PCB is listed still. -/
theorem lone_lists_freed :
    ¬ AllStates (fun s => s.BetweenCalls → s.ListsAdded) (init lone)
      (traceFn tick (init lone) loneSchedule) := by
  intro h
  have hlast : ∃ x ∈ traceFn tick (init lone) loneSchedule,
      x.2.loader.pc = .loop ∧ (∀ c, (x.2.cpus c).pc = .getNext) ∧
      ∃ p ∈ x.2.freed, p ∈ x.2.sched.runningList.proc := by
    decide +kernel
  rcases hlast with ⟨x, hx, hloader, hcpus, p, hfreed, hlisted⟩
  have hbetween : x.2.BetweenCalls := by
    refine ⟨by simp [hloader], fun c proc => ?_⟩
    simp [hcpus c]
  exact (h.2 x hx hbetween).noFreed p hfreed hlisted

end Os
end MiniOs
