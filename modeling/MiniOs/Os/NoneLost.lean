import MiniOs.Os.Placement

/-!
# NoneLost — when the scheduler loses a process

`enqueue` drops a process silently when its queue is full, and a `prio` of `MAX_PRIO` or more
names no level.  A process that has been added and is not finished is therefore in its level or
on a CPU, in every state of a run, exactly when every unfinished process that enters a level
finds the level there and not full.
-/

namespace MiniOs

open Lib

namespace Places

variable {cfg : Config}

/-- Every added and unfinished process waits in the level of its `prio` or is the current one of
some CPU. -/
def NoneLost (w : Places cfg) : Prop :=
  ∀ p ∈ cfg.procs.take w.added, w.progCounter p.pid < p.codeSize →
    (∃ h : p.prio < maxPrio, p ∈ w.level ⟨p.prio, h⟩) ∨ ∃ c, w.current c = some p

theorem mem_insert_of_mem {level : Fin maxPrio → List Pcb} {p q : Pcb} {k : Fin maxPrio}
    (h : q ∈ level k) : q ∈ insert level p k := by
  unfold insert
  split
  · exact List.mem_append_left _ h
  · exact h

theorem mem_insert_self {level : Fin maxPrio → List Pcb} {p : Pcb} (h : Room level p) :
    ∃ hprio : p.prio < maxPrio, p ∈ insert level p ⟨p.prio, hprio⟩ := by
  rcases h with ⟨hprio, hlt⟩
  exact ⟨hprio, by simp [insert, hlt]⟩

/-- A CPU that gives up `p` still holds every other process it held. -/
theorem current_update_of_ne {w : Places cfg} {c d : Fin cfg.numCpus} {p q : Pcb}
    {o : Option Pcb} (hold : w.current c = some p) (hd : w.current d = some q) (hqp : q ≠ p) :
    Function.update w.current c o d = some q := by
  have hdc : d ≠ c := by
    rintro rfl
    exact hqp (Option.some.inj (hd.symm.trans hold))
  rw [Function.update_of_ne hdc]
  exact hd

/-- Step lemma, good case: a move whose unfinished process finds room loses nothing. -/
theorem Move.noneLost {w w' : Places cfg} {l : Option Pcb} (h : Move w l w') (hw : w.NoneLost)
    (hroom : ∀ p, l = some p → w.progCounter p.pid < p.codeSize → Room w.level p) :
    w'.NoneLost := by
  intro q hq hpc
  cases h with
  | quiet => exact hw q hq hpc
  | @take c p k pre post hidle hlevel =>
      -- the process taken is on the CPU now, the others are where they were
      by_cases hqp : q = p
      · exact Or.inr ⟨c, by simp [hqp]⟩
      · rcases hw q hq hpc with ⟨hprio, hmem⟩ | ⟨d, hd⟩
        · refine Or.inl ⟨hprio, ?_⟩
          -- it may wait in the level that `p` was taken from
          by_cases hk : (⟨q.prio, hprio⟩ : Fin maxPrio) = k
          · rw [hk] at hmem ⊢
            rw [hlevel] at hmem
            simpa [hqp] using hmem
          · simpa [Function.update_of_ne hk] using hmem
        · have hdc : d ≠ c := by
            rintro rfl
            simp [hidle] at hd
          exact Or.inr ⟨d, by simpa [Function.update_of_ne hdc] using hd⟩
  | @put c p hold =>
      -- the process put back finds room, by the condition
      by_cases hqp : q = p
      · subst hqp
        exact Or.inl (mem_insert_self (hroom q rfl hpc))
      · rcases hw q hq hpc with ⟨hprio, hmem⟩ | ⟨d, hd⟩
        · exact Or.inl ⟨hprio, mem_insert_of_mem hmem⟩
        · exact Or.inr ⟨d, current_update_of_ne hold hd hqp⟩
  | @finish c p hold hfin =>
      -- the statement is about unfinished processes, and `p` has finished
      have hqp : q ≠ p := by
        rintro rfl
        exact absurd hfin (Nat.ne_of_lt hpc)
      rcases hw q hq hpc with hlevel | ⟨d, hd⟩
      · exact Or.inl hlevel
      · exact Or.inr ⟨d, current_update_of_ne hold hd hqp⟩
  | @exec c p hold n hn =>
      -- a larger `pc` can only make a process finished
      refine hw q hq ?_
      by_cases hpid : q.pid = p.pid
      · simp only [hpid, Function.update_self] at hpc
        exact hpid ▸ hn.trans_lt hpc
      · simpa [Function.update_of_ne hpid] using hpc
  | @add p hnext =>
      rcases List.getElem?_eq_some_iff.1 hnext with ⟨hlt, hp⟩
      have htake : cfg.procs.take (w.added + 1) = cfg.procs.take w.added ++ [p] := by
        rw [List.take_succ_eq_append_getElem hlt, hp]
      rw [htake] at hq
      rcases List.mem_append.1 hq with hold | hnew
      · rcases hw q hold hpc with ⟨hprio, hmem⟩ | hcpu
        · exact Or.inl ⟨hprio, mem_insert_of_mem hmem⟩
        · exact Or.inr hcpu
      · obtain rfl := List.mem_singleton.1 hnew
        exact Or.inl (mem_insert_self (hroom q rfl hpc))

/-- A process that is counted once outside the levels and the CPUs is in none of them. -/
theorem not_held_of_count (level : Fin maxPrio → List Pcb)
    (current : Fin cfg.numCpus → Option Pcb) {p : Pcb}
    (h : ∑ k, (level k).count p + ∑ c, (current c).toList.count p = 0) :
    (∀ k, p ∉ level k) ∧ ∀ c, current c ≠ some p := by
  have hlevels : ∑ k, (level k).count p = 0 := by omega
  have hcpus : ∑ c, (current c).toList.count p = 0 := by omega
  rw [Finset.sum_eq_zero_iff] at hlevels hcpus
  refine ⟨fun k => List.count_eq_zero.1 (hlevels k (Finset.mem_univ k)), fun c hc => ?_⟩
  have := hcpus c (Finset.mem_univ c)
  simp [hc] at this

/-- Step lemma, bad case: an unfinished process that finds no room is lost at once. -/
theorem Move.lost {w w' : Places cfg} {p : Pcb} (h : Move w (some p) w') (hw : w.Counted)
    (hpc : w.progCounter p.pid < p.codeSize) (hfull : ¬ Room w.level p) : ¬ w'.NoneLost := by
  have htotal := hw p
  -- the configuration lists `p` once, as added or as still to be loaded
  rcases cfg.count_take_add_drop w.added p with ⟨hsplit, honce⟩
  unfold total at htotal
  intro hnone
  cases h with
  | @put c _ hold =>
      -- the CPU held the only occurrence of `p`, and gives it up
      have hcpus := sum_update_add w.current c none (fun o => o.toList.count p)
      simp only [hold, Option.toList_none, Option.toList_some, List.count_nil,
        List.count_singleton_self] at hcpus
      have hadded : p ∈ cfg.procs.take w.added := List.one_le_count_iff.1 (by omega)
      have hgone := not_held_of_count (p := p) w.level (Function.update w.current c none)
        (by omega)
      rcases hnone p hadded hpc with ⟨hprio, hmem⟩ | ⟨d, hd⟩
      · rw [insert_of_not_room hfull] at hmem
        exact hgone.1 _ hmem
      · exact hgone.2 d hd
  | @add _ hnext =>
      rcases List.getElem?_eq_some_iff.1 hnext with ⟨hlt, hp⟩
      have hadded : p ∈ cfg.procs.take (w.added + 1) := by
        rw [List.take_succ_eq_append_getElem hlt, hp]
        simp
      -- the only occurrence of `p` was among those to be loaded
      have hnext : 1 ≤ (cfg.procs.drop w.added).count p := by
        rw [List.drop_eq_getElem_cons hlt, hp]
        simp
      have hgone := not_held_of_count (p := p) w.level w.current (by omega)
      rcases hnone p hadded hpc with ⟨hprio, hmem⟩ | ⟨d, hd⟩
      · rw [insert_of_not_room hfull] at hmem
        exact hgone.1 _ hmem
      · exact hgone.2 d hd

end Places

namespace Os

variable {cfg : Config}

/-- Every process that `add_proc` was given and that is not finished waits in the level of its
own `prio` or is the current process of a CPU; `put_proc` holds it until it has a slot. -/
def NoneLost (s : Os cfg) : Prop :=
  ∀ p ∈ cfg.procs.take s.loader.i, s.progCounter p.pid < p.codeSize →
    (∃ h : p.prio < maxPrio, p ∈ s.sched.level ⟨p.prio, h⟩) ∨ ∃ c, s.current c = some p

/-- If the thread is about to put an unfinished process into a ready level, that level exists and
has a free slot. -/
def FindsRoom (s : Os cfg) (t : Thread cfg) : Prop :=
  ∀ p, s.entering t = some p → s.progCounter p.pid < p.codeSize →
    ∃ h : p.prio < maxPrio, (s.sched.level ⟨p.prio, h⟩).length < maxQueueSize

/-- The threads without `killall`. -/
def tick (s : Os cfg) (t : Thread cfg) : Option (Os cfg) := some (s.step t)

/-- For every configuration and every schedule: no process is lost in any state exactly when
every unfinished process that enters a ready level finds room there. -/
theorem noneLost_iff (cfg : Config) (ts : List (Thread cfg)) :
    AllStates NoneLost (init cfg) (traceFn tick (init cfg) ts) ↔
      AllSteps FindsRoom (init cfg) (traceFn tick (init cfg) ts) := by
  rcases run_traceFn tick (init cfg) ts with ⟨t, hrun⟩
  -- the strong invariant adds the counts, which make a dropped process a lost one
  refine hrun.exact (I := fun s => s.places.Counted ∧ s.NoneLost) (fun h => h.2) ?_ ?_ ?_
  · rintro s a _ ⟨hcounted, hnone⟩ hstep hroom
    obtain rfl := Option.some.inj hstep
    have hmove := step_places s a
    exact ⟨hmove.counted hcounted, hmove.noneLost hnone hroom⟩
  · rintro s a _ ⟨hcounted, _⟩ hstep hbad
    obtain rfl := Option.some.inj hstep
    simp only [FindsRoom, not_forall] at hbad
    rcases hbad with ⟨p, hentering, hpc, hfull⟩
    have hmove := step_places s a
    rw [hentering] at hmove
    exact hmove.lost hcounted hpc hfull
  · refine ⟨fun p => ?_, fun p hp => by simp [init] at hp⟩
    simp [Places.total, places, init, current, CpuPc.current]

/-- Twelve processes of `PRIO 0`, each of twelve instructions, and one CPU. -/
def crowd : Config where
  timeSlot := 20
  numCpus := 1
  ldProcesses := List.replicate 12 ⟨0, ascii "input/proc/p", 0⟩
  program := fun _ => (1, List.replicate 12 ⟨.calc, 0, 0, 0, 0⟩)

/-- Twelve slots: the loader adds a process, the CPU runs an instruction of the first one. -/
def crowdSchedule : List (Thread crowd) :=
  let cpu : Thread crowd := .cpu ⟨0, by decide⟩
  List.replicate 5 .loader ++ List.replicate 5 cpu ++ [.timer] ++
    (List.replicate 11 (List.replicate 5 .loader ++ List.replicate 4 cpu ++ [.timer])).flatten

/-- The twelfth process finds ten others in level 0 and is dropped. -/
theorem crowd_loses :
    ¬ AllStates NoneLost (init crowd) (traceFn tick (init crowd) crowdSchedule) := by
  intro h
  have hlast : ∃ x ∈ traceFn tick (init crowd) crowdSchedule,
      x.2.loader.i = 12 ∧ x.2.progCounter 12 = 0 ∧
      (∀ p ∈ x.2.sched.level ⟨0, by decide⟩, p.pid ≠ 12) ∧
      (∀ c, (x.2.current c).map Pcb.pid ≠ some 12) := by
    -- a run of 121 steps
    decide +kernel
  rcases hlast with ⟨x, hx, hi, hpc, hlevel, hcpu⟩
  have hmem : crowd.load 11 ⟨0, ascii "input/proc/p", 0⟩ ∈ crowd.procs.take x.2.loader.i := by
    rw [hi]
    exact List.mem_iff_getElem.2 ⟨11, by decide, rfl⟩
  rcases h.2 x hx _ hmem (by simpa [Config.load, hpc] using by decide) with ⟨_, hin⟩ | ⟨c, hc⟩
  · exact hlevel _ hin rfl
  · exact hcpu c (by rw [hc]; rfl)

end Os
end MiniOs
