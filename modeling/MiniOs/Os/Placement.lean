import MiniOs.Lib.Count
import MiniOs.Os.Routines

/-!
# Placement — where the processes are

The abstract view of a running simulator: which processes wait in each ready level, which one
each CPU holds, which PCBs have been freed, and how many processes the loader has added.  Every
step of a thread is one of a few *moves* on this view (`step_places`), and the two conservation
laws are read off the moves:

* no move duplicates a process (`Move.total_le`), so no process is ever in two places;
* a move loses an unfinished process only when it enters a level that does not exist or is full.
-/

namespace MiniOs

open Lib

/-- Where the processes of a configuration are. -/
structure Places (cfg : Config) where
  level : Fin maxPrio → List Pcb
  current : Fin cfg.numCpus → Option Pcb
  freed : List Pcb
  added : Nat
  progCounter : Nat → Nat

namespace Places

variable {cfg : Config}

/-- `p` gets a slot in its own level, if that level exists and is not full. -/
def insert (level : Fin maxPrio → List Pcb) (p : Pcb) : Fin maxPrio → List Pcb := fun k =>
  if k.val = p.prio ∧ (level k).length < maxQueueSize then level k ++ [p] else level k

/-- The level of `p` exists and is not full. -/
def Room (level : Fin maxPrio → List Pcb) (p : Pcb) : Prop :=
  ∃ h : p.prio < maxPrio, (level ⟨p.prio, h⟩).length < maxQueueSize

/-- The moves.  The label is the process that enters a ready level, if any. -/
inductive Move : Places cfg → Option Pcb → Places cfg → Prop
  | quiet (w : Places cfg) : Move w none w
  | take {w : Places cfg} {c : Fin cfg.numCpus} {p : Pcb} {k : Fin maxPrio}
      {pre post : List Pcb} (hidle : w.current c = none) (hlevel : w.level k = pre ++ p :: post) :
      Move w none { w with
        level := Function.update w.level k (pre ++ post)
        current := Function.update w.current c (some p) }
  | put {w : Places cfg} {c : Fin cfg.numCpus} {p : Pcb} (hold : w.current c = some p) :
      Move w (some p) { w with
        level := insert w.level p
        current := Function.update w.current c none }
  | finish {w : Places cfg} {c : Fin cfg.numCpus} {p : Pcb} (hold : w.current c = some p)
      (hfin : w.progCounter p.pid = p.codeSize) :
      Move w none { w with
        current := Function.update w.current c none
        freed := p :: w.freed }
  | exec {w : Places cfg} {c : Fin cfg.numCpus} {p : Pcb} (hold : w.current c = some p) (n : Nat)
      (hn : w.progCounter p.pid ≤ n) :
      Move w none { w with progCounter := Function.update w.progCounter p.pid n }
  | add {w : Places cfg} {p : Pcb} (hnext : cfg.procs[w.added]? = some p) :
      Move w (some p) { w with level := insert w.level p, added := w.added + 1 }

/-- How often `p` occurs in all places together, those still to be loaded included. -/
def total (w : Places cfg) (p : Pcb) : ℕ :=
  ∑ k, (w.level k).count p + ∑ c, (w.current c).toList.count p + w.freed.count p +
    (cfg.procs.drop w.added).count p

theorem insert_of_not_room {level : Fin maxPrio → List Pcb} {p : Pcb} (h : ¬ Room level p) :
    insert level p = level := by
  funext k
  have hno : ¬ (k.val = p.prio ∧ (level k).length < maxQueueSize) := by
    rintro ⟨hk, hlt⟩
    exact h ⟨hk ▸ k.isLt, by simpa [← hk] using hlt⟩
  exact if_neg hno

theorem sum_insert_le (level : Fin maxPrio → List Pcb) (p q : Pcb) :
    ∑ k, (insert level p k).count q ≤ ∑ k, (level k).count q + [p].count q := by
  -- with room, one level grows by `p`; without, `p` is dropped and the sum stays
  by_cases hroom : Room level p
  · rcases hroom with ⟨hprio, hlt⟩
    have hinsert : insert level p =
        Function.update level ⟨p.prio, hprio⟩ (level ⟨p.prio, hprio⟩ ++ [p]) := by
      funext k
      by_cases hk : k = ⟨p.prio, hprio⟩
      · subst hk
        simp [insert, hlt]
      · have hval : k.val ≠ p.prio := fun h => hk (Fin.ext h)
        simp [insert, hval, Function.update_of_ne hk]
    have hsum := sum_update_add level ⟨p.prio, hprio⟩ (level ⟨p.prio, hprio⟩ ++ [p])
      (fun l => l.count q)
    rw [hinsert]
    simp only [List.count_append] at hsum
    omega
  · rw [insert_of_not_room hroom]
    omega

/-- No move duplicates a process. -/
theorem Move.total_le {w w' : Places cfg} {l : Option Pcb} (h : Move w l w') (q : Pcb) :
    w'.total q ≤ w.total q := by
  -- each move takes the process from one sum and adds it to at most one other
  unfold total
  cases h with
  | quiet => exact Nat.le_refl _
  | @take c p k pre post hidle hlevel =>
      have hlevels := sum_update_add w.level k (pre ++ post) (fun l => l.count q)
      have hcpus := sum_update_add w.current c (some p) (fun o => o.toList.count q)
      simp only [hlevel, hidle, List.count_append, List.count_cons, Option.toList_none,
        Option.toList_some, List.count_nil] at hlevels hcpus ⊢
      omega
  | @put c p hold =>
      have hlevels := sum_insert_le w.level p q
      have hcpus := sum_update_add w.current c none (fun o => o.toList.count q)
      simp only [hold, Option.toList_none, Option.toList_some, List.count_nil] at hcpus ⊢
      omega
  | @finish c p hold _ =>
      have hcpus := sum_update_add w.current c none (fun o => o.toList.count q)
      simp only [hold, Option.toList_none, Option.toList_some, List.count_nil,
        List.count_cons] at hcpus ⊢
      omega
  | exec => exact Nat.le_refl _
  | @add p hnext =>
      have hlevels := sum_insert_le w.level p q
      rcases List.getElem?_eq_some_iff.1 hnext with ⟨hlt, hp⟩
      -- `p` is the first of those still to be loaded
      have hdrop : cfg.procs.drop w.added = p :: cfg.procs.drop (w.added + 1) := by
        rw [List.drop_eq_getElem_cons hlt, hp]
      simp only [hdrop, List.count_cons, List.count_nil] at hlevels ⊢
      omega

/-- No process is anywhere more often than the configuration lists
it, which is once. -/
def Counted (w : Places cfg) : Prop := ∀ p, w.total p ≤ cfg.procs.count p

theorem Move.counted {w w' : Places cfg} {l : Option Pcb} (h : Move w l w') (hw : w.Counted) :
    w'.Counted :=
  fun p => (h.total_le p).trans (hw p)

theorem Move.freed_subset {w w' : Places cfg} {l : Option Pcb} (h : Move w l w') :
    w.freed ⊆ w'.freed := by
  cases h with
  | finish => exact List.subset_cons_self _ _
  | _ => exact fun _ hp => hp

/-- A process in a level was in one before, or enters it with this move. -/
theorem Move.mem_level {w w' : Places cfg} {l : Option Pcb} (h : Move w l w') {k : Fin maxPrio}
    {q : Pcb} (hq : q ∈ w'.level k) : q ∈ w.level k ∨ l = some q := by
  have hinsert : ∀ p, q ∈ insert w.level p k → q ∈ w.level k ∨ (some p : Option Pcb) = some q := by
    intro p hp
    unfold insert at hp
    split at hp
    · rcases List.mem_append.1 hp with hmem | hmem
      · exact Or.inl hmem
      · exact Or.inr (by rw [List.mem_singleton.1 hmem])
    · exact Or.inl hp
  cases h with
  | @take c p j pre post _ hlevel =>
      by_cases hj : k = j
      · subst hj
        simp only [Function.update_self] at hq
        rw [hlevel]
        exact Or.inl (List.mem_append.2 ((List.mem_append.1 hq).imp id (List.mem_cons_of_mem _)))
      · simp only [Function.update_of_ne hj] at hq
        exact Or.inl hq
  | put _ => exact hinsert _ hq
  | add _ => exact hinsert _ hq
  | _ => exact Or.inl hq

/-- What is still to be loaded only gets less. -/
theorem Move.drop_subset {w w' : Places cfg} {l : Option Pcb} (h : Move w l w') :
    cfg.procs.drop w'.added ⊆ cfg.procs.drop w.added := by
  cases h with
  | add _ => exact List.drop_subset_drop_left cfg.procs (Nat.le_succ _)
  | _ => exact fun _ hp => hp

/-- Removing processes from the levels duplicates none either. -/
theorem total_le_of_subperm {w : Places cfg} {level' : Fin maxPrio → List Pcb}
    (h : ∀ k, (level' k).Subperm (w.level k)) (q : Pcb) :
    ({ w with level := level' } : Places cfg).total q ≤ w.total q := by
  have hsum : ∑ k, (level' k).count q ≤ ∑ k, (w.level k).count q :=
    Finset.sum_le_sum fun k _ => (h k).count_le q
  simp only [total]
  omega

end Places

namespace Os

variable {cfg : Config}

/-- The abstract view of a state. -/
def places (s : Os cfg) : Places cfg where
  level := s.sched.level
  current := s.current
  freed := s.freed
  added := s.loader.i
  progCounter := s.progCounter

/-- The process that the next step of a thread puts into a ready level. -/
def entering (s : Os cfg) : Thread cfg → Option Pcb
  | .cpu c =>
      match (s.cpus c).pc with
      | .putReady proc => some proc
      | _ => none
  | .loader =>
      match s.loader.pc with
      | .addReady => cfg.procs[s.loader.i]?
      | _ => none
  | .timer => none

theorem current_setCpu (s : Os cfg) (c : Fin cfg.numCpus) (cpu : Cpu) :
    (s.setCpu c cpu).current = Function.update s.current c cpu.pc.current := by
  funext d
  by_cases hd : d = c
  · subst hd
    simp [current, setCpu]
  · simp [current, setCpu, Function.update_of_ne hd]

/-- A CPU that only moves on in its loop leaves the view as it was. -/
theorem places_setCpu_of_current {s : Os cfg} {c : Fin cfg.numCpus} {cpu : Cpu}
    (h : cpu.pc.current = s.current c) : (s.setCpu c cpu).places = s.places := by
  simp [places, current_setCpu, h]

/-- A CPU without a process that gets one takes it out of a level. -/
theorem move_take {s : Os cfg} {c : Fin cfg.numCpus} {proc : Pcb} {sched : Sched} {cpu : Cpu}
    (hget : s.sched.getProc = some (proc, sched)) (hidle : s.current c = none)
    (hcpu : cpu.pc.current = some proc) :
    Places.Move s.places none ({ s.setCpu c cpu with sched := sched } : Os cfg).places := by
  rcases Sched.getProc_spec hget with ⟨k, q, pre, post, rfl, _, _, hlevel, hq, _⟩
  -- on the view, updating a queue is updating a level
  have hlevels : (fun j => (Function.update s.sched.mlqReadyQueue k q j).proc) =
      Function.update s.sched.level k (pre ++ post) := by
    funext j
    by_cases hj : j = k
    · subst hj
      simp [hq]
    · simp [Function.update_of_ne hj, Sched.level]
  have hplaces : ({ s.setCpu c cpu with
      sched := { s.sched with mlqReadyQueue := Function.update s.sched.mlqReadyQueue k q } } :
        Os cfg).places =
      { s.places with
        level := Function.update s.places.level k (pre ++ post)
        current := Function.update s.places.current c (some proc) } := by
    have hcur := current_setCpu s c cpu
    rw [hcpu] at hcur
    simp only [places, ← hlevels, ← hcur]
    rfl
  rw [hplaces]
  exact .take hidle hlevel

theorem level_enqueueLevel (sched : Sched) (p : Pcb) :
    (sched.enqueueLevel p).level = Places.insert sched.level p := by
  funext k
  exact Sched.enqueueLevel_level sched p k

/-- A CPU leaves the loader's variables and the clock alone. -/
theorem CpuMove.frame {s s' : Os cfg} {c : Fin cfg.numCpus} (h : s.CpuMove c s') :
    s'.done = s.done ∧ s'.loader = s.loader ∧ s'.time = s.time := by
  cases h <;> exact ⟨rfl, rfl, rfl⟩

/-- A CPU works on its own variables. -/
theorem CpuMove.cpus_of_ne {s s' : Os cfg} {c d : Fin cfg.numCpus} (h : s.CpuMove c s')
    (hd : d ≠ c) : s'.cpus d = s.cpus d := by
  cases h <;> exact Function.update_of_ne hd _ _

/-- Only `run` increments a `pc`. -/
theorem CpuMove.progCounter {s s' : Os cfg} {c : Fin cfg.numCpus} (h : s.CpuMove c s') :
    s'.progCounter = s.progCounter ∨
      ∃ p, (s.cpus c).pc = .exec p ∧ s'.progCounter = s.runPc p := by
  cases h with
  | exec hpc => exact Or.inr ⟨_, hpc, rfl⟩
  | _ => exact Or.inl rfl

theorem CpuMove.onPlaces {s s' : Os cfg} {c : Fin cfg.numCpus} (h : s.CpuMove c s') :
    Places.Move s.places (s.entering (.cpu c)) s'.places := by
  have hcurrent : s.current c = (s.cpus c).pc.current := rfl
  cases h with
  | @goto cpu hcpu hready =>
      -- only `putReady` has a process that enters
      have hnone : s.entering (.cpu c) = none := by
        cases hpc : (s.cpus c).pc with
        | putReady proc => exact absurd hpc (hready proc)
        | _ => simp only [entering, hpc]
      rw [hnone, places_setCpu_of_current hcpu]
      exact .quiet _
  | @finish proc hpc hfin =>
      -- the process has finished: the CPU gives it up and its PCB is freed
      have hplaces : ({ s.setCpu c ⟨.getNext, 0⟩ with freed := proc :: s.freed } :
          Os cfg).places = { s.places with
            current := Function.update s.places.current c none
            freed := proc :: s.places.freed } := by
        have hcur := current_setCpu s c ⟨.getNext, 0⟩
        simp only [CpuPc.current] at hcur
        simp only [places, ← hcur]
        rfl
      rw [hpc] at hcurrent
      simp only [entering, hpc, hplaces]
      exact .finish hcurrent hfin
  | take hpc hget =>
      rcases hpc with hpc | hpc
      · rw [hpc] at hcurrent
        simp only [entering, hpc]
        exact move_take hget hcurrent rfl
      · rw [hpc] at hcurrent
        simp only [entering, hpc]
        exact move_take hget hcurrent rfl
  | @putRunning proc hpc =>
      rw [hpc] at hcurrent
      -- `running_list` is no place of the view
      have hplaces : ({ s.setCpu c ⟨.putReady proc, (s.cpus c).timeLeft⟩ with
          sched := s.sched.enqueueRunning proc } : Os cfg).places = s.places :=
        places_setCpu_of_current (s := s) (c := c) hcurrent.symm
      simp only [entering, hpc, hplaces]
      exact .quiet _
  | @putReady proc hpc =>
      rw [hpc] at hcurrent
      -- the one step of a CPU that enters a level
      have hplaces : ({ s.setCpu c ⟨.getNext, (s.cpus c).timeLeft⟩ with
          sched := s.sched.putMlqProc proc } : Os cfg).places = { s.places with
            level := Places.insert s.places.level proc
            current := Function.update s.places.current c none } := by
        have hcur := current_setCpu s c ⟨.getNext, (s.cpus c).timeLeft⟩
        simp only [CpuPc.current] at hcur
        simp only [places, ← hcur, ← level_enqueueLevel]
        rfl
      simp only [entering, hpc, hplaces]
      exact .put hcurrent
  | @exec proc hpc =>
      rw [hpc] at hcurrent
      have hquiet : (s.setCpu c ⟨.slot (some proc), (s.cpus c).timeLeft - 1⟩).places = s.places :=
        places_setCpu_of_current hcurrent.symm
      have hplaces : ({ s.setCpu c ⟨.slot (some proc), (s.cpus c).timeLeft - 1⟩ with
          progCounter := s.runPc proc } : Os cfg).places =
          { s.places with progCounter := s.runPc proc } := by
        rw [← hquiet]
        rfl
      simp only [entering, hpc, hplaces]
      -- `run` returns at once when the program is over, and increments `pc` otherwise
      unfold runPc
      split
      · exact .quiet _
      · exact .exec hcurrent _ (Nat.le_succ _)

/-- The loader leaves the CPUs, the programs and the clock alone. -/
theorem LoaderMove.frame {s s' : Os cfg} (h : s.LoaderMove s') :
    s'.cpus = s.cpus ∧ s'.progCounter = s.progCounter ∧ s'.time = s.time := by
  cases h <;> exact ⟨rfl, rfl, rfl⟩

/-- `done` is set behind the last process, and the loader stops with it. -/
theorem LoaderMove.stopped {s s' : Os cfg} (h : s.LoaderMove s')
    (hdone : s.done = true → s.loader.pc = .stopped) :
    s'.done = true → s'.loader.pc = .stopped := by
  intro hd
  cases h with
  | goto _ hstopped _ => exact absurd (hdone hd) hstopped
  | addRunning hpc _ => exact absurd (hpc.symm.trans (hdone hd)) nofun
  | addReady hpc _ => exact absurd (hpc.symm.trans (hdone hd)) nofun
  | finish _ => rfl
  | stay _ => exact hdone hd

theorem LoaderMove.onPlaces {s s' : Os cfg} (h : s.LoaderMove s') :
    Places.Move s.places (s.entering .loader) s'.places := by
  -- a loader that is not in `addReady` has no process that enters
  have hnone : s.loader.pc ≠ .addReady → s.entering .loader = none := by
    intro hready
    cases hpc : s.loader.pc with
    | addReady => exact absurd hpc hready
    | _ => simp only [entering, hpc]
  cases h with
  | goto hready _ _ =>
      rw [hnone hready]
      exact .quiet _
  | addRunning hpc _ =>
      rw [hnone (by simp [hpc])]
      exact .quiet _
  | @addReady proc hpc hnext =>
      -- the process counts as added from here on
      have hplaces : ({ s.setLoader ⟨.slot, s.loader.i + 1⟩ with
          sched := s.sched.addMlqProc proc } : Os cfg).places = { s.places with
            level := Places.insert s.places.level proc
            added := s.places.added + 1 } := by
        simp only [places, ← level_enqueueLevel]
        rfl
      simp only [entering, hpc, hnext, hplaces]
      exact .add hnext
  | finish hpc =>
      rw [hnone (by simp [hpc])]
      exact .quiet _
  | stay hno =>
      by_cases hready : s.loader.pc = .addReady
      · simp only [entering, hready, hno hready]
        exact .quiet _
      · rw [hnone hready]
        exact .quiet _

/-- The step of any thread is a move, labelled with the process it puts into a level. -/
theorem step_places (s : Os cfg) (t : Thread cfg) :
    Places.Move s.places (s.entering t) (s.step t).places := by
  cases t with
  | cpu c => exact (s.cpuStep_move c).onPlaces
  | loader => exact s.loaderStep_move.onPlaces
  | timer => exact .quiet _

/-- A pass of `killall` only takes processes out of the queues. -/
theorem act_kill {s s' : Os cfg} {a : Action cfg}
    (ha : ∃ c name, a = .killRunning c name ∨ a = .killReady c name) (h : s.act a = some s') :
    ∃ sched, s' = { s with sched := sched } ∧
      ∀ k, (sched.level k).Subperm (s.sched.level k) := by
  rcases ha with ⟨c, name, rfl | rfl⟩
  · simp only [act] at h
    split at h
    · obtain rfl := Option.some.inj h
      exact ⟨_, rfl, fun k => List.Subperm.refl _⟩
    · cases h
  · simp only [act] at h
    split at h
    · obtain rfl := Option.some.inj h
      exact ⟨_, rfl, Sched.killReadyQueue_level_subperm s.sched name⟩
    · cases h

/-- On the view, an action is a move, or the levels lose what `killall` names. -/
theorem act_places {s s' : Os cfg} {a : Action cfg} (h : s.act a = some s') :
    (∃ l, Places.Move s.places l s'.places) ∨
    ∃ level', (∀ k, (level' k).Subperm (s.places.level k)) ∧
      s'.places = { s.places with level := level' } := by
  cases a with
  | thread t =>
      obtain rfl : s.step t = s' := by simpa [act] using h
      exact Or.inl ⟨_, step_places s t⟩
  | killRunning c targetName =>
      rcases act_kill ⟨c, targetName, Or.inl rfl⟩ h with ⟨sched, rfl, hsub⟩
      exact Or.inr ⟨sched.level, hsub, rfl⟩
  | killReady c targetName =>
      rcases act_kill ⟨c, targetName, Or.inr rfl⟩ h with ⟨sched, rfl, hsub⟩
      exact Or.inr ⟨sched.level, hsub, rfl⟩

/-- No action of a running simulator duplicates a process. -/
theorem act_total_le {s s' : Os cfg} {a : Action cfg} (h : s.act a = some s') (p : Pcb) :
    s'.places.total p ≤ s.places.total p := by
  rcases act_places h with ⟨l, hmove⟩ | ⟨level', hsub, hplaces⟩
  · exact hmove.total_le p
  · rw [hplaces]
    exact Places.total_le_of_subperm hsub p

theorem init_total_le (p : Pcb) : (init cfg).places.total p ≤ 1 := by
  -- at the start every process is still to be loaded
  calc
    (init cfg).places.total p = cfg.procs.count p := by
      simp [Places.total, places, init, current, CpuPc.current]
    _ ≤ 1 := List.nodup_iff_count_le_one.1 cfg.procs_nodup p

end Os
end MiniOs
