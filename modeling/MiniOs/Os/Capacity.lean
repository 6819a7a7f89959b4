import MiniOs.Os.Completion

/-!
# Capacity — configurations that fit into the levels

A level has `MAX_QUEUE_SIZE` slots, and only processes with its `prio` ever enter it.  So if a
configuration lists at most that many processes for each `prio` below `MAX_PRIO`, a process always
finds room (`findsRoom_of_fits`): a run needs no condition of its own.
-/

namespace MiniOs

open Lib

/-- The configuration can be executed to the end: there is a CPU, the slices and the programs are
not empty, every process has a level with a slot for it, and no program calls `killall`. -/
structure Config.Fits (cfg : Config) : Prop where
  cpus : 0 < cfg.numCpus
  timeSlot : 0 < cfg.timeSlot
  size : ∀ p ∈ cfg.procs, 1 ≤ p.codeSize
  prio_lt : ∀ p ∈ cfg.procs, p.prio < maxPrio
  room : ∀ k : Fin maxPrio, cfg.procs.countP (fun p => p.prio = k.val) ≤ maxQueueSize
  noKillall : ∀ p ∈ cfg.procs, ∀ ins ∈ p.code, ins.opcode = .syscall → ins.arg0 ≠ 101#32

namespace Places

variable {cfg : Config}

/-- Only processes with its `prio` are in a level. -/
def ByPrio (w : Places cfg) : Prop := ∀ k, ∀ p ∈ w.level k, p.prio = k.val

theorem Move.byPrio {w w' : Places cfg} {l : Option Pcb} (h : Move w l w') (hw : w.ByPrio) :
    w'.ByPrio := by
  have hinsert : ∀ p, ∀ k, ∀ q ∈ insert w.level p k, q.prio = k.val := by
    intro p k q hq
    unfold insert at hq
    split at hq
    · rename_i hroom
      rcases List.mem_append.1 hq with hq | hq
      · exact hw k q hq
      · rw [List.mem_singleton.1 hq, hroom.1]
    · exact hw k q hq
  cases h with
  | @take c p j pre post _ hlevel =>
      intro k q hq
      by_cases hk : k = j
      · subst hk
        simp only [Function.update_self] at hq
        refine hw k q ?_
        rw [hlevel]
        exact List.mem_append.2 ((List.mem_append.1 hq).imp id (List.mem_cons_of_mem _))
      · simp only [Function.update_of_ne hk] at hq
        exact hw k q hq
  | put _ => exact hinsert _
  | add _ => exact hinsert _
  | _ => exact hw

/-- A process that is not in its level leaves a slot there. -/
theorem room_of_fits {w : Places cfg} (hfits : cfg.Fits) (hprio : w.ByPrio) (hw : w.Counted)
    {p : Pcb} (hp : p ∈ cfg.procs) (hout : ∀ k, p ∉ w.level k) : Room w.level p := by
  refine ⟨hfits.prio_lt p hp, ?_⟩
  generalize hk : (⟨p.prio, hfits.prio_lt p hp⟩ : Fin maxPrio) = k
  have hle : ∀ q, (w.level k).count q ≤ cfg.procs.count q := by
    intro q
    calc
      (w.level k).count q ≤ ∑ j, (w.level j).count q :=
        Finset.single_le_sum (f := fun j => (w.level j).count q) (fun _ _ => Nat.zero_le _)
          (Finset.mem_univ k)
      _ ≤ w.total q := by
        unfold total
        omega
      _ ≤ cfg.procs.count q := hw q
  have hnodup : (p :: w.level k).Nodup := by
    refine List.nodup_cons.2 ⟨hout k, List.nodup_iff_count_le_one.2 fun q => ?_⟩
    exact (hle q).trans (List.nodup_iff_count_le_one.1 cfg.procs_nodup q)
  have hsub : p :: w.level k ⊆ cfg.procs.filter fun q => q.prio = k.val := by
    intro q hq
    rw [List.mem_filter]
    rcases List.mem_cons.1 hq with rfl | hq
    · exact ⟨hp, by simp [← hk]⟩
    · have hcount := List.one_le_count_iff.2 hq
      exact ⟨List.one_le_count_iff.1 (hcount.trans (hle q)), by simpa using hprio k q hq⟩
  calc
    (w.level k).length < (p :: w.level k).length := Nat.lt_succ_self _
    _ ≤ (cfg.procs.filter fun q => q.prio = k.val).length := (hnodup.subperm hsub).length_le
    _ ≤ maxQueueSize := by
      rw [← List.countP_eq_length_filter]
      exact hfits.room k

end Places

namespace Os

variable {cfg : Config}

/-- Where a process about to enter a level comes from. -/
theorem not_waiting_of_entering {s : Os cfg} (h : s.places.Counted) {t : Thread cfg} {p : Pcb}
    (hp : s.entering t = some p) : p ∈ cfg.procs ∧ ∀ k, p ∉ s.sched.level k := by
  cases t with
  | cpu c =>
      have hcur : s.current c = some p := by
        simp only [entering] at hp
        split at hp
        · rename_i hpc
          simp only [current, hpc, CpuPc.current]
          exact hp
        · cases hp
      refine ⟨mem_procs_of_held h (Or.inr ⟨c, hcur⟩), fun k hk => ?_⟩
      exact (History.onePlace_of_counted h).not_current ⟨k, hk⟩ c hcur
  | loader =>
      have hnext : cfg.procs[s.loader.i]? = some p := by
        simp only [entering] at hp
        split at hp
        · exact hp
        · cases hp
      have hmem := List.mem_of_getElem? hnext
      refine ⟨hmem, fun k hk => ?_⟩
      -- it is still to come, and nothing is in two places
      have htotal := h p
      rw [total_places] at htotal
      have hlevels := one_le_count_levels (s := s) ⟨k, hk⟩
      have honce := (cfg.count_take_add_drop 0 p).2
      have hcoming : 1 ≤ (cfg.procs.drop s.loader.i).count p := by
        rcases List.getElem?_eq_some_iff.1 hnext with ⟨hlt, hget⟩
        rw [List.drop_eq_getElem_cons hlt, hget]
        simp
      omega
  | timer => cases hp

theorem findsRoom_of_fits {s : Os cfg} (hfits : cfg.Fits) (h : s.places.Counted)
    (hprio : s.places.ByPrio) (t : Thread cfg) : s.FindsRoom t := by
  intro p hp _
  rcases not_waiting_of_entering h hp with ⟨hmem, hout⟩
  exact Places.room_of_fits hfits hprio h hmem hout

/-- No CPU is about to run a `killall`. -/
theorem not_killing_of_fits {s : Os cfg} (hfits : cfg.Fits) (h : s.places.Counted)
    (c : Fin cfg.numCpus) : ¬ s.Killing c := by
  unfold Killing
  split
  · rename_i proc hpc
    have hcur : s.current c = some proc := by simp only [current, hpc, CpuPc.current]
    split
    · rename_i ins hins
      have hmem := List.mem_of_getElem? hins
      rintro ⟨hop, harg⟩
      exact hfits.noKillall proc (mem_procs_of_held h (Or.inr ⟨c, hcur⟩)) ins hmem hop harg
    · exact not_false
  · exact not_false

end Os

namespace Simulator

variable {cfg : Config}

/-- Step lemma for the places. -/
theorem byPrio_exec {s s' : Simulator cfg} {a : Action cfg} (h : s.os.places.ByPrio)
    (hexec : s.exec a = some s') : s'.os.places.ByPrio := by
  cases exec_kind hexec with
  | timer _ _ _ _ _ hos =>
      rw [hos]
      exact h
  | cpu c _ _ _ hos =>
      rw [hos]
      exact (Os.step_places s.os (.cpu c)).byPrio h
  | loader _ _ _ hos =>
      rw [hos]
      exact (Os.step_places s.os .loader).byPrio h
  | kill b hb hos =>
      rcases Os.act_kill hb hos with ⟨sched, heq, hsub⟩
      rw [heq]
      exact fun k p hp => h k p ((hsub k).subset hp)

/-- In a configuration that fits, no step loses a process. -/
theorem keepsAll_of_fits {s s' : Simulator cfg} {a : Action cfg} (hfits : cfg.Fits)
    (hcounted : s.os.places.Counted) (hprio : s.os.places.ByPrio) (hexec : s.exec a = some s') :
    s.KeepsAll a := by
  cases a with
  | cpu c => exact Os.findsRoom_of_fits hfits hcounted hprio _
  | loader => exact Os.findsRoom_of_fits hfits hcounted hprio _
  | killReady c name =>
      rcases Option.bind_eq_some_iff.1 hexec with ⟨os, hact, _⟩
      rw [Os.act, if_neg (Os.not_killing_of_fits hfits hcounted c)] at hact
      cases hact
  | _ => trivial

end Simulator

namespace History

variable {cfg : Config}

/-- The invariant of the runs of a configuration that fits. -/
structure Fitted (h : History cfg) : Prop where
  whole : h.Whole
  byPrio : h.sim.os.places.ByPrio

theorem fitted_init (cfg : Config) : (init cfg).Fitted := by
  refine ⟨whole_init cfg, fun k p hp => ?_⟩
  simp [init, Simulator.init, Os.init, Os.places] at hp

theorem Fitted.exec {h h' : History cfg} {a : Simulator.Action cfg} (hf : h.Fitted)
    (hfits : cfg.Fits) (hexec : h.exec a = some h') : h'.Fitted := by
  rcases Option.map_eq_some_iff.1 hexec with ⟨sim, hsim, heq⟩
  have hcounted := hf.whole.inv.programs.counted
  have hkeeps := Simulator.keepsAll_of_fits hfits hcounted hf.byPrio hsim
  refine ⟨hf.whole.exec hfits.timeSlot hfits.size hfits.cpus hexec hkeeps, ?_⟩
  rw [← heq]
  exact Simulator.byPrio_exec hf.byPrio hsim

/-- A configuration that fits is executed completely, whatever the schedule: when all CPUs have
stopped, every instruction of every program has been executed once, in program order. -/
theorem fits_allExecuted (cfg : Config) (hfits : cfg.Fits) (as : List (Simulator.Action cfg)) :
    AllStates (fun h => h.sim.AllStopped → h.AllExecuted) (init cfg)
      (traceFn exec (init cfg) as) := by
  rcases run_traceFn exec (init cfg) as with ⟨t, hrun⟩
  have hfitted := hrun.allStates (I := Fitted) (fun hf hexec => hf.exec hfits hexec)
    (fitted_init cfg)
  exact ⟨fun hall => hfitted.1.whole.allExecuted hfits.cpus hall,
    fun x hx hall => (hfitted.2 x hx).whole.allExecuted hfits.cpus hall⟩

theorem short_fits : short.Fits where
  cpus := by decide
  timeSlot := by decide
  size := by decide
  prio_lt := by decide
  room := by decide
  noKillall := by decide

theorem short_allExecuted :
    (runFn exec (init short) Simulator.shortEnd).map
        (fun h => (h.sim.os.cpus ⟨0, by decide⟩).pc) = some .stopped ∧
      AllStates (fun h => h.sim.AllStopped → h.AllExecuted) (init short)
        (traceFn exec (init short) Simulator.shortEnd) :=
  ⟨by decide +kernel, fits_allExecuted short short_fits Simulator.shortEnd⟩

end History
end MiniOs
