import MiniOs.Os.Kernel

/-!
# Lifetime — when a process has its memory

The loader creates the memory of a process before `add_proc` makes the process visible, and
`cpu_routine` frees a PCB that no level and no other CPU knows any more.  So whatever waits in a
level or is held by a CPU has its memory, whichever way the threads are interleaved.
-/

namespace MiniOs
namespace Kernel

open Lib PrivateBytes

variable {cfg : Config}

/-! ## Creation -/

/-- How many memories the loader has created. -/
def created (os : Os cfg) : ℕ :=
  match os.loader.pc with
  | .addRunning | .addReady => os.loader.i + 1
  | .loop | .wait | .waitSlot | .slot | .finish | .stopped => os.loader.i

theorem le_created (os : Os cfg) : os.loader.i ≤ created os := by
  unfold created
  split
  · exact Nat.le_succ _
  · exact Nat.le_succ _
  all_goals exact Nat.le_refl _

/-- One memory for every process that the loader goes on to add. -/
theorem created_loaderStep (os : Os cfg) :
    created os.loaderStep = created os + (loaderCalls os).length := by
  have hquiet : os.loader.pc ≠ .wait → loaderCalls os = [] :=
    fun hpc => if_neg fun h => hpc h.1
  cases hpc : os.loader.pc with
  | wait =>
      cases hget : cfg.ldProcesses[os.loader.i]? with
      | none => simp [Os.loaderStep, loaderCalls, Creates, hpc, hget]
      | some l =>
          by_cases hlate : os.time < l.startTime
          · simp [Os.loaderStep, loaderCalls, Creates, created, Os.setLoader, hpc, hget, hlate]
          · have hcreates : Creates os := ⟨hpc, l, hget, hlate⟩
            simp [Os.loaderStep, loaderCalls, hcreates, created, Os.setLoader, hpc, hget, hlate]
  | loop | addRunning | addReady =>
      rw [hquiet (by simp [hpc])]
      simp only [Os.loaderStep, hpc]
      split <;> simp [created, Os.setLoader, hpc]
  | waitSlot | slot | finish | stopped =>
      rw [hquiet (by simp [hpc])]
      simp [Os.loaderStep, created, Os.setLoader, hpc]

theorem loaderStep_freed (os : Os cfg) : os.loaderStep.freed = os.freed := by
  have hmove := os.loaderStep_move
  generalize os.loaderStep = os' at hmove ⊢
  cases hmove with
  | _ => rfl

/-- Nobody else moves the loader. -/
theorem created_of_loader {os os' : Os cfg} (h : os'.loader = os.loader) :
    created os' = created os := by
  rw [created, created, h]

/-! ## What a step does to the processes -/

variable {mem mem' : PagingSys} {os : Os cfg}

/-- A process that has called is as much over as before. -/
theorem setCaller_ended {i : ℕ} {c : Caller} (hc : mem.caller i = some c) (c' : Caller) (j : ℕ) :
    (mem.setCaller i c').procs[j]? = some none ↔ mem.procs[j]? = some none := by
  rcases Option.map_eq_some_iff.1 hc with ⟨pm, hpm, _⟩
  have hget : mem.procs[i]? = some (some pm) := by simpa [Option.join_eq_some_iff] using hpm
  by_cases hij : i = j
  · subst hij
    simp [PagingSys.setCaller, hget, List.getElem?_set_self']
  · simp [PagingSys.setCaller, List.getElem?_set_ne hij]

theorem finish_ended {i : ℕ} (h : mem.exec (.finish i) = some mem') (j : ℕ) :
    mem'.procs.length = mem.procs.length ∧
      (mem'.procs[j]? = some none ↔ i = j ∨ mem.procs[j]? = some none) := by
  rcases Option.map_eq_some_iff.1 h with ⟨⟨ret, s⟩, hperform, rfl⟩
  rcases Option.map_eq_some_iff.1 hperform with ⟨c, hc, heq⟩
  obtain ⟨_, rfl⟩ := Prod.mk.inj heq
  have hlt := (PagingSys.caller_spec hc).1
  refine ⟨List.length_set, ?_⟩
  by_cases hij : i = j
  · subst hij
    simp [hlt]
  · simp [hij, List.getElem?_set_ne hij]

/-- No step of a CPU adds a process. -/
theorem cpuMem_length {c : Fin cfg.numCpus} (hmem : cpuMem os c mem = some mem') :
    mem'.procs.length = mem.procs.length := by
  cases cpuUses os c with
  | nothing _ hquiet _ _ =>
      obtain rfl : mem = mem' := Option.some.inj ((hquiet mem).symm.trans hmem)
      rfl
  | run hpc =>
      simp only [cpuMem, hpc] at hmem
      split at hmem
      · rcases Option.bind_eq_some_iff.1 hmem with ⟨caller, _, hrun⟩
        rcases Option.map_eq_some_iff.1 hrun with ⟨r, _, rfl⟩
        exact List.length_set
      · rw [Option.some.inj hmem]
  | @free q hpc hfin =>
      simp only [cpuMem, hpc, if_pos hfin] at hmem
      exact (finish_ended hmem (memId q)).1

/-- A pass of `killall` reads the name and changes no memory. -/
theorem kill_mem {P : Prop} [Decidable P] (hmem : (if P then some mem else none) = some mem') :
    mem' = mem := by
  split at hmem
  · exact (Option.some.inj hmem).symm
  · cases hmem

/-- The loader adds a memory and ends none. -/
theorem loaderCalls_ended (hmem : runFn PagingSys.exec mem (loaderCalls os) = some mem') (i : ℕ) :
    mem'.procs[i]? = some none ↔ mem.procs[i]? = some none := by
  unfold loaderCalls at hmem
  split at hmem
  · obtain rfl := Option.some.inj hmem
    rcases Nat.lt_trichotomy i mem.procs.length with hlt | rfl | hgt
    · rw [List.getElem?_append_left hlt]
    · simp
    · rw [List.getElem?_eq_none (by simpa using hgt), List.getElem?_eq_none hgt.le]
  · rw [Option.some.inj hmem]

theorem loaderCalls_length (hmem : runFn PagingSys.exec mem (loaderCalls os) = some mem') :
    mem'.procs.length = mem.procs.length + (loaderCalls os).length := by
  unfold loaderCalls at hmem ⊢
  split at hmem
  · rename_i hcreates
    obtain rfl := Option.some.inj hmem
    rw [if_pos hcreates]
    exact List.length_append
  · rename_i hcreates
    rw [if_neg hcreates, Option.some.inj hmem]
    rfl

/-- What a step of a CPU does to the processes: `run` ends none, `free` ends the one that is
freed. -/
theorem cpuMem_ended (h : os.places.Counted) {c : Fin cfg.numCpus}
    (hmem : cpuMem os c mem = some mem') {p : Pcb} (hp : p ∈ cfg.procs)
    (hended : p ∈ os.freed ↔ mem.procs[memId p]? = some none) :
    p ∈ (os.cpuStep c).freed ↔ mem'.procs[memId p]? = some none := by
  cases cpuUses os c with
  | nothing _ hquiet hfreed _ =>
      obtain rfl : mem = mem' := Option.some.inj ((hquiet mem).symm.trans hmem)
      rw [hfreed, hended]
  | @run q hpc =>
      have hfreed : (os.cpuStep c).freed = os.freed := by
        simp only [Os.cpuStep, hpc, Os.setCpu_freed]
      simp only [cpuMem, hpc] at hmem
      rw [hfreed, hended]
      split at hmem
      · rcases Option.bind_eq_some_iff.1 hmem with ⟨caller, hcaller, hrun⟩
        rcases Option.map_eq_some_iff.1 hrun with ⟨r, _, rfl⟩
        exact (setCaller_ended hcaller r.2 (memId p)).symm
      · obtain rfl := Option.some.inj hmem
        exact Iff.rfl
  | @free q hpc hfin =>
      have hcur : os.current c = some q := by simp only [Os.current, hpc, CpuPc.current]
      have hq := Os.mem_procs_of_held h (Or.inr ⟨c, hcur⟩)
      have hfreed : (os.cpuStep c).freed = q :: os.freed := by
        simp only [Os.cpuStep, hpc, if_pos hfin]
      simp only [cpuMem, hpc, if_pos hfin] at hmem
      have hid : p = q ↔ memId q = memId p :=
        ⟨fun heq => by rw [heq], fun heq => (memId_injective hq hp heq).symm⟩
      rw [hfreed, List.mem_cons, (finish_ended hmem (memId p)).2, hid, hended]

/-! ## The invariant -/

/-- There are as many memories as the loader has created, and those of the freed PCBs are over. -/
structure Lives (k : Kernel cfg) : Prop where
  counted : k.hist.sim.os.places.Counted
  created : k.mem.procs.length = created k.hist.sim.os
  ended : ∀ p ∈ cfg.procs, p ∈ k.hist.sim.os.freed ↔ k.mem.procs[memId p]? = some none

theorem lives_init (cfg : Config) (ramsz swpsz : Nat) : (init cfg ramsz swpsz).Lives :=
  ⟨(History.inv_init cfg).programs.counted, rfl, fun p _ => by
    simp [init, History.init, Simulator.init, Os.init, PagingSys.start]⟩

/-- Step lemma. -/
theorem Lives.exec {k k' : Kernel cfg} {a : Simulator.Action cfg} (h : k.Lives)
    (hexec : k.exec a = some k') : k'.Lives := by
  rcases exec_hist hexec with ⟨hhist, hmem, _⟩
  rcases Option.map_eq_some_iff.1 hhist with ⟨sim, hsim, hsimeq⟩
  have hos : k'.hist.sim = sim := by rw [← hsimeq]
  have hcounted : k'.hist.sim.os.places.Counted := by
    rw [hos]
    exact counted_exec hsim h.counted
  have hquiet : k'.mem = k.mem → k'.hist.sim.os.loader = k.hist.sim.os.loader →
      k'.hist.sim.os.freed = k.hist.sim.os.freed → k'.Lives := by
    intro hsame hloader hfreed
    refine ⟨hcounted, ?_, fun p hp => ?_⟩
    · rw [hsame, created_of_loader hloader]
      exact h.created
    · rw [hsame, hfreed]
      exact h.ended p hp
  have hkill : (∃ c name, a = .killRunning c name ∨ a = .killReady c name) → k'.mem = k.mem →
      k'.Lives := by
    intro ha hsame
    rcases (Simulator.exec_kill hsim ha).2 with ⟨sched, heq, _⟩
    exact hquiet hsame (by rw [hos, heq]) (by rw [hos, heq])
  cases a with
  | timer b =>
      have heq := (Simulator.exec_timerStep hsim).os
      exact hquiet (Option.some.inj hmem).symm (by rw [hos, heq]) (by rw [hos, heq])
  | cpu c =>
      have heq : k'.hist.sim.os = k.hist.sim.os.cpuStep c := by
        rw [hos]
        exact (Simulator.move_eq hsim).2.2
      have hloader := (k.hist.sim.os.cpuStep_move c).frame.2.1
      refine ⟨hcounted, ?_, fun p hp => ?_⟩
      · rw [heq, created_of_loader hloader, cpuMem_length hmem]
        exact h.created
      · rw [heq]
        exact cpuMem_ended h.counted hmem hp (h.ended p hp)
  | loader =>
      have heq : k'.hist.sim.os = k.hist.sim.os.loaderStep := by
        rw [hos]
        exact (Simulator.move_eq hsim).2.2
      have hfreed := loaderStep_freed k.hist.sim.os
      refine ⟨hcounted, ?_, fun p hp => ?_⟩
      · rw [heq, created_loaderStep, ← h.created]
        exact loaderCalls_length hmem
      · rw [heq, hfreed, h.ended p hp, loaderCalls_ended hmem]
  | killRunning c name =>
      exact hkill ⟨c, name, Or.inl rfl⟩ (kill_mem hmem)
  | killReady c name =>
      exact hkill ⟨c, name, Or.inr rfl⟩ (kill_mem hmem)

/-! ## Runs -/

/-- A process that waits or is held has been added and is not freed. -/
theorem added_of_held {os : Os cfg} (h : os.places.Counted) {p : Pcb} (hp : os.Held p) :
    p ∈ cfg.procs.take os.loader.i ∧ p ∉ os.freed := by
  rcases cfg.count_take_add_drop os.loader.i p with ⟨hsplit, honce⟩
  have hheld := Os.held_pos hp
  have htotal := h p
  rw [Os.total_places] at htotal
  refine ⟨List.one_le_count_iff.1 (by omega), fun hfreed => ?_⟩
  have := List.one_le_count_iff.2 hfreed
  omega

theorem memId_lt_of_mem_take {p : Pcb} {n : ℕ} (h : p ∈ cfg.procs.take n) : memId p < n := by
  rcases List.mem_iff_getElem?.1 h with ⟨i, hi⟩
  rw [List.getElem?_take] at hi
  split at hi
  · rename_i hlt
    simp only [Config.procs, List.getElem?_mapIdx, Option.map_eq_some_iff] at hi
    rcases hi with ⟨l, _, rfl⟩
    exact hlt
  · cases hi

theorem le_memId_of_mem_drop {p : Pcb} {n : ℕ} (h : p ∈ cfg.procs.drop n) : n ≤ memId p := by
  rcases List.mem_iff_getElem?.1 h with ⟨i, hi⟩
  rw [List.getElem?_drop] at hi
  simp only [Config.procs, List.getElem?_mapIdx, Option.map_eq_some_iff] at hi
  rcases hi with ⟨l, _, rfl⟩
  exact Nat.le_add_right n i

/-- Every process has its memory from `init_mm` to `free(proc)`, and it has it whenever a CPU may
run it. -/
structure HasMemory (k : Kernel cfg) : Prop where
  /-- it waits in a ready level or is the process of a CPU -/
  held : ∀ p, k.hist.sim.os.Held p → ∃ c, k.mem.caller (memId p) = some c
  freed : ∀ p ∈ cfg.procs, p ∈ k.hist.sim.os.freed ↔ k.mem.procs[memId p]? = some none
  coming : ∀ p ∈ cfg.procs.drop (created k.hist.sim.os), k.mem.procs[memId p]? = none

theorem Lives.hasMemory {k : Kernel cfg} (h : k.Lives) : k.HasMemory where
  held p hp := by
    rcases added_of_held h.counted hp with ⟨hadded, hnot⟩
    have hlt : memId p < k.mem.procs.length := by
      rw [h.created]
      exact (memId_lt_of_mem_take hadded).trans_le (le_created _)
    have hnone := mt (h.ended p (List.mem_of_mem_take hadded)).2 hnot
    rw [List.getElem?_eq_getElem hlt] at hnone
    cases hpm : k.mem.procs[memId p] with
    | none => exact absurd (congrArg some hpm) hnone
    | some pm =>
        exact ⟨⟨pm.bp, pm.mm, k.mem.mram, k.mem.activeMswp⟩, by
          simp [PagingSys.caller, List.getElem?_eq_getElem hlt, hpm]⟩
  freed := h.ended
  coming p hp := by
    refine List.getElem?_eq_none ?_
    rw [h.created]
    exact le_memId_of_mem_drop hp

theorem lives_run (cfg : Config) (ramsz swpsz : Nat) (as : List (Simulator.Action cfg)) :
    AllStates Lives (init cfg ramsz swpsz) (traceFn exec (init cfg ramsz swpsz) as) := by
  rcases run_traceFn exec (init cfg ramsz swpsz) as with ⟨k, hrun⟩
  exact hrun.allStates (fun h hexec => h.exec hexec) (lives_init cfg ramsz swpsz)

/-- For every configuration, every size of the devices and every interleaving of the threads,
`killall` included, up to the first undefined call: a process has its memory as long as it waits in
a level or a CPU holds it, the memory is over exactly when the PCB is freed, and a process that is
still to come has none. -/
theorem always_hasMemory (cfg : Config) (ramsz swpsz : Nat) (as : List (Simulator.Action cfg)) :
    AllStates HasMemory (init cfg ramsz swpsz) (traceFn exec (init cfg ramsz swpsz) as) := by
  have hlives := lives_run cfg ramsz swpsz as
  exact ⟨hlives.1.hasMemory, fun x hx => (hlives.2 x hx).hasMemory⟩

end Kernel
end MiniOs
