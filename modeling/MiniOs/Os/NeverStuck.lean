import MiniOs.Os.Lifetime
import MiniOs.Os.Outcome

/-!
# NeverStuck — the memory never holds a thread up

A call is undefined when it leaves the region table, follows a cyclic list, or belongs to a process
that is not there.  If the programs are sized and no call of a program is undefined when the program
is alone, then none is in company: whatever the threads can do without the memory, they can do with
it.
-/

namespace MiniOs
namespace Kernel

open Lib PrivateBytes

variable {cfg : Config} {ramsz swpsz : ℕ}

/-- The programs are sized, and every call of a program is defined when it is alone. -/
structure Safe (cfg : Config) (ramsz swpsz : ℕ) : Prop extends Sized cfg ramsz swpsz where
  defined : ∀ p ∈ cfg.procs, Along advance (fun u op => (showStep u op).1 ≠ none)
    (alone ramsz swpsz true) (programCalls p.code)

/-- The action is a step of a thread or of the timer, and no pass of `killall`. -/
def OfThread : Simulator.Action cfg → Prop
  | .timer _ | .cpu _ | .loader => True
  | .killRunning _ _ | .killReady _ _ => False

/-- Behind an instruction, its process has a twin that has made its calls. -/
theorem twins_cpuStep {os : Os cfg} (h : os.places.Counted) (c : Fin cfg.numCpus)
    {i : Fin cfg.procs.length} (hby : ∀ op ∈ cpuCalls os c, callerOf op = some i.val) :
    twins ramsz swpsz (os.cpuStep c) = Function.update (twins ramsz swpsz os) i
      (finalState showStep (twins ramsz swpsz os i) ((cpuCalls os c).map asFirst)) := by
  funext j
  have hcalls := callsBy_cpuStep h c (List.get_mem cfg.procs j)
  rw [memId_get] at hcalls
  by_cases hj : j = i
  · subst hj
    rw [Function.update_self, twins, hcalls, callsOf_self hby, behindAlone, finalState_append]
    rfl
  · have hother : ∀ op ∈ cpuCalls os c, callerOf op ≠ some j.val := by
      intro op hop heq
      exact hj (Fin.ext (Option.some.inj (heq.symm.trans (hby op hop))))
    rw [Function.update_of_ne hj, twins, hcalls, callsOf_other hother, List.append_nil]
    rfl

/-- The calls that CPU `c` is about to make for process `i` can be made. -/
theorem cpuCalls_defined (hsafe : Safe cfg ramsz swpsz) {k : Kernel cfg}
    (h : k.Shares ramsz swpsz) {c : Fin cfg.numCpus} {i : Fin cfg.procs.length}
    (hby : ∀ op ∈ cpuCalls k.hist.sim.os c, callerOf op = some i.val)
    (hthere : ∃ d, k.mem.caller i.val = some d) :
    (runFn PagingSys.exec k.mem (cpuCalls k.hist.sim.os c)).isSome := by
  have hfits := twins_fit hsafe.toSized (k.hist.sim.os.cpuStep c)
  rw [twins_cpuStep h.inv.counted c hby] at hfits
  have hcalls := callsBy_cpuStep h.inv.counted c (List.get_mem cfg.procs i)
  rw [memId_get, callsOf_self hby] at hcalls
  have halong := along_and.2
    ⟨hsafe.calm _ (List.get_mem cfg.procs i), hsafe.defined _ (List.get_mem cfg.procs i)⟩
  rw [programCalls_callsBy (k.hist.sim.os.cpuStep c), hcalls] at halong
  have hnext := (along_advance_append.1 (along_advance_append.1 halong).1).2
  rw [← h.sys] at hthere ⊢
  exact h.shared.defined hby hthere hnext hfits

/-- The process of a CPU has its memory. -/
theorem current_there {k : Kernel cfg} (h : k.Lives) {c : Fin cfg.numCpus} {p : Pcb}
    (hcur : k.hist.sim.os.current c = some p) : ∃ d, k.mem.caller (memId p) = some d :=
  h.hasMemory.held p (Or.inr ⟨c, hcur⟩)

theorem cpuMem_isSome (hsafe : Safe cfg ramsz swpsz) {k : Kernel cfg}
    (h : k.Shares ramsz swpsz) (hlives : k.Lives) (c : Fin cfg.numCpus) :
    (cpuMem k.hist.sim.os c k.mem).isSome := by
  cases cpuUses k.hist.sim.os c with
  | nothing _ hmem _ _ =>
      rw [hmem]
      rfl
  | @free q hpc hfin =>
      have hcur : k.hist.sim.os.current c = some q := by simp only [Os.current, hpc, CpuPc.current]
      rcases current_there hlives hcur with ⟨d, hd⟩
      simp only [cpuMem, hpc, if_pos hfin, PagingSys.exec, PagingSys.perform, hd, Option.map_some,
        Option.isSome_some]
  | @run q hpc =>
      have hcur : k.hist.sim.os.current c = some q := by simp only [Os.current, hpc, CpuPc.current]
      have hq := mem_procs_of_exec h.inv.counted hpc
      rcases current_there hlives hcur with ⟨d, hd⟩
      rcases exists_get hq with ⟨i, _, hi⟩
      cases hins : nextInst k.hist.sim.os q with
      | none => simp only [cpuMem, hpc, hins, Option.isSome_some]
      | some ins =>
          have hplain := hsafe.plain q hq ins (List.mem_of_getElem? hins)
          rcases hplain.calls (memId q) with ⟨ops, hops⟩
          have hcalls : cpuCalls k.hist.sim.os c = ops := by
            simp only [cpuCalls, hpc, hins, Option.bind_some, hops, Option.getD_some]
          have hby : ∀ op ∈ cpuCalls k.hist.sim.os c, callerOf op = some i.val := by
            rw [hcalls, hi]
            exact Inst.calls_callerOf hops
          have hdefined := cpuCalls_defined hsafe h hby ⟨d, hi ▸ hd⟩
          rw [hcalls, ← Caller.runInst_calls hd hops] at hdefined
          simp only [cpuMem, hpc, hins, hd, Option.bind_some]
          exact hdefined

/-- Whatever a thread or the timer can do without the memory, it can do with it. -/
def NeverStuck (k : Kernel cfg) : Prop :=
  ∀ a, OfThread a → (k.hist.exec a).isSome → (k.exec a).isSome

theorem neverStuck_of_shares (hsafe : Safe cfg ramsz swpsz) {k : Kernel cfg}
    (h : k.Shares ramsz swpsz) (hlives : k.Lives) : k.NeverStuck := by
  intro a ha hhist
  have hmem : (actMem k.hist.sim.os k.mem a).isSome := by
    cases a with
    | timer b => rfl
    | cpu c => exact cpuMem_isSome hsafe h hlives c
    | loader =>
        simp only [actMem, loaderCalls]
        split <;> rfl
    | killRunning c name | killReady c name => exact ha.elim
  rcases Option.isSome_iff_exists.1 hhist with ⟨hist, heq⟩
  rcases Option.isSome_iff_exists.1 hmem with ⟨mem, heq'⟩
  rw [exec, heq, Option.bind_some, heq']
  rfl

/-- For every configuration that is sized and whose programs make no undefined call alone, and for
every interleaving: in no state does the memory hold up a thread. -/
theorem always_neverStuck (hsafe : Safe cfg ramsz swpsz) (as : List (Simulator.Action cfg)) :
    AllStates NeverStuck (init cfg ramsz swpsz) (traceFn exec (init cfg ramsz swpsz) as) := by
  have hboth := allStates_and.2 ⟨shares_run hsafe.toSized as, lives_run cfg ramsz swpsz as⟩
  exact ⟨neverStuck_of_shares hsafe hboth.1.1 hboth.1.2,
    fun x hx => neverStuck_of_shares hsafe (hboth.2 x hx).1 (hboth.2 x hx).2⟩

theorem writers_neverStuck :
    AllStates NeverStuck (init (writers 2) 1024 1024)
      (traceFn exec (init (writers 2) 1024 1024) (turns (writers 2) 7)) :=
  always_neverStuck ⟨writers_sized_two, by decide +kernel⟩ (turns (writers 2) 7)

end Kernel
end MiniOs
