import MiniOs.Os.Routines

/-!
# KillByPath — which processes `killall` finds

`__sys_killall` compares a name with `proc->path`, of which `load` has kept sixteen bytes, and
searches `running_list` and the first ready level.  A PCB that `cpu_routine` has freed stays in
`running_list`, and is read there all the same.  So `killall` kills exactly the processes loaded
from a path if no freed PCB is listed, none of them waits in another level, the path was not cut,
and no other path was cut to it.
-/

namespace MiniOs

variable {cfg : Config}

/-- `p` is a process that `load` has made from the file `path`. -/
def Config.LoadedFrom (cfg : Config) (p : Pcb) (path : CString) : Prop :=
  ∃ i l, cfg.ldProcesses[i]? = some l ∧ l.path = path ∧ p = cfg.load i l

/-- What `load` keeps of a path: `snprintf(proc->path, 2*sizeof(path)+1, ..)`. -/
def keptPath (path : CString) : CString := path.take 16

theorem Config.LoadedFrom.path_eq {p : Pcb} {path : CString} (h : cfg.LoadedFrom p path) :
    p.path = keptPath path := by
  rcases h with ⟨i, l, _, rfl, rfl⟩
  rfl

theorem keptPath_eq_self_iff {path : CString} : keptPath path = path ↔ path.length ≤ 16 := by
  rw [keptPath, List.take_eq_self_iff]

namespace Sched

/-- The two passes of `__sys_killall`, of a caller whose queue pointers `add_proc` has set. -/
def sysKillall (s : Sched) (procName : CString) : Sched :=
  (s.killRunningList procName).killReadyQueue procName

/-- How often `p` is left in `running_list`. -/
theorem sysKillall_runningList (s : Sched) (procName : CString) (p : Pcb) :
    (s.sysKillall procName).runningList.proc.count p =
      if p.path = procName then 0 else s.runningList.proc.count p := by
  have hperm := QueueT.killAll_perm Pcb.priority (fun proc => decide (proc.path = procName))
    s.runningList
  have hcount : (s.sysKillall procName).runningList.proc.count p =
      (s.runningList.proc.filter fun q => !decide (q.path = procName)).count p := hperm.count_eq p
  rw [hcount]
  split
  · rename_i hpath
    exact List.count_eq_zero.2 (by simp [hpath])
  · rename_i hpath
    exact List.count_filter (by simpa using hpath)

/-- How often `p` is left in a ready level: only the first one is searched. -/
theorem sysKillall_level (s : Sched) (procName : CString) (k : Fin maxPrio) (p : Pcb) :
    ((s.sysKillall procName).level k).count p =
      if k.val = 0 ∧ p.path = procName then 0 else (s.level k).count p := by
  have hperm := killReadyQueue_level (s.killRunningList procName) procName k
  have hcount := hperm.count_eq p
  rw [show (s.sysKillall procName).level k =
    ((s.killRunningList procName).killReadyQueue procName).level k from rfl, hcount]
  by_cases hk : k.val = 0
  · by_cases hpath : p.path = procName
    · simp only [hk, hpath, and_self, if_true]
      exact List.count_eq_zero.2 (by simp [hpath])
    · simp only [hk, hpath, and_false, if_true, if_false]
      exact List.count_filter (by simpa using hpath)
  · simp only [hk, false_and, if_false]
    rfl

/-- The entries of a queue are dropped if `c` holds: then, or without any, none is left. -/
theorem ite_count_eq_zero_iff {l : List Pcb} {p : Pcb} {c : Prop} [Decidable c] :
    (if c then 0 else l.count p) = 0 ↔ (p ∈ l → c) := by
  by_cases hc : c
  · simp [hc]
  · simp [hc, List.count_eq_zero]

theorem ite_count_eq_self_iff {l : List Pcb} {p : Pcb} {c : Prop} [Decidable c] :
    (if c then 0 else l.count p) = l.count p ↔ (p ∈ l → ¬ c) := by
  by_cases hc : c
  · simp only [hc, if_true, not_true_eq_false, imp_false]
    rw [eq_comm, List.count_eq_zero]
  · simp [hc]

/-- Nothing is left of a process in `running_list` if its path is the name. -/
theorem sysKillall_gone_iff (s : Sched) (procName : CString) (p : Pcb) :
    p ∉ (s.sysKillall procName).runningList.proc ↔
      (p ∈ s.runningList.proc → p.path = procName) := by
  rw [← List.count_eq_zero, sysKillall_runningList]
  exact ite_count_eq_zero_iff

theorem sysKillall_kept_iff (s : Sched) (procName : CString) (p : Pcb) :
    (s.sysKillall procName).runningList.proc.count p = s.runningList.proc.count p ↔
      (p ∈ s.runningList.proc → p.path ≠ procName) := by
  rw [sysKillall_runningList]
  exact ite_count_eq_self_iff

/-- In a ready level it must be the first one, too. -/
theorem sysKillall_gone_level_iff (s : Sched) (procName : CString) (k : Fin maxPrio) (p : Pcb) :
    p ∉ (s.sysKillall procName).level k ↔
      (p ∈ s.level k → k.val = 0 ∧ p.path = procName) := by
  rw [← List.count_eq_zero, sysKillall_level]
  exact ite_count_eq_zero_iff

theorem sysKillall_kept_level_iff (s : Sched) (procName : CString) (k : Fin maxPrio) (p : Pcb) :
    ((s.sysKillall procName).level k).count p = (s.level k).count p ↔
      (p ∈ s.level k → ¬ (k.val = 0 ∧ p.path = procName)) := by
  rw [sysKillall_level]
  exact ite_count_eq_self_iff

/-- `p` is in one of the two queues that are searched. -/
def Searched (s : Sched) (p : Pcb) : Prop :=
  p ∈ s.runningList.proc ∨ ∃ k : Fin maxPrio, k.val = 0 ∧ p ∈ s.level k

instance (s : Sched) (p : Pcb) : Decidable (s.Searched p) := inferInstanceAs (Decidable (_ ∨ _))

/-- No process loaded from `path` is left in any queue, and every other process is in every queue as
often as before. -/
structure Killed (cfg : Config) (s : Sched) (path : CString) (s' : Sched) : Prop where
  gone : ∀ p, cfg.LoadedFrom p path → p ∉ s'.runningList.proc ∧ ∀ k, p ∉ s'.level k
  kept : ∀ p path', cfg.LoadedFrom p path' → path' ≠ path →
    s'.runningList.proc.count p = s.runningList.proc.count p ∧
      ∀ k, (s'.level k).count p = (s.level k).count p

/-- The search finds what `path` stands for: its processes wait in no level behind the first, those
in the queues searched have kept their path, and no other one there has a path cut to it. -/
structure FindsPath (cfg : Config) (s : Sched) (path : CString) : Prop where
  front : ∀ p, cfg.LoadedFrom p path → ∀ k, p ∈ s.level k → k.val = 0
  whole : ∀ p, cfg.LoadedFrom p path → s.Searched p → path.length ≤ 16
  distinct : ∀ p path', cfg.LoadedFrom p path' → path' ≠ path → s.Searched p →
    keptPath path' ≠ path

/-- The two passes kill exactly the processes loaded from the path if and only if the search finds
them. -/
theorem killed_iff (cfg : Config) (s : Sched) (path : CString) :
    Killed cfg s path (s.sysKillall path) ↔ s.FindsPath cfg path := by
  constructor
  · rintro ⟨hgone, hkept⟩
    refine ⟨fun p hp k hk => ?_, fun p hp hin => ?_, fun p path' hp hne hin hcut => ?_⟩
    · -- in another level the process would be left
      exact ((sysKillall_gone_level_iff s path k p).1 ((hgone p hp).2 k) hk).1
    · have hpath : p.path = path := by
        rcases hin with hrun | ⟨k, _, hready⟩
        · exact (sysKillall_gone_iff s path p).1 (hgone p hp).1 hrun
        · exact ((sysKillall_gone_level_iff s path k p).1 ((hgone p hp).2 k) hready).2
      exact keptPath_eq_self_iff.1 (hp.path_eq.symm.trans hpath)
    · -- a process that shares the name is killed too
      have hpath : p.path = path := hp.path_eq.trans hcut
      rcases hkept p path' hp hne with ⟨hlist, hlevels⟩
      rcases hin with hrun | ⟨k, hk, hready⟩
      · exact (sysKillall_kept_iff s path p).1 hlist hrun hpath
      · exact (sysKillall_kept_level_iff s path k p).1 (hlevels k) hready ⟨hk, hpath⟩
  · rintro ⟨hfront, hwhole, hdistinct⟩
    -- the name of a process that is searched is its whole path
    have hpath : ∀ p, cfg.LoadedFrom p path → s.Searched p → p.path = path := by
      intro p hp hin
      exact hp.path_eq.trans (keptPath_eq_self_iff.2 (hwhole p hp hin))
    have hother : ∀ p path', cfg.LoadedFrom p path' → path' ≠ path → s.Searched p →
        p.path ≠ path := by
      intro p path' hp hne hin heq
      exact hdistinct p path' hp hne hin (hp.path_eq.symm.trans heq)
    refine ⟨fun p hp => ⟨?_, fun k => ?_⟩, fun p path' hp hne => ⟨?_, fun k => ?_⟩⟩
    · rw [sysKillall_gone_iff]
      exact fun hrun => hpath p hp (Or.inl hrun)
    · rw [sysKillall_gone_level_iff]
      intro hready
      have hk := hfront p hp k hready
      exact ⟨hk, hpath p hp (Or.inr ⟨k, hk, hready⟩)⟩
    · rw [sysKillall_kept_iff]
      exact fun hrun => hother p path' hp hne (Or.inl hrun)
    · rw [sysKillall_kept_level_iff]
      rintro hready ⟨hk, heq⟩
      exact hother p path' hp hne (Or.inr ⟨k, hk, hready⟩) heq

end Sched

namespace Os

open Lib

/-- No PCB in the queues that are searched has been freed. -/
def NoneFreed (s : Os cfg) : Prop := ∀ p ∈ s.freed, ¬ s.sched.Searched p

instance (s : Os cfg) : Decidable s.NoneFreed :=
  inferInstanceAs (Decidable (∀ p ∈ s.freed, ¬ s.sched.Searched p))

/-- `__sys_killall`, behind the loop that reads the name.  It reads the priority and the path of
every PCB in the two queues, also of one that has been freed; that is undefined. -/
def sysKillall (s : Os cfg) (procName : CString) : Option Sched :=
  if s.NoneFreed then some (s.sched.sysKillall procName) else none

/-- `killall` of `path` has an outcome, and kills the processes loaded from it and no other. -/
def KillsExactly (s : Os cfg) (path : CString) : Prop :=
  ∃ sched', s.sysKillall path = some sched' ∧ Sched.Killed cfg s.sched path sched'

/-- For every configuration, every state and every path: `killall` kills exactly the processes
loaded from the path if and only if it meets no freed PCB and the search finds them. -/
theorem killsExactly_iff (s : Os cfg) (path : CString) :
    s.KillsExactly path ↔ s.NoneFreed ∧ s.sched.FindsPath cfg path := by
  rw [← Sched.killed_iff]
  unfold KillsExactly sysKillall
  by_cases hfreed : s.NoneFreed
  · simp [hfreed]
  · simp [hfreed]

/-- A process of `PRIO 1`. -/
def secondLevel : Config where
  timeSlot := 1
  numCpus := 1
  ldProcesses := [⟨0, ascii "input/proc/p", 1⟩]
  program := fun _ => (1, [⟨.calc, 0, 0, 0, 0⟩])

/-- When the loader has added it, `killall` of its path takes it off `running_list` and leaves it in
its level. -/
theorem secondLevel_survives :
    ¬ ((init secondLevel).run (List.replicate 5 .loader)).KillsExactly (ascii "input/proc/p") := by
  rintro ⟨sched', hcall, hkilled⟩
  have hloaded : secondLevel.LoadedFrom (secondLevel.load 0 ⟨0, ascii "input/proc/p", 1⟩)
      (ascii "input/proc/p") := ⟨0, _, rfl, rfl, rfl⟩
  have hfreed : ((init secondLevel).run (List.replicate 5 .loader)).NoneFreed := by decide
  obtain rfl := Option.some.inj ((if_pos hfreed).symm.trans hcall)
  exact (hkilled.gone _ hloaded).2 ⟨1, by decide⟩ (by decide)

end Os
end MiniOs
