import Mathlib.Logic.Function.Basic
import MiniOs.Lib.Run
import MiniOs.Sched.Queue

/-!
# Sched — the multi-level queue scheduler of `sched.c`

The build defines `MLQ_SCHED`, so `get_proc`, `put_proc` and `add_proc` work on
`mlq_ready_queue[MAX_PRIO]`; `ready_queue` and `run_queue` stay empty and are only read by
`queue_empty`.  Every critical section under `queue_lock` is one function here; `put_proc` and
`add_proc` are two sections each, one for `running_list` and one for the ready level.
-/

namespace MiniOs

/-- The static queues of `sched.c`. -/
structure Sched where
  readyQueue : QueueT Pcb
  runQueue : QueueT Pcb
  runningList : QueueT Pcb
  mlqReadyQueue : Fin maxPrio → QueueT Pcb

namespace Sched

def initScheduler : Sched where
  readyQueue := .nil
  runQueue := .nil
  runningList := .nil
  mlqReadyQueue := fun _ => .nil

/-- Entries of ready level `k`, oldest first. -/
def level (s : Sched) (k : Fin maxPrio) : List Pcb := (s.mlqReadyQueue k).proc

/-- `p` waits in some ready level. -/
def Waiting (s : Sched) (p : Pcb) : Prop := ∃ k, p ∈ s.level k

@[simp] theorem initScheduler_level (k : Fin maxPrio) : initScheduler.level k = [] := rfl

/-! ## get_proc -/

/-- The loop of `get_mlq_proc`, `for (prio = n - 1; prio >= 0; prio--)`: the first nonempty
level met on the way down. -/
def highestLevel (levels : Fin maxPrio → QueueT Pcb) : (n : Nat) → n ≤ maxPrio →
    Option (Fin maxPrio)
  | 0, _ => none
  | n + 1, h =>
      if (levels ⟨n, h⟩).empty then highestLevel levels n (Nat.le_of_succ_le h)
      else some ⟨n, h⟩

/-- The level that `get_proc` serves. -/
def servedLevel (s : Sched) : Option (Fin maxPrio) :=
  highestLevel s.mlqReadyQueue maxPrio (Nat.le_refl _)

/-- `none` is the `NULL` of an empty scheduler. -/
def getMlqProc (s : Sched) : Option (Pcb × Sched) :=
  match s.servedLevel with
  | none => none
  | some prio =>
      ((s.mlqReadyQueue prio).dequeue Pcb.priority).map fun (proc, q) =>
        (proc, { s with mlqReadyQueue := Function.update s.mlqReadyQueue prio q })

def getProc (s : Sched) : Option (Pcb × Sched) := s.getMlqProc

theorem highestLevel_eq_none_iff {levels : Fin maxPrio → QueueT Pcb} {n : Nat}
    {h : n ≤ maxPrio} :
    highestLevel levels n h = none ↔ ∀ k : Fin maxPrio, k.val < n → (levels k).proc = [] := by
  induction n with
  | zero => simp [highestLevel]
  | succ n ih =>
      -- the loop goes on below an empty level and stops at any other
      by_cases hempty : (levels ⟨n, h⟩).empty = true
      · simp only [highestLevel, hempty, if_true, ih]
        constructor
        · intro hall k hk
          rcases Nat.lt_succ_iff_lt_or_eq.1 hk with hlt | heq
          · exact hall k hlt
          · have : k = ⟨n, h⟩ := Fin.ext heq
            rw [this]
            exact QueueT.empty_iff.1 hempty
        · intro hall k hk
          exact hall k (Nat.lt_succ_of_lt hk)
      · simp only [highestLevel, hempty]
        -- it stops here, and the level has an entry
        constructor
        · intro hsome
          simp at hsome
        · intro hall
          exact absurd (QueueT.empty_iff.2 (hall ⟨n, h⟩ (Nat.lt_succ_self n))) hempty

theorem highestLevel_spec {levels : Fin maxPrio → QueueT Pcb} {n : Nat} {h : n ≤ maxPrio}
    {k : Fin maxPrio} (hk : highestLevel levels n h = some k) :
    (levels k).proc ≠ [] ∧ ∀ j : Fin maxPrio, k < j → j.val < n → (levels j).proc = [] := by
  induction n with
  | zero => simp [highestLevel] at hk
  | succ n ih =>
      by_cases hempty : (levels ⟨n, h⟩).empty = true
      · simp only [highestLevel, hempty, if_true] at hk
        rcases ih hk with ⟨hne, hall⟩
        refine ⟨hne, fun j hkj hj => ?_⟩
        rcases Nat.lt_succ_iff_lt_or_eq.1 hj with hlt | heq
        · exact hall j hkj hlt
        · have : j = ⟨n, h⟩ := Fin.ext heq
          rw [this]
          exact QueueT.empty_iff.1 hempty
      · -- the level it stops at has only those above it left to check
        simp only [highestLevel, hempty] at hk
        obtain rfl : (⟨n, h⟩ : Fin maxPrio) = k := by simpa using hk
        refine ⟨fun hnil => hempty (QueueT.empty_iff.2 hnil), fun j hkj hj => ?_⟩
        have hnj : n < j.val := hkj
        omega

/-- What a successful `get_proc` does: it serves the highest nonempty level `k`, from which it
takes the first entry of greatest default priority. -/
theorem getProc_spec {s s' : Sched} {p : Pcb} (h : s.getProc = some (p, s')) :
    ∃ k q pre post,
      s' = { s with mlqReadyQueue := Function.update s.mlqReadyQueue k q } ∧
      s.servedLevel = some k ∧ (s.mlqReadyQueue k).dequeue Pcb.priority = some (p, q) ∧
      s.level k = pre ++ p :: post ∧ q.proc = pre ++ post ∧
      ∀ j, k < j → s.level j = [] := by
  -- a level is served: the scheduler changes in that level alone
  unfold getProc getMlqProc at h
  split at h
  · cases h
  · rename_i k hk
    rcases Option.map_eq_some_iff.1 h with ⟨⟨p₁, q⟩, hdeq, heq⟩
    obtain ⟨rfl, rfl⟩ := Prod.mk.inj heq
    rcases QueueT.dequeue_spec hdeq with ⟨pre, post, hproc, hrest, _, _⟩
    exact ⟨k, q, pre, post, rfl, hk, hdeq, hproc, hrest,
      fun j hj => (highestLevel_spec hk).2 j hj j.isLt⟩

theorem getProc_eq_none_iff {s : Sched} : s.getProc = none ↔ ∀ k, s.level k = [] := by
  unfold getProc getMlqProc
  split
  · rename_i hnone
    simp only [true_iff]
    exact fun k => (highestLevel_eq_none_iff.1 hnone) k k.isLt
  · rename_i k hk
    have hne := (highestLevel_spec hk).1
    constructor
    · intro hmap
      exact absurd (QueueT.dequeue_eq_none_iff.1 (Option.map_eq_none_iff.1 hmap)) hne
    · intro hall
      exact absurd (hall k) hne

/-- The process returned was waiting. -/
theorem waiting_of_getProc {s : Sched} {r : Pcb × Sched} (h : s.getProc = some r) :
    s.Waiting r.1 := by
  rcases r with ⟨p, s'⟩
  rcases getProc_spec h with ⟨k, q, pre, post, _, _, _, hlevel, _⟩
  exact ⟨k, by simp [hlevel]⟩

/-! ## put_proc and add_proc -/

/-- `enqueue(&running_list, proc)`, the first section of `put_proc` and `add_proc`. -/
def enqueueRunning (s : Sched) (proc : Pcb) : Sched :=
  { s with runningList := s.runningList.enqueue proc }

/-- `enqueue(&mlq_ready_queue[proc->prio], proc)`.  The index is not checked: for
`prio >= MAX_PRIO` the C code writes behind the array (undefined), and no modelled queue
receives the process. -/
def enqueueLevel (s : Sched) (proc : Pcb) : Sched :=
  if h : proc.prio < maxPrio then
    let q := (s.mlqReadyQueue ⟨proc.prio, h⟩).enqueue proc
    { s with mlqReadyQueue := Function.update s.mlqReadyQueue ⟨proc.prio, h⟩ q }
  else
    s

def putMlqProc (s : Sched) (proc : Pcb) : Sched := s.enqueueLevel proc

def addMlqProc (s : Sched) (proc : Pcb) : Sched := s.enqueueLevel proc

def putProc (s : Sched) (proc : Pcb) : Sched := (s.enqueueRunning proc).putMlqProc proc

def addProc (s : Sched) (proc : Pcb) : Sched := (s.enqueueRunning proc).addMlqProc proc

@[simp] theorem enqueueRunning_level (s : Sched) (p : Pcb) (k : Fin maxPrio) :
    (s.enqueueRunning p).level k = s.level k := rfl

/-- The process gets a slot in its own level, if that level exists and is not full. -/
theorem enqueueLevel_level (s : Sched) (p : Pcb) (k : Fin maxPrio) :
    (s.enqueueLevel p).level k =
      if k.val = p.prio ∧ (s.level k).length < maxQueueSize then s.level k ++ [p]
      else s.level k := by
  -- only the level with the index `prio` can change, and only if it has room
  by_cases hk : k.val = p.prio
  · have hprio : p.prio < maxPrio := hk ▸ k.isLt
    obtain rfl : k = ⟨p.prio, hprio⟩ := Fin.ext hk
    simp only [enqueueLevel, hprio, dif_pos, level, Function.update_self, true_and]
    split
    · rename_i hlt
      exact QueueT.enqueue_proc_of_lt hlt
    · rename_i hfull
      rw [QueueT.enqueue_of_full (Nat.not_lt.1 hfull)]
  · simp only [enqueueLevel, hk, false_and, if_false]
    split
    · rename_i hprio
      have hne : k ≠ ⟨p.prio, hprio⟩ := fun heq => hk (congrArg Fin.val heq)
      simp [level, Function.update_of_ne hne]
    · rfl

theorem mem_enqueueLevel {s : Sched} {p x : Pcb} {k : Fin maxPrio}
    (h : x ∈ (s.enqueueLevel p).level k) :
    x ∈ s.level k ∨ (x = p ∧ k.val = p.prio) := by
  rw [enqueueLevel_level] at h
  split at h
  · rename_i hroom
    rcases List.mem_append.1 h with hx | hx
    · exact Or.inl hx
    · exact Or.inr ⟨List.mem_singleton.1 hx, hroom.1⟩
  · exact Or.inl h

/-! ## queue_empty -/

/-- `queue_empty` from its last `n` rounds on, `for (prio = MAX_PRIO - n; prio < MAX_PRIO; prio++)`.
The `int` is the one of the source: `-1` as soon as one ready level holds a process. -/
def emptyFrom (s : Sched) : (n : Nat) → n ≤ maxPrio → Int
  | 0, _ => if s.readyQueue.empty && s.runQueue.empty then 1 else 0
  | n + 1, h =>
      if (s.mlqReadyQueue ⟨maxPrio - (n + 1), Nat.sub_lt (by decide) n.succ_pos⟩).empty then
        emptyFrom s n (Nat.le_of_succ_le h)
      else -1

def queueEmpty (s : Sched) : Int := s.emptyFrom maxPrio (Nat.le_refl _)

/-! ## Sequences of calls -/

/-- A call of the scheduler interface. -/
inductive Call
  | addProc (p : Pcb)
  | putProc (p : Pcb)
  | getProc

/-- The scheduler after a call; `get_proc` on an empty scheduler changes nothing. -/
def call (s : Sched) : Call → Sched
  | .addProc p => s.addProc p
  | .putProc p => s.putProc p
  | .getProc =>
      match s.getProc with
      | none => s
      | some (_, s') => s'

/-- The scheduler after a sequence of calls. -/
def calls (s : Sched) (cs : List Call) : Sched := cs.foldl call s

/-- Every process waits in the level of its own `prio`. -/
def LevelsByPrio (s : Sched) : Prop := ∀ k, ∀ p ∈ s.level k, p.prio = k.val

theorem levelsByPrio_init : initScheduler.LevelsByPrio := by
  intro k p hp
  simp at hp

theorem enqueueLevel_levelsByPrio {s : Sched} {p : Pcb} (h : s.LevelsByPrio) :
    (s.enqueueLevel p).LevelsByPrio := by
  intro k x hx
  rcases mem_enqueueLevel hx with hx | ⟨rfl, hk⟩
  · exact h k x hx
  · exact hk.symm

/-- A level after `get_proc` only holds what it held before. -/
theorem mem_level_of_getProc {s s' : Sched} {p x : Pcb} {j : Fin maxPrio}
    (h : s.getProc = some (p, s')) (hx : x ∈ s'.level j) : x ∈ s.level j := by
  rcases getProc_spec h with ⟨k, q, pre, post, rfl, _, _, hlevel, hq, _⟩
  -- the served level loses an entry, the others stay
  by_cases hjk : j = k
  · subst hjk
    have hx' : x ∈ pre ++ post := by simpa [level, hq] using hx
    rw [hlevel]
    rcases List.mem_append.1 hx' with hx' | hx'
    · simp [hx']
    · simp [hx']
  · simpa [level, Function.update_of_ne hjk] using hx

theorem getProc_levelsByPrio {s s' : Sched} {p : Pcb} (h : s.LevelsByPrio)
    (hget : s.getProc = some (p, s')) : s'.LevelsByPrio :=
  fun k x hx => h k x (mem_level_of_getProc hget hx)

theorem call_levelsByPrio {s : Sched} {c : Call} (h : s.LevelsByPrio) :
    (s.call c).LevelsByPrio := by
  cases c with
  | addProc p => exact enqueueLevel_levelsByPrio (s := s.enqueueRunning p) h
  | putProc p => exact enqueueLevel_levelsByPrio (s := s.enqueueRunning p) h
  | getProc =>
      simp only [call]
      split
      · exact h
      · rename_i p s₁ hget
        exact getProc_levelsByPrio h hget

theorem calls_levelsByPrio {s : Sched} (h : s.LevelsByPrio) (cs : List Call) :
    (s.calls cs).LevelsByPrio := by
  -- induction on the calls, from any state that has the property
  induction cs generalizing s with
  | nil => exact h
  | cons c cs ih => exact ih (call_levelsByPrio h)

end Sched

end MiniOs
