import Mathlib.Data.Fin.Tuple.Basic
import MiniOs.Common
import MiniOs.Lib.Run

/-!
# Timer — the clock thread and its devices (`timer.c`)

Every CPU and the loader is a *device* of the timer: it calls `next_slot` when its work for the
current slot is over and `detach_event` when it leaves.  A section under `event_lock` or
`timer_lock` is one step.  `pthread_cond_wait` puts its thread to sleep, `pthread_cond_signal`
wakes the one thread that can sleep on that variable, and a woken thread takes the lock and makes
its test again; spurious wake-ups are steps as well.
-/

namespace MiniOs

/-! ## State -/

/-- Program points of a device thread. -/
inductive DevicePc
  /-- at work in a slot, outside `next_slot` -/
  | working
  /-- in `next_slot`, before the test `while (timer_id->done)` -/
  | entered
  /-- in `next_slot`, asleep on `timer_cond` -/
  | asleep
  /-- after `detach_event` -/
  | detached
  deriving DecidableEq

/-- A `timer_id_t` with the thread that owns it; `returned` counts its returns from
`next_slot`. -/
structure Device where
  done : Bool
  fsh : Bool
  pc : DevicePc
  returned : Nat

/-- Program points of `timer_routine` over a list of `n` devices; a number `i` is the position
that `temp` has reached, `n` its end. -/
inductive TimerPc (n : Nat)
  /-- head of `while (!timer_stop)` -/
  | head
  /-- first loop, at the test `while (!temp->id.done && !temp->id.fsh)` -/
  | collect (i : Nat)
  /-- first loop, asleep on `event_cond` of a device -/
  | asleep (d : Fin n)
  /-- `_time++` -/
  | tick
  /-- second loop -/
  | release (i : Nat)
  /-- `if (fsh == event) break` -/
  | check
  | stopped
  deriving DecidableEq

/-- The static variables of `timer.c`, and `fsh` and `event` of `timer_routine`. -/
structure Timer (n : Nat) where
  devList : Fin n → Device
  time : Nat
  timerStop : Bool
  pc : TimerPc n
  fsh : Nat
  event : Nat

/-- `attach_event` before `start_timer`: a fresh container at the front of the list. -/
def attachEvent {n : Nat} (devList : Fin n → Device) : Fin (n + 1) → Device :=
  Fin.cons ⟨false, false, .working, 0⟩ devList

/-- The list after `n` calls of `attach_event`. -/
def attachEvents : (n : Nat) → Fin n → Device
  | 0 => Fin.elim0
  | n + 1 => attachEvent (attachEvents n)

/-- `start_timer` after `n` calls of `attach_event`. -/
def startTimer (n : Nat) : Timer n where
  devList := attachEvents n
  time := 0
  timerStop := false
  pc := .head
  fsh := 0
  event := 0

theorem attachEvents_apply (n : Nat) (d : Fin n) :
    attachEvents n d = ⟨false, false, .working, 0⟩ := by
  induction n with
  | zero => exact d.elim0
  | succ n ih =>
      refine Fin.cases ?_ (fun d => ?_) d
      · rfl
      · simpa [attachEvents, attachEvent] using ih d

/-! ## Steps -/

namespace Timer

variable {n : Nat}

def setDev (s : Timer n) (d : Fin n) (dev : Device) : Timer n :=
  { s with devList := Function.update s.devList d dev }

/-- `pthread_cond_signal(&timer_id->event_cond)`: the timer makes its test again. -/
def signalEvent (s : Timer n) (d : Fin n) : Timer n :=
  if s.pc = .asleep d then { s with pc := .collect d } else s

/-- `pthread_cond_signal(&temp->id.timer_cond)`: the device makes its test again. -/
def wake : DevicePc → DevicePc
  | .asleep => .entered
  | pc => pc

/-- One step of `timer_routine`; `none` while it sleeps and after it has ended. -/
def timerRoutine (s : Timer n) : Option (Timer n) :=
  match s.pc with
  | .head =>
      if s.timerStop then some { s with pc := .stopped }
      -- int fsh = 0; int event = 0; temp = dev_list
      else some { s with pc := .collect 0, fsh := 0, event := 0 }
  | .collect i =>
      if h : i < n then
        let dev := s.devList ⟨i, h⟩
        -- pthread_cond_wait(&temp->id.event_cond, ..)
        if !dev.done && !dev.fsh then some { s with pc := .asleep ⟨i, h⟩ }
        else
          let fsh := if dev.fsh then s.fsh + 1 else s.fsh
          some { s with pc := .collect (i + 1), fsh := fsh, event := s.event + 1 }
      else some { s with pc := .tick }
  | .asleep _ => none
  | .tick => some { s with pc := .release 0, time := s.time + 1 }
  | .release i =>
      if h : i < n then
        let dev := s.devList ⟨i, h⟩
        -- temp->id.done = 0; pthread_cond_signal(&temp->id.timer_cond)
        some { s.setDev ⟨i, h⟩ { dev with done := false, pc := wake dev.pc } with
          pc := .release (i + 1) }
      else some { s with pc := .check }
  | .check =>
      -- all devices were detached when the first loop passed them
      if s.fsh = s.event then some { s with pc := .stopped } else some { s with pc := .head }
  | .stopped => none

/-- `next_slot`, the section under `event_lock`. -/
def nextSlot (s : Timer n) (d : Fin n) : Option (Timer n) :=
  let dev := s.devList d
  match dev.pc with
  | .working => some ((s.setDev d { dev with done := true, pc := .entered }).signalEvent d)
  | _ => none

/-- `next_slot`, the section under `timer_lock`: sleep while `done`, else return. -/
def resume (s : Timer n) (d : Fin n) : Option (Timer n) :=
  let dev := s.devList d
  match dev.pc with
  | .entered =>
      -- while (timer_id->done) pthread_cond_wait(&timer_id->timer_cond, ..)
      if dev.done then some (s.setDev d { dev with pc := .asleep })
      else some (s.setDev d { dev with pc := .working, returned := dev.returned + 1 })
  | _ => none

def detachEvent (s : Timer n) (d : Fin n) : Option (Timer n) :=
  let dev := s.devList d
  match dev.pc with
  | .working => some ((s.setDev d { dev with fsh := true, pc := .detached }).signalEvent d)
  | _ => none

/-- `timer_stop = 1` in `stop_timer`, which `main` calls when all threads have ended. -/
def stopTimer (s : Timer n) : Option (Timer n) :=
  if ∀ d, (s.devList d).pc = .detached then some { s with timerStop := true } else none

/-- The threads' sections, the call of `stop_timer`, and spurious wake-ups. -/
inductive Action (n : Nat)
  | timerRoutine
  | nextSlot (d : Fin n)
  | resume (d : Fin n)
  | detachEvent (d : Fin n)
  | stopTimer
  | wakeTimer (d : Fin n)
  | wakeDevice (d : Fin n)
  deriving DecidableEq

def step (s : Timer n) : Action n → Option (Timer n)
  | .timerRoutine => s.timerRoutine
  | .nextSlot d => s.nextSlot d
  | .resume d => s.resume d
  | .detachEvent d => s.detachEvent d
  | .stopTimer => s.stopTimer
  | .wakeTimer d => if s.pc = .asleep d then some (s.signalEvent d) else none
  | .wakeDevice d =>
      let dev := s.devList d
      if dev.pc = .asleep then some (s.setDev d { dev with pc := .entered }) else none

/-! ## What a section does -/

/-- The sections of the threads, each with its guard and all that it changes. -/
inductive Section (s : Timer n) : Action n → Timer n → Prop
  | quit (hpc : s.pc = .head) (hstop : s.timerStop = true) :
      Section s .timerRoutine { s with pc := .stopped }
  | start (hpc : s.pc = .head) :
      Section s .timerRoutine { s with pc := .collect 0, fsh := 0, event := 0 }
  | wait {i : Nat} (hi : i < n) (hpc : s.pc = .collect i)
      (hdone : (s.devList ⟨i, hi⟩).done = false) (hfsh : (s.devList ⟨i, hi⟩).fsh = false) :
      Section s .timerRoutine { s with pc := .asleep ⟨i, hi⟩ }
  | pass {i : Nat} (hi : i < n) (hpc : s.pc = .collect i)
      (hready : (s.devList ⟨i, hi⟩).done = true ∨ (s.devList ⟨i, hi⟩).fsh = true) :
      Section s .timerRoutine { s with
        pc := .collect (i + 1)
        fsh := if (s.devList ⟨i, hi⟩).fsh then s.fsh + 1 else s.fsh
        event := s.event + 1 }
  | passed {i : Nat} (hi : n ≤ i) (hpc : s.pc = .collect i) :
      Section s .timerRoutine { s with pc := .tick }
  | tick (hpc : s.pc = .tick) :
      Section s .timerRoutine { s with pc := .release 0, time := s.time + 1 }
  | release {i : Nat} (hi : i < n) (hpc : s.pc = .release i) :
      Section s .timerRoutine { s.setDev ⟨i, hi⟩ { s.devList ⟨i, hi⟩ with
        done := false
        pc := wake (s.devList ⟨i, hi⟩).pc } with pc := .release (i + 1) }
  | released {i : Nat} (hi : n ≤ i) (hpc : s.pc = .release i) :
      Section s .timerRoutine { s with pc := .check }
  | finish (hpc : s.pc = .check) (heq : s.fsh = s.event) :
      Section s .timerRoutine { s with pc := .stopped }
  | again (hpc : s.pc = .check) : Section s .timerRoutine { s with pc := .head }
  | nextSlot (d : Fin n) (hpc : (s.devList d).pc = .working) :
      Section s (.nextSlot d)
        ((s.setDev d { s.devList d with done := true, pc := .entered }).signalEvent d)
  | sleep (d : Fin n) (hpc : (s.devList d).pc = .entered) (hdone : (s.devList d).done = true) :
      Section s (.resume d) (s.setDev d { s.devList d with pc := .asleep })
  | back (d : Fin n) (hpc : (s.devList d).pc = .entered) (hdone : (s.devList d).done = false) :
      Section s (.resume d)
        (s.setDev d { s.devList d with pc := .working, returned := (s.devList d).returned + 1 })
  | detachEvent (d : Fin n) (hpc : (s.devList d).pc = .working) :
      Section s (.detachEvent d)
        ((s.setDev d { s.devList d with fsh := true, pc := .detached }).signalEvent d)
  | stopTimer (hall : ∀ d, (s.devList d).pc = .detached) :
      Section s .stopTimer { s with timerStop := true }
  | wakeTimer (d : Fin n) (hpc : s.pc = .asleep d) : Section s (.wakeTimer d) (s.signalEvent d)
  | wakeDevice (d : Fin n) (hpc : (s.devList d).pc = .asleep) :
      Section s (.wakeDevice d) (s.setDev d { s.devList d with pc := .entered })

theorem timerRoutine_section {s s' : Timer n} (h : s.timerRoutine = some s') :
    Section s .timerRoutine s' := by
  cases hpc : s.pc with
  | head =>
      simp only [timerRoutine, hpc] at h
      split at h
      · rename_i hstop
        obtain rfl := Option.some.inj h
        exact .quit hpc hstop
      · obtain rfl := Option.some.inj h
        exact .start hpc
  | collect i =>
      simp only [timerRoutine, hpc] at h
      split at h
      · rename_i hi
        split at h
        · rename_i hwait
          obtain rfl := Option.some.inj h
          simp only [Bool.and_eq_true, Bool.not_eq_true'] at hwait
          exact .wait hi hpc hwait.1 hwait.2
        · rename_i hready
          obtain rfl := Option.some.inj h
          simp only [Bool.and_eq_true, Bool.not_eq_true', not_and_or, Bool.not_eq_false] at hready
          exact .pass hi hpc hready
      · rename_i hi
        obtain rfl := Option.some.inj h
        exact .passed (not_lt.1 hi) hpc
  | asleep d => simp [timerRoutine, hpc] at h
  | tick =>
      simp only [timerRoutine, hpc] at h
      obtain rfl := Option.some.inj h
      exact .tick hpc
  | release i =>
      simp only [timerRoutine, hpc] at h
      split at h
      · rename_i hi
        obtain rfl := Option.some.inj h
        exact .release hi hpc
      · rename_i hi
        obtain rfl := Option.some.inj h
        exact .released (not_lt.1 hi) hpc
  | check =>
      simp only [timerRoutine, hpc] at h
      split at h
      · rename_i heq
        obtain rfl := Option.some.inj h
        exact .finish hpc heq
      · obtain rfl := Option.some.inj h
        exact .again hpc
  | stopped => simp [timerRoutine, hpc] at h

/-- Every step is one of them. -/
theorem step_section {s s' : Timer n} {a : Action n} (h : s.step a = some s') :
    Section s a s' := by
  cases a with
  | timerRoutine => exact timerRoutine_section h
  | nextSlot d =>
      simp only [step, nextSlot] at h
      split at h
      · rename_i hpc
        obtain rfl := Option.some.inj h
        exact .nextSlot d hpc
      · cases h
  | resume d =>
      simp only [step, resume] at h
      split at h
      · rename_i hpc
        split at h
        · rename_i hdone
          obtain rfl := Option.some.inj h
          exact .sleep d hpc hdone
        · rename_i hdone
          obtain rfl := Option.some.inj h
          exact .back d hpc (by simpa using hdone)
      · cases h
  | detachEvent d =>
      simp only [step, detachEvent] at h
      split at h
      · rename_i hpc
        obtain rfl := Option.some.inj h
        exact .detachEvent d hpc
      · cases h
  | stopTimer =>
      simp only [step, stopTimer] at h
      split at h
      · rename_i hall
        obtain rfl := Option.some.inj h
        exact .stopTimer hall
      · cases h
  | wakeTimer d =>
      simp only [step] at h
      split at h
      · rename_i hpc
        obtain rfl := Option.some.inj h
        exact .wakeTimer d hpc
      · cases h
  | wakeDevice d =>
      simp only [step] at h
      split at h
      · rename_i hpc
        obtain rfl := Option.some.inj h
        exact .wakeDevice d hpc
      · cases h

end Timer
end MiniOs
