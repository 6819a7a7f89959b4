import MiniOs.Lib.Count
import MiniOs.Timer.Slots

/-!
# Effort — how many sections a slot takes

The barrier is a scheduler as well: a thread that is through with its slot has to wait for the
others, so no thread can run away, whatever order the sections are executed in.  If every thread
makes at most `m` steps in a slot, all threads and the timer together make at most
`(m + 4) * n + 5` (`slotCost`), spurious wake-ups aside.  The potential `left` counts the sections
that the running slot still needs.
-/

namespace MiniOs

open Lib

variable {n : Nat}

/-- The sections of the timer before its next tick. -/
def TimerPc.left : TimerPc n → Nat
  | .tick | .stopped => 0
  -- each device may make the timer sleep once
  | .collect i => 2 * (n - i) + 1
  | .asleep d => 2 * (n - d.val)
  | .head => 2 * n + 2
  | .check => 2 * n + 3
  | .release i => (n - i) + (2 * n + 4)

/-- The steps of a device thread before it waits for the next tick; at work, it makes at most `work`
more.  A thread that has not yet come back for the running slot has all its `m` steps before it. -/
def Device.left (m time work : Nat) (dev : Device) : Nat :=
  match dev.pc with
  | .working => work
  | .entered => (if dev.returned < time then m + 1 else 0) + dev.done.toNat
  | .asleep => if dev.returned < time then m + 1 else 0
  | .detached => 0

namespace Timer

/-- All sections that the running slot still needs. -/
def left (m : Nat) (work : Fin n → Nat) (s : Timer n) : Nat :=
  s.pc.left + ∑ d, (s.devList d).left m s.time (work d)

/-- What a slot takes at most. -/
def slotCost (n m : Nat) : Nat := (m + 4) * n + 5

/-- Sections that a thread executes on its way; the calls of `next_slot` and `detach_event` count
as steps of their callers. -/
def own : Action n → Nat
  | .timerRoutine | .resume _ => 1
  | _ => 0

/-- Wake-ups without a signal. -/
def spurious : Action n → Nat
  | .wakeTimer _ | .wakeDevice _ => 1
  | _ => 0

theorem signalEvent_left (s : Timer n) (d : Fin n) :
    (s.signalEvent d).pc.left ≤ s.pc.left + 1 := by
  unfold signalEvent
  split
  · rename_i hpc
    simp only [hpc, TimerPc.left]
    omega
  · omega

/-- One device changes. -/
theorem left_setDev {m : Nat} {work work' : Fin n → Nat} {s : Timer n} {d : Fin n} {dev : Device}
    {a b : Nat} (hdev : dev.left m s.time (work' d) + a ≤ (s.devList d).left m s.time (work d) + b)
    (hwork : ∀ e, e ≠ d → work' e = work e) :
    (s.setDev d dev).left m work' + a ≤ s.left m work + b := by
  have hsum : ∑ e, ((s.setDev d dev).devList e).left m s.time (work' e) + a ≤
      ∑ e, (s.devList e).left m s.time (work e) + b := by
    refine sum_add_le d ?_ fun e he => ?_
    · rw [setDev_devList, if_pos rfl]
      exact hdev
    · rw [setDev_devList, if_neg he, hwork e he]
  have hpc : (s.setDev d dev).pc = s.pc := rfl
  have htime : (s.setDev d dev).time = s.time := rfl
  rw [left, left, hpc, htime]
  omega

/-- The timer moves on, and the devices stay as they are. -/
theorem left_setPc {m : Nat} {work : Fin n → Nat} {s t : Timer n} (hdev : t.devList = s.devList)
    (htime : t.time = s.time) (hpc : t.pc.left + 1 ≤ s.pc.left) :
    t.left m work + 1 ≤ s.left m work := by
  rw [left, left, hdev, htime]
  omega

theorem left_signalEvent (m : Nat) (work : Fin n → Nat) (s : Timer n) (d : Fin n) :
    (s.signalEvent d).left m work ≤ s.left m work + 1 := by
  have hpc := signalEvent_left s d
  rw [left, left, signalEvent_devList, signalEvent_time]
  omega

/-- The release of a device leaves it as much to do as it had. -/
theorem release_left (m time work : Nat) (dev : Device) :
    ({ dev with done := false, pc := wake dev.pc } : Device).left m time work ≤
      dev.left m time work := by
  cases hpc : dev.pc <;> simp [Device.left, wake, hpc]

/-- A tick gives every device the steps of a slot. -/
theorem tick_left (m time work : Nat) (dev : Device) :
    dev.left m (time + 1) work ≤ dev.left m time work + (m + 1) := by
  cases hpc : dev.pc with
  | working => simp [Device.left, hpc]
  | entered =>
      simp only [Device.left, hpc]
      split <;> split <;> omega
  | asleep =>
      simp only [Device.left, hpc]
      split <;> split <;> omega
  | detached => simp [Device.left, hpc]

/-- A section that leaves the clock alone, and is no call of a thread, uses up potential. -/
theorem Inv.section_left {s s' : Timer n} {a : Action n} {m : Nat} {work : Fin n → Nat} (h : s.Inv)
    (hstep : s.step a = some s') (hwork : ∀ d, work d ≤ m) (hnext : ∀ d, a ≠ .nextSlot d)
    (hdetach : ∀ d, a ≠ .detachEvent d) (htime : s'.time = s.time) :
    s'.left m work + own a ≤ s.left m work + spurious a := by
  have htimer := h.timer
  cases step_section hstep with
  | quit hpc _ => exact left_setPc rfl rfl (by simp [hpc, TimerPc.left])
  | start hpc => exact left_setPc rfl rfl (by simp [hpc, TimerPc.left])
  | @wait i hi hpc _ _ =>
      refine left_setPc rfl rfl ?_
      simp only [hpc, TimerPc.left]
      omega
  | @pass i hi hpc _ =>
      refine left_setPc rfl rfl ?_
      simp only [hpc, TimerPc.left]
      omega
  | passed _ hpc =>
      refine left_setPc rfl rfl ?_
      simp only [hpc, TimerPc.left]
      omega
  | tick _ => exact absurd htime (Nat.succ_ne_self _)
  | @release i hi hpc =>
      -- the device keeps what it has to do, and the timer has one device less to release
      let t := s.setDev ⟨i, hi⟩ { s.devList ⟨i, hi⟩ with
        done := false
        pc := wake (s.devList ⟨i, hi⟩).pc }
      have hdev : t.left m work + 0 ≤ s.left m work + 0 :=
        left_setDev (Nat.add_le_add_right (release_left m s.time _ _) 0) fun _ _ => rfl
      have hpcs : (TimerPc.release (i + 1) : TimerPc n).left + 1 ≤ t.pc.left := by
        have htpc : t.pc = .release i := hpc
        rw [htpc, TimerPc.left, TimerPc.left]
        omega
      have hmove : ({ t with pc := .release (i + 1) } : Timer n).left m work + 1 ≤ t.left m work :=
        left_setPc rfl rfl hpcs
      exact le_trans hmove hdev
  | released hi hpc =>
      refine left_setPc rfl rfl ?_
      simp only [hpc, TimerPc.left]
      omega
  | finish hpc _ => exact left_setPc rfl rfl (by simp [hpc, TimerPc.left])
  | again hpc => exact left_setPc rfl rfl (by simp [hpc, TimerPc.left])
  | nextSlot d _ => exact absurd rfl (hnext d)
  | detachEvent d _ => exact absurd rfl (hdetach d)
  | sleep d hpc hdone =>
      refine left_setDev (a := 1) (b := 0) ?_ fun _ _ => rfl
      simp only [Device.left, hpc, hdone, Bool.toNat_true, Nat.add_zero, le_refl]
  | back d hpc hdone =>
      refine left_setDev (a := 1) (b := 0) ?_ fun _ _ => rfl
      -- it comes back for the running slot
      have hold := h.devices d
      simp only [DeviceOk, hpc, hdone] at hold
      have hret : (s.devList d).returned < s.time := by
        rcases hold.2 with hcase | hcase | hcase
        · exact absurd hcase.1 (by simp)
        · exact absurd hcase.1 (by simp)
        · exact hcase.2.1.le
      have hd := hwork d
      simp only [Device.left, hpc, if_pos hret]
      omega
  | stopTimer _ => exact Nat.le_refl _
  | wakeTimer d _ => exact left_signalEvent m work s d
  | wakeDevice d hpc =>
      refine left_setDev (a := 0) (b := 1) ?_ fun _ _ => rfl
      simp only [Device.left, hpc]
      exact Nat.add_le_add_left (Bool.toNat_le _) _

/-- Step lemma for the sections of the timer and inside `next_slot`. -/
theorem Inv.step_left {s s' : Timer n} {a : Action n} {m : Nat} {work : Fin n → Nat} (h : s.Inv)
    (hstep : s.step a = some s') (hwork : ∀ d, work d ≤ m) (hnext : ∀ d, a ≠ .nextSlot d)
    (hdetach : ∀ d, a ≠ .detachEvent d) :
    s'.left m work + own a + slotCost n m * s.time ≤
      s.left m work + spurious a + slotCost n m * s'.time := by
  by_cases htime : s'.time = s.time
  · have hsection := h.section_left hstep hwork hnext hdetach htime
    rw [htime]
    omega
  · rcases step_tick hstep htime with ⟨hpc, rfl⟩
    have hown : own a ≤ 1 := by
      cases a <;> simp [own]
    have hsum : ∑ d, (s.devList d).left m (s.time + 1) (work d) ≤
        ∑ d, (s.devList d).left m s.time (work d) + n * (m + 1) := by
      calc
        ∑ d, (s.devList d).left m (s.time + 1) (work d)
            ≤ ∑ d, ((s.devList d).left m s.time (work d) + (m + 1)) :=
          Finset.sum_le_sum fun d _ => tick_left m s.time (work d) _
        _ = ∑ d, (s.devList d).left m s.time (work d) + n * (m + 1) := by
          rw [Finset.sum_add_distrib]
          simp
    have hcost : slotCost n m = n * (m + 1) + (3 * n + 5) := by
      rw [slotCost]
      ring
    rw [left, left, Nat.mul_add, hcost]
    simp only [hpc, TimerPc.left]
    omega

/-- A thread calls `next_slot` with at least three steps left. -/
theorem nextSlot_left {s s' : Timer n} {m : Nat} {work work' : Fin n → Nat} {d : Fin n}
    (h : s.Inv) (hstep : s.nextSlot d = some s') (hwork : 3 ≤ work d)
    (hothers : ∀ e, e ≠ d → work' e = work e) : s'.left m work' + 1 ≤ s.left m work := by
  simp only [nextSlot] at hstep
  split at hstep
  · rename_i hpc
    obtain rfl := Option.some.inj hstep
    have htime := h.time_eq_slot hpc
    simp only [Device.slot, hpc] at htime
    -- it is on its way to the next slot
    have hdev : (s.setDev d { s.devList d with done := true, pc := .entered }).left m work' + 2 ≤
        s.left m work + 0 := by
      refine left_setDev ?_ hothers
      have hlate : ¬ (s.devList d).returned < s.time := by omega
      simp only [Device.left, hpc, if_neg hlate, Bool.toNat_true]
      omega
    exact le_trans (Nat.add_le_add_right (left_signalEvent m work' _ d) 1) hdev
  · cases hstep

theorem detachEvent_left {s s' : Timer n} {m : Nat} {work work' : Fin n → Nat} {d : Fin n}
    (hstep : s.detachEvent d = some s') (hwork : 2 ≤ work d)
    (hothers : ∀ e, e ≠ d → work' e = work e) : s'.left m work' + 1 ≤ s.left m work := by
  simp only [detachEvent] at hstep
  split at hstep
  · rename_i hpc
    obtain rfl := Option.some.inj hstep
    have hdev : (s.setDev d { s.devList d with fsh := true, pc := .detached }).left m work' + 2 ≤
        s.left m work + 0 := by
      refine left_setDev ?_ hothers
      simp only [Device.left, hpc]
      omega
    exact le_trans (Nat.add_le_add_right (left_signalEvent m work' _ d) 1) hdev
  · cases hstep

/-- A thread at work makes a step of its own. -/
theorem work_left {s : Timer n} {m : Nat} {work work' : Fin n → Nat} {d : Fin n}
    (hpc : (s.devList d).pc = .working) (hwork : work' d + 1 ≤ work d)
    (hothers : ∀ e, e ≠ d → work' e = work e) : s.left m work' + 1 ≤ s.left m work := by
  have hself : s.setDev d (s.devList d) = s := by simp [setDev]
  have hdev : (s.setDev d (s.devList d)).left m work' + 1 ≤ s.left m work + 0 := by
    refine left_setDev ?_ hothers
    simp only [Device.left, hpc]
    exact hwork
  rwa [hself] at hdev

end Timer
end MiniOs
