import MiniOs.Timer.Timer

/-!
# Barrier — the timer keeps all devices in lock step

The invariant ties each device's flags and program point to the clock and to the position of the
timer in its second loop (`DeviceOk`), and the timer's position in its first loop to the devices
it has passed (`Collected`).  Three facts follow for any number of devices: the numbers of
returns from `next_slot` differ from the clock by at most one, the clock stands still while a
device is at work, and somebody can always move.
-/

namespace MiniOs
namespace Timer

open Lib

variable {n : Nat}

/-! ## What the barrier promises -/

/-- A device that is not detached has returned from `next_slot` once for every slot, the running
one excepted if it is still inside; at work it is in the slot the clock shows. -/
def CountsSlots (s : Timer n) : Prop :=
  ∀ d, (s.devList d).pc ≠ .detached →
    ((s.devList d).returned = s.time ∨ (s.devList d).returned + 1 = s.time) ∧
    ((s.devList d).pc = .working → (s.devList d).returned = s.time)

/-- From a state in which a device is at work, the clock stands still as long as the device does
not call `next_slot` or `detach_event`, whatever the others do. -/
def HoldsTime (s : Timer n) : Prop :=
  ∀ d as t, (s.devList d).pc = .working → (∀ a ∈ as, a ≠ .nextSlot d ∧ a ≠ .detachEvent d) →
    runFn step s as = some t → t.time = s.time

/-- Some device is not detached or the timer runs, and no section of any thread can be
executed. -/
def Deadlocked (s : Timer n) : Prop :=
  ((∃ d, (s.devList d).pc ≠ .detached) ∨ s.pc ≠ .stopped) ∧
    s.timerRoutine = none ∧ ∀ d, s.nextSlot d = none ∧ s.resume d = none ∧ s.detachEvent d = none

/-! ## The invariant -/

/-- The timer is in its second loop and has not come to device `d`. -/
def ToRelease : TimerPc n → Fin n → Prop
  | .release i, d => i ≤ d.val
  | _, _ => False

/-- A device in slot `time`; `held` tells that the timer is about to release it. -/
def DeviceOk (time : Nat) (held : Prop) (dev : Device) : Prop :=
  match dev.pc with
  | .working => dev.done = false ∧ dev.fsh = false ∧ dev.returned = time ∧ ¬ held
  | .entered =>
      dev.fsh = false ∧
        -- before the tick; after the tick and not yet released; released
        (dev.done = true ∧ dev.returned = time ∧ ¬ held ∨
          dev.done = true ∧ dev.returned + 1 = time ∧ held ∨
          dev.done = false ∧ dev.returned + 1 = time ∧ ¬ held)
  | .asleep =>
      dev.fsh = false ∧ dev.done = true ∧
        (dev.returned = time ∧ ¬ held ∨ dev.returned + 1 = time ∧ held)
  | .detached => dev.fsh = true

/-- The first loop has passed the devices before position `i`. -/
structure Collected (devList : Fin n → Device) (fsh event i : Nat) : Prop where
  done : ∀ d : Fin n, d.val < i → (devList d).done = true ∨ (devList d).pc = .detached
  event_eq : event = i
  fsh_le : fsh ≤ event
  allFsh : fsh = event → ∀ d : Fin n, d.val < i → (devList d).pc = .detached

def AllDetached (s : Timer n) : Prop := ∀ d, (s.devList d).pc = .detached

/-- What the timer knows at each of its program points. -/
def TimerOk (s : Timer n) : Prop :=
  match s.pc with
  | .head => True
  | .collect i => i ≤ n ∧ Collected s.devList s.fsh s.event i
  | .asleep d =>
      Collected s.devList s.fsh s.event d ∧ (s.devList d).done = false ∧ (s.devList d).fsh = false
  | .tick => Collected s.devList s.fsh s.event n
  | .release _ | .check => s.fsh = s.event → s.AllDetached
  | .stopped => s.AllDetached

structure Inv (s : Timer n) : Prop where
  devices : ∀ d, DeviceOk s.time (ToRelease s.pc d) (s.devList d)
  timer : s.TimerOk
  stop : s.timerStop = true → s.AllDetached

theorem DeviceOk.fsh_iff {time : Nat} {held : Prop} {dev : Device} (h : DeviceOk time held dev) :
    dev.fsh = true ↔ dev.pc = .detached := by
  revert h
  cases hpc : dev.pc <;> simp only [DeviceOk, hpc] <;> intro h <;> simp [h]

/-- A device that is not held counts as released, whatever program point it has. -/
theorem deviceOk_congr {time : Nat} {held held' : Prop} {dev : Device} (h : held ↔ held') :
    DeviceOk time held dev ↔ DeviceOk time held' dev := by
  rw [propext h]

theorem inv_startTimer (n : Nat) : (startTimer n).Inv := by
  refine ⟨fun d => ?_, trivial, fun h => by simp [startTimer] at h⟩
  simp [startTimer, attachEvents_apply, DeviceOk, ToRelease]

/-! ## Steps of a device -/

/-- One device changes: it keeps `done` and its detachment, and a timer asleep on it stays
asleep for a reason. -/
theorem Inv.setDev {s : Timer n} (h : s.Inv) {d : Fin n} {dev : Device}
    (hdev : DeviceOk s.time (ToRelease s.pc d) dev)
    (hdone : (s.devList d).done = true → dev.done = true)
    (hdet : (s.devList d).pc = .detached → dev.pc = .detached)
    (hasleep : s.pc = .asleep d → dev.done = false ∧ dev.fsh = false) : (s.setDev d dev).Inv := by
  -- what the timer has noted about devices it passed stays true
  have hdetached : ∀ e, (s.devList e).pc = .detached → ((s.setDev d dev).devList e).pc =
      .detached := by
    intro e he
    by_cases hed : e = d
    · subst hed
      simpa [Timer.setDev] using hdet he
    · simpa [Timer.setDev, Function.update_of_ne hed] using he
  have hcollected : ∀ i, Collected s.devList s.fsh s.event i →
      Collected (s.setDev d dev).devList s.fsh s.event i := by
    intro i hi
    refine ⟨fun e he => ?_, hi.event_eq, hi.fsh_le,
      fun heq e he => hdetached e (hi.allFsh heq e he)⟩
    -- a passed device was done or detached, and the change keeps both
    rcases hi.done e he with hd | hd
    · by_cases hed : e = d
      · subst hed
        exact Or.inl (by simpa [Timer.setDev] using hdone hd)
      · exact Or.inl (by simpa [Timer.setDev, Function.update_of_ne hed] using hd)
    · exact Or.inr (hdetached e hd)
  refine ⟨fun e => ?_, ?_, fun hstop e => hdetached e (h.stop hstop e)⟩
  · by_cases hed : e = d
    · subst hed
      simpa [Timer.setDev] using hdev
    · simpa [Timer.setDev, Function.update_of_ne hed] using h.devices e
  · have htimer := h.timer
    have hpc' : (s.setDev d dev).pc = s.pc := rfl
    -- point by point, the note is about passed devices or about all of them
    cases hpc : s.pc with
    | head => simp [TimerOk, hpc', hpc]
    | collect i =>
        simp only [TimerOk, hpc', hpc] at htimer ⊢
        exact ⟨htimer.1, hcollected i htimer.2⟩
    | asleep e =>
        simp only [TimerOk, hpc', hpc] at htimer ⊢
        refine ⟨hcollected e htimer.1, ?_⟩
        by_cases hed : e = d
        · subst hed
          simpa [Timer.setDev] using hasleep hpc
        · simpa [Timer.setDev, Function.update_of_ne hed] using htimer.2
    | tick =>
        simp only [TimerOk, hpc', hpc] at htimer ⊢
        exact hcollected n htimer
    | release i =>
        simp only [TimerOk, hpc', hpc] at htimer ⊢
        exact fun heq e => hdetached e (htimer heq e)
    | check =>
        simp only [TimerOk, hpc', hpc] at htimer ⊢
        exact fun heq e => hdetached e (htimer heq e)
    | stopped =>
        simp only [TimerOk, hpc', hpc] at htimer ⊢
        exact fun e => hdetached e (htimer e)

/-- A wake-up of the timer, signalled or spurious. -/
theorem Inv.signalEvent {s : Timer n} (h : s.Inv) (d : Fin n) : (s.signalEvent d).Inv := by
  unfold Timer.signalEvent
  split
  · rename_i hpc
    have htimer := h.timer
    have hdevices := h.devices
    simp only [TimerOk, hpc] at htimer
    simp only [hpc] at hdevices
    exact ⟨hdevices, ⟨d.isLt.le, htimer.1⟩, h.stop⟩
  · exact h

theorem setDev_signalEvent (s : Timer n) (d : Fin n) (dev : Device) :
    (s.setDev d dev).signalEvent d = (s.signalEvent d).setDev d dev := by
  unfold Timer.signalEvent Timer.setDev
  split <;> rfl

theorem signalEvent_pc_ne (s : Timer n) (d : Fin n) : (s.signalEvent d).pc ≠ .asleep d := by
  unfold signalEvent
  split
  · simp
  · assumption

@[simp] theorem signalEvent_devList (s : Timer n) (d : Fin n) :
    (s.signalEvent d).devList = s.devList := by
  unfold signalEvent
  split <;> rfl

@[simp] theorem signalEvent_time (s : Timer n) (d : Fin n) : (s.signalEvent d).time = s.time := by
  unfold signalEvent
  split <;> rfl

/-- `next_slot` makes its caller done. -/
theorem Inv.nextSlot {s : Timer n} (h : s.Inv) {d : Fin n} (hpc : (s.devList d).pc = .working) :
    ((s.setDev d { s.devList d with done := true, pc := .entered }).signalEvent d).Inv := by
  have hold := (h.signalEvent d).devices d
  simp only [DeviceOk, signalEvent_devList, hpc] at hold
  -- after the signal the timer does not sleep on `d`, so `d` may become done
  rw [setDev_signalEvent]
  refine (h.signalEvent d).setDev ?_ (fun _ => rfl) (by simp [hpc])
    (fun hasleep => absurd hasleep (signalEvent_pc_ne s d))
  simp [DeviceOk, hold]

theorem Inv.detachEvent {s : Timer n} (h : s.Inv) (d : Fin n) :
    ((s.setDev d { s.devList d with fsh := true, pc := .detached }).signalEvent d).Inv := by
  -- likewise for `fsh`
  rw [setDev_signalEvent]
  exact (h.signalEvent d).setDev rfl (by simp) (fun _ => rfl)
    (fun hasleep => absurd hasleep (signalEvent_pc_ne s d))

/-- What a timer asleep on a device knows of its flags. -/
theorem Inv.asleep {s : Timer n} (h : s.Inv) {d : Fin n} (hpc : s.pc = .asleep d) :
    (s.devList d).done = false ∧ (s.devList d).fsh = false := by
  have htimer := h.timer
  simp only [TimerOk, hpc] at htimer
  exact htimer.2

/-- A device inside `next_slot` sleeps as long as it is done. -/
theorem Inv.sleep {s : Timer n} (h : s.Inv) {d : Fin n} (hpc : (s.devList d).pc = .entered)
    (hdone : (s.devList d).done = true) :
    (s.setDev d { s.devList d with pc := .asleep }).Inv := by
  have hold := h.devices d
  simp only [DeviceOk, hpc] at hold
  refine h.setDev ?_ id (by simp [hpc]) h.asleep
  simpa [DeviceOk, hdone] using hold

/-- `done` is false only after the release, so this return is the one for the last slot. -/
theorem Inv.back {s : Timer n} (h : s.Inv) {d : Fin n} (hpc : (s.devList d).pc = .entered)
    (hdone : (s.devList d).done = false) :
    (s.setDev d
      { s.devList d with pc := .working, returned := (s.devList d).returned + 1 }).Inv := by
  have hold := h.devices d
  simp only [DeviceOk, hpc, hdone] at hold
  refine h.setDev ?_ id (by simp [hpc]) h.asleep
  simpa [DeviceOk, hdone] using hold

theorem Inv.wakeDevice {s : Timer n} (h : s.Inv) {d : Fin n} (hpc : (s.devList d).pc = .asleep) :
    (s.setDev d { s.devList d with pc := .entered }).Inv := by
  have hold := h.devices d
  simp only [DeviceOk, hpc] at hold
  refine h.setDev ?_ id (by simp [hpc]) h.asleep
  rcases hold with ⟨hfsh, hdone, hret | hret⟩
  · simp [DeviceOk, hfsh, hdone, hret]
  · simp [DeviceOk, hfsh, hdone, hret]

/-! ## Steps of the timer -/

/-- The first loop passes a device that is done or detached. -/
theorem Inv.collect {s : Timer n} (h : s.Inv) {i : Nat} (hi : i < n) (hpc : s.pc = .collect i)
    (hready : (s.devList ⟨i, hi⟩).done = true ∨ (s.devList ⟨i, hi⟩).fsh = true) :
    ({ s with
      pc := .collect (i + 1)
      fsh := if (s.devList ⟨i, hi⟩).fsh then s.fsh + 1 else s.fsh
      event := s.event + 1 } : Timer n).Inv := by
  have htimer := h.timer
  have hdevices := h.devices
  simp only [TimerOk, hpc] at htimer
  simp only [hpc] at hdevices
  have hfsh := (h.devices ⟨i, hi⟩).fsh_iff
  -- `i` joins the devices that were passed
  rcases htimer with ⟨_, hdone, hevent, hle, hall⟩
  refine ⟨hdevices, ⟨hi, ⟨fun d hd => ?_, by simp [hevent], ?_, fun heq d hd => ?_⟩⟩, h.stop⟩
  · rcases Nat.lt_succ_iff_lt_or_eq.1 hd with hlt | heq
    · exact hdone d hlt
    · obtain rfl : d = ⟨i, hi⟩ := Fin.ext heq
      exact hready.imp_right hfsh.1
  · dsimp only
    split <;> omega
  · -- the counts stay equal only if every device so far, this one included, is detached
    by_cases hf : (s.devList ⟨i, hi⟩).fsh = true
    · simp only [hf, if_true] at heq
      rcases Nat.lt_succ_iff_lt_or_eq.1 hd with hlt | hd
      · exact hall (by omega) d hlt
      · obtain rfl : d = ⟨i, hi⟩ := Fin.ext hd
        exact hfsh.1 hf
    · simp only [hf] at heq
      simp at heq
      omega

/-- `_time++`: everybody is inside `next_slot` and waits, or is detached. -/
theorem Inv.tick {s : Timer n} (h : s.Inv) (hpc : s.pc = .tick) :
    ({ s with pc := .release 0, time := s.time + 1 } : Timer n).Inv := by
  have htimer := h.timer
  simp only [TimerOk, hpc] at htimer
  refine ⟨fun d => ?_, fun heq d => htimer.allFsh heq d d.isLt, h.stop⟩
  -- the first loop has passed every device, so each is done or detached
  have hold := h.devices d
  have hdone := htimer.done d d.isLt
  revert hold hdone
  cases hdev : (s.devList d).pc with
  | entered =>
      simp only [DeviceOk, ToRelease, hdev, hpc]
      rintro ⟨hfsh, hcase⟩ hdone
      simp only [reduceCtorEq, or_false] at hdone
      simp only [hdone] at hcase ⊢
      simpa [hfsh] using hcase
  | _ => simp +contextual [DeviceOk, ToRelease, hdev, hpc]

/-- The second loop releases device `i`. -/
theorem Inv.release {s : Timer n} (h : s.Inv) {i : Nat} (hi : i < n) (hpc : s.pc = .release i) :
    ({ s.setDev ⟨i, hi⟩ { s.devList ⟨i, hi⟩ with
        done := false
        pc := wake (s.devList ⟨i, hi⟩).pc } with pc := .release (i + 1) } : Timer n).Inv := by
  have htimer := h.timer
  simp only [TimerOk, hpc] at htimer
  have hdetached : ∀ d, (s.devList d).pc = .detached →
      ((s.setDev ⟨i, hi⟩ { s.devList ⟨i, hi⟩ with
        done := false
        pc := wake (s.devList ⟨i, hi⟩).pc }).devList d).pc = .detached := by
    intro d hd
    by_cases hdi : d = ⟨i, hi⟩
    · subst hdi
      simp [Timer.setDev, hd, wake]
    · simpa [Timer.setDev, Function.update_of_ne hdi] using hd
  refine ⟨fun d => ?_, fun heq d => hdetached d (htimer heq d),
    fun hstop d => hdetached d (h.stop hstop d)⟩
  -- device `i` is not held any more; for the others nothing changes
  have hold := h.devices d
  by_cases hdi : d = ⟨i, hi⟩
  · subst hdi
    revert hold
    cases hdev : (s.devList ⟨i, hi⟩).pc <;>
      simp +contextual [DeviceOk, ToRelease, Timer.setDev, hdev, hpc, wake]
  · have hne : i ≠ d.val := fun heq => hdi (Fin.ext heq.symm)
    have hheld : ToRelease s.pc d ↔ ToRelease (.release (i + 1)) d := by
      simp only [ToRelease, hpc]
      omega
    simpa [Timer.setDev, Function.update_of_ne hdi] using (deviceOk_congr hheld).1 hold

/-- At the end of the second loop no device is held. -/
theorem Inv.released {s : Timer n} (h : s.Inv) {i : Nat} (hi : n ≤ i) (hpc : s.pc = .release i) :
    ({ s with pc := .check } : Timer n).Inv := by
  have htimer := h.timer
  simp only [TimerOk, hpc] at htimer
  refine ⟨fun d => ?_, htimer, h.stop⟩
  have hlast : ¬ i ≤ d.val := by
    have := d.isLt
    omega
  have hheld : ToRelease s.pc d ↔ ToRelease .check d := by
    simp [ToRelease, hpc, hlast]
  exact (deviceOk_congr hheld).1 (h.devices d)

/-- Outside the second loop no device is held, so the timer may go on to a point for which it has
noted enough. -/
theorem Inv.setPc {s t : Timer n} (h : s.Inv) (hheld : ∀ d, ToRelease s.pc d ↔ ToRelease t.pc d)
    (hdev : t.devList = s.devList) (htime : t.time = s.time) (hstop : t.timerStop = s.timerStop)
    (htimer : t.TimerOk) : t.Inv := by
  refine ⟨fun d => ?_, htimer, fun ht d => ?_⟩
  · rw [hdev, htime]
    exact (deviceOk_congr (hheld d)).1 (h.devices d)
  · rw [hdev]
    exact h.stop (hstop ▸ ht) d

/-! ## Runs -/

/-- Step lemma, one case for each section. -/
theorem Inv.step {s s' : Timer n} {a : Action n} (h : s.Inv) (hstep : s.step a = some s') :
    s'.Inv := by
  have htimer := h.timer
  cases step_section hstep with
  | quit hpc hstop =>
      exact h.setPc (by simp [hpc, ToRelease]) rfl rfl rfl (h.stop hstop)
  | start hpc =>
      exact h.setPc (by simp [hpc, ToRelease]) rfl rfl rfl
        ⟨Nat.zero_le n, ⟨by simp, rfl, Nat.le_refl _, by simp⟩⟩
  | wait hi hpc hdone hfsh =>
      simp only [TimerOk, hpc] at htimer
      exact h.setPc (by simp [hpc, ToRelease]) rfl rfl rfl ⟨htimer.2, hdone, hfsh⟩
  | pass hi hpc hready => exact h.collect hi hpc hready
  | @passed i hi hpc =>
      simp only [TimerOk, hpc] at htimer
      obtain rfl : i = n := le_antisymm htimer.1 hi
      exact h.setPc (by simp [hpc, ToRelease]) rfl rfl rfl htimer.2
  | tick hpc => exact h.tick hpc
  | release hi hpc => exact h.release hi hpc
  | released hi hpc => exact h.released hi hpc
  | finish hpc heq =>
      simp only [TimerOk, hpc] at htimer
      exact h.setPc (by simp [hpc, ToRelease]) rfl rfl rfl (htimer heq)
  | again hpc => exact h.setPc (by simp [hpc, ToRelease]) rfl rfl rfl trivial
  | nextSlot d hpc => exact h.nextSlot hpc
  | sleep d hpc hdone => exact h.sleep hpc hdone
  | back d hpc hdone => exact h.back hpc hdone
  | detachEvent d hpc => exact h.detachEvent d
  | stopTimer hall => exact ⟨h.devices, h.timer, fun _ => hall⟩
  | wakeTimer d hpc => exact h.signalEvent d
  | wakeDevice d hpc => exact h.wakeDevice hpc

theorem Inv.countsSlots {s : Timer n} (h : s.Inv) : s.CountsSlots := by
  intro d hd
  have hold := h.devices d
  revert hd hold
  cases hdev : (s.devList d).pc <;> simp only [DeviceOk, hdev]
  · rintro _ ⟨_, _, hret, _⟩
    exact ⟨Or.inl hret, fun _ => hret⟩
  · rintro _ ⟨_, ⟨_, hret, _⟩ | ⟨_, hret, _⟩ | ⟨_, hret, _⟩⟩
    · exact ⟨Or.inl hret, by simp⟩
    · exact ⟨Or.inr hret, by simp⟩
    · exact ⟨Or.inr hret, by simp⟩
  · rintro _ ⟨_, _, ⟨hret, _⟩ | ⟨hret, _⟩⟩
    · exact ⟨Or.inl hret, by simp⟩
    · exact ⟨Or.inr hret, by simp⟩
  · intro hd
    exact absurd rfl hd

/-- What a step that is no call of its owner does to a device. -/
inductive DeviceMove (dev : Device) : Device → Prop
  | stay : DeviceMove dev dev
  | release : DeviceMove dev { dev with done := false, pc := wake dev.pc }
  | sleep (hpc : dev.pc = .entered) : DeviceMove dev { dev with pc := .asleep }
  | back (hpc : dev.pc = .entered) :
      DeviceMove dev { dev with pc := .working, returned := dev.returned + 1 }
  | wakeUp (hpc : dev.pc = .asleep) : DeviceMove dev { dev with pc := .entered }

theorem setDev_devList (s : Timer n) (e d : Fin n) (dev : Device) :
    (s.setDev e dev).devList d = if d = e then dev else s.devList d := by
  simp [setDev, Function.update_apply]

/-- Another device changes, or this one does. -/
theorem DeviceMove.setDev {s : Timer n} {e d : Fin n} {dev : Device}
    (h : d = e → DeviceMove (s.devList d) dev) :
    DeviceMove (s.devList d) ((s.setDev e dev).devList d) := by
  rw [setDev_devList]
  split
  · rename_i heq
    exact h heq
  · exact .stay

/-- The calls of other devices, the timer and the wake-ups, as device `d` sees them. -/
theorem step_device {s s' : Timer n} {a : Action n} {d : Fin n} (hstep : s.step a = some s')
    (hnext : a ≠ .nextSlot d) (hdetach : a ≠ .detachEvent d) :
    DeviceMove (s.devList d) (s'.devList d) := by
  cases step_section hstep with
  | release hi hpc =>
      -- the second loop releases this device or another one
      refine DeviceMove.setDev fun heq => ?_
      rw [← heq]
      exact .release
  | nextSlot e hpc =>
      rw [signalEvent_devList]
      exact DeviceMove.setDev fun heq => absurd rfl (heq ▸ hnext)
  | detachEvent e hpc =>
      rw [signalEvent_devList]
      exact DeviceMove.setDev fun heq => absurd rfl (heq ▸ hdetach)
  | sleep e hpc hdone =>
      refine DeviceMove.setDev fun heq => ?_
      subst heq
      exact .sleep hpc
  | back e hpc hdone =>
      refine DeviceMove.setDev fun heq => ?_
      subst heq
      exact .back hpc
  | wakeDevice e hpc =>
      refine DeviceMove.setDev fun heq => ?_
      subst heq
      exact .wakeUp hpc
  | wakeTimer e hpc =>
      rw [signalEvent_devList]
      exact .stay
  | _ => exact .stay

/-- A device at work stays at work, and has returned no more often, until it calls `next_slot` or
`detach_event` itself. -/
theorem working_step {s s' : Timer n} {a : Action n} {d : Fin n} (hstep : s.step a = some s')
    (hpc : (s.devList d).pc = .working) (hnext : a ≠ .nextSlot d) (hdetach : a ≠ .detachEvent d) :
    (s'.devList d).pc = .working ∧ (s'.devList d).returned = (s.devList d).returned := by
  have hmove := step_device hstep hnext hdetach
  generalize s'.devList d = dev at hmove ⊢
  -- the other moves are those of a device inside `next_slot`
  cases hmove with
  | stay => exact ⟨hpc, rfl⟩
  | release => simp [wake, hpc]
  | sleep hentered => simp [hpc] at hentered
  | back hentered => simp [hpc] at hentered
  | wakeUp hasleep => simp [hpc] at hasleep

/-- Run lemma for a device at work. -/
theorem working_run {s t : Timer n} {d : Fin n} {as : List (Action n)} (h : s.Inv)
    (hpc : (s.devList d).pc = .working)
    (hfree : ∀ a ∈ as, a ≠ .nextSlot d ∧ a ≠ .detachEvent d) (hrun : runFn step s as = some t) :
    t.Inv ∧ (t.devList d).pc = .working ∧ (t.devList d).returned = (s.devList d).returned := by
  -- induction on the actions; the invariant is carried along for `CountsSlots` at the end
  induction as generalizing s with
  | nil =>
      obtain rfl : s = t := by simpa [runFn] using hrun
      exact ⟨h, hpc, rfl⟩
  | cons a as ih =>
      rcases Option.bind_eq_some_iff.1 hrun with ⟨u, hstep, hrest⟩
      have ha := hfree a (List.mem_cons_self ..)
      rcases working_step hstep hpc ha.1 ha.2 with ⟨hpc', hret⟩
      rcases ih (h.step hstep) hpc' (fun b hb => hfree b (List.mem_cons_of_mem a hb)) hrest with
        ⟨hinv, hwork, hret'⟩
      exact ⟨hinv, hwork, hret'.trans hret⟩

theorem Inv.holdsTime {s : Timer n} (h : s.Inv) : s.HoldsTime := by
  intro d as t hpc hfree hrun
  rcases working_run h hpc hfree hrun with ⟨hinv, hwork, hret⟩
  -- at both ends the device is at work, so both clocks are its number of returns
  have hs := (h.countsSlots d (by simp [hpc])).2 hpc
  have ht := (hinv.countsSlots d (by simp [hwork])).2 hwork
  calc
    t.time = (t.devList d).returned := ht.symm
    _ = (s.devList d).returned := hret
    _ = s.time := hs

/-- A timer asleep on a device waits for somebody who can move. -/
theorem Inv.not_deadlocked {s : Timer n} (h : s.Inv) : ¬ s.Deadlocked := by
  rintro ⟨hlive, htimer, hdevs⟩
  cases hpc : s.pc with
  | asleep d =>
      rcases h.asleep hpc with ⟨hdone, hfsh⟩
      have hold := h.devices d
      -- the device is neither done nor detached, so it can move itself
      rcases hdevs d with ⟨hnext, hresume, _⟩
      cases hdev : (s.devList d).pc with
      | working => simp [Timer.nextSlot, hdev] at hnext
      | entered => simp [Timer.resume, hdev, hdone] at hresume
      | asleep => simp [DeviceOk, hdev, hdone] at hold
      | detached => simp [DeviceOk, hdev, hfsh] at hold
  | stopped =>
      have hall := h.timer
      simp only [TimerOk, hpc] at hall
      -- a stopped timer has seen all devices detached
      rcases hlive with ⟨d, hd⟩ | hrun
      · exact hd (hall d)
      · exact hrun hpc
  | head =>
      simp only [Timer.timerRoutine, hpc] at htimer
      split at htimer <;> cases htimer
  | collect i =>
      simp only [Timer.timerRoutine, hpc] at htimer
      split at htimer
      · split at htimer <;> cases htimer
      · cases htimer
  | tick => simp [Timer.timerRoutine, hpc] at htimer
  | release i =>
      simp only [Timer.timerRoutine, hpc] at htimer
      split at htimer <;> cases htimer
  | check =>
      simp only [Timer.timerRoutine, hpc] at htimer
      split at htimer <;> cases htimer

/-- For any number of devices and every interleaving of the locked sections, spurious wake-ups
included: in every state the devices are in lock step with the clock, the clock stands still for
a device at work, and there is no deadlock. -/
theorem lock_step (n : Nat) (as : List (Action n)) :
    AllStates (fun s => s.CountsSlots ∧ s.HoldsTime ∧ ¬ s.Deadlocked) (startTimer n)
      (traceFn step (startTimer n) as) := by
  rcases run_traceFn step (startTimer n) as with ⟨t, hrun⟩
  have hinv := hrun.allStates (I := Inv) (fun h hstep => h.step hstep) (inv_startTimer n)
  have hall : ∀ {s : Timer n}, s.Inv → s.CountsSlots ∧ s.HoldsTime ∧ ¬ s.Deadlocked :=
    fun h => ⟨h.countsSlots, h.holdsTime, h.not_deadlocked⟩
  exact ⟨hall hinv.1, fun x hx => hall (hinv.2 x hx)⟩

end Timer
end MiniOs
