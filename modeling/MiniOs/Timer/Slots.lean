import MiniOs.Timer.Barrier

/-!
# Slots — the slot a device is in

A device at work is in the slot of its last return from `next_slot`; inside `next_slot` it is on its
way to the next one.  The slot of a device moves with its own calls of `next_slot` alone, and is the
one the clock shows while the device works.
-/

namespace MiniOs

/-- The slot in which the device works, or will work when `next_slot` returns. -/
def Device.slot (dev : Device) : Nat :=
  match dev.pc with
  | .entered | .asleep => dev.returned + 1
  | .working | .detached => dev.returned

namespace Timer

variable {n : Nat}

/-- Nothing but `_time++` moves the clock. -/
theorem step_time {s s' : Timer n} {a : Action n} (hstep : s.step a = some s') :
    s'.time = s.time ∨ s'.time = s.time + 1 := by
  cases step_section hstep with
  | tick _ => exact Or.inr rfl
  | nextSlot d _ => exact Or.inl (signalEvent_time _ d)
  | detachEvent d _ => exact Or.inl (signalEvent_time _ d)
  | wakeTimer d _ => exact Or.inl (signalEvent_time s d)
  | _ => exact Or.inl rfl

theorem step_time_le {s s' : Timer n} {a : Action n} (hstep : s.step a = some s') :
    s.time ≤ s'.time := by
  rcases step_time hstep with heq | heq
  · exact heq.ge
  · omega

/-- Only its own calls move a device to another slot, or detach it. -/
theorem step_slot {s s' : Timer n} {a : Action n} {d : Fin n} (hstep : s.step a = some s')
    (hnext : a ≠ .nextSlot d) (hdetach : a ≠ .detachEvent d) :
    (s'.devList d).slot = (s.devList d).slot ∧
      ((s'.devList d).pc = .detached ↔ (s.devList d).pc = .detached) := by
  have hmove := step_device hstep hnext hdetach
  generalize s'.devList d = dev at hmove ⊢
  cases hmove with
  | stay => exact ⟨rfl, Iff.rfl⟩
  | release =>
      -- waking up leaves it inside `next_slot`
      cases hpc : (s.devList d).pc <;> simp [Device.slot, wake, hpc]
  | sleep hpc => simp [Device.slot, hpc]
  | back hpc => simp [Device.slot, hpc]
  | wakeUp hpc => simp [Device.slot, hpc]

/-- `next_slot` moves its caller on by one, and nobody else. -/
theorem nextSlot_devList {s s' : Timer n} {d : Fin n} (hstep : s.nextSlot d = some s') :
    (s'.devList d).slot = (s.devList d).slot + 1 ∧ (s'.devList d).pc = .entered ∧
      s'.time = s.time := by
  simp only [nextSlot] at hstep
  split at hstep
  · rename_i hpc
    obtain rfl := Option.some.inj hstep
    refine ⟨?_, ?_, signalEvent_time _ d⟩
    · simp [Device.slot, setDev, hpc]
    · simp [setDev]
  · cases hstep

theorem Inv.time_eq_slot {s : Timer n} (h : s.Inv) {d : Fin n} (hpc : (s.devList d).pc = .working) :
    s.time = (s.devList d).slot := by
  have hcounts := h.countsSlots d (by simp [hpc])
  simp [Device.slot, hpc, hcounts.2 hpc]

/-- The clock is not ahead of a device that is not detached. -/
theorem Inv.time_le_slot {s : Timer n} (h : s.Inv) {d : Fin n}
    (hpc : (s.devList d).pc ≠ .detached) : s.time ≤ (s.devList d).slot := by
  have hcounts := h.countsSlots d hpc
  cases hdev : (s.devList d).pc with
  | working => exact (h.time_eq_slot hdev).le
  | entered =>
      simp only [Device.slot, hdev]
      rcases hcounts.1 with heq | heq <;> omega
  | asleep =>
      simp only [Device.slot, hdev]
      rcases hcounts.1 with heq | heq <;> omega
  | detached => exact absurd hdev hpc

/-- A device that is not detached is in the running slot or on its way out of it. -/
theorem Inv.slot_eq {s : Timer n} (h : s.Inv) {d : Fin n} (hpc : (s.devList d).pc ≠ .detached) :
    (s.devList d).slot = s.time ∨ (s.devList d).slot = s.time + 1 := by
  have hcounts := (h.countsSlots d hpc).1
  cases hdev : (s.devList d).pc with
  | working => exact Or.inl (h.time_eq_slot hdev).symm
  | entered | asleep =>
      simp only [Device.slot, hdev]
      omega
  | detached => exact absurd hdev hpc

/-! ## The tick -/

/-- The clock moves in one section. -/
theorem step_tick {s s' : Timer n} {a : Action n} (hstep : s.step a = some s')
    (htime : s'.time ≠ s.time) :
    s.pc = .tick ∧ s' = { s with pc := .release 0, time := s.time + 1 } := by
  cases step_section hstep with
  | tick hpc => exact ⟨hpc, rfl⟩
  | nextSlot d _ => exact absurd (signalEvent_time _ d) htime
  | detachEvent d _ => exact absurd (signalEvent_time _ d) htime
  | wakeTimer d _ => exact absurd (signalEvent_time s d) htime
  | _ => exact absurd rfl htime

/-- When the clock is about to move, every device is inside `next_slot` or detached. -/
theorem Inv.tick_device {s : Timer n} (h : s.Inv) (hpc : s.pc = .tick) (d : Fin n) :
    (s.devList d).pc = .detached ∨
      ((s.devList d).pc = .entered ∨ (s.devList d).pc = .asleep) ∧
        (s.devList d).slot = s.time + 1 := by
  have htimer := h.timer
  simp only [TimerOk, hpc] at htimer
  have hold := h.devices d
  have hdone := htimer.done d d.isLt
  revert hold hdone
  cases hdev : (s.devList d).pc with
  | working =>
      simp only [DeviceOk, hdev]
      rintro ⟨hdone, _⟩ (htrue | hdet)
      · rw [hdone] at htrue
        cases htrue
      · cases hdet
  | entered =>
      simp only [DeviceOk, ToRelease, hdev, hpc, Device.slot]
      rintro ⟨_, hcase⟩ hdone
      rw [or_iff_left (by simp)] at hdone
      rw [hdone] at hcase
      simp only [and_false, false_and, or_false, not_false_eq_true, and_true, true_and,
        Bool.true_eq_false] at hcase
      exact Or.inr ⟨Or.inl trivial, congrArg (· + 1) hcase⟩
  | asleep =>
      simp only [DeviceOk, ToRelease, hdev, hpc, Device.slot]
      rintro ⟨_, _, hcase⟩ _
      simp only [and_false, or_false, not_false_eq_true, and_true] at hcase
      exact Or.inr ⟨Or.inr trivial, congrArg (· + 1) hcase⟩
  | detached => exact fun _ _ => Or.inl rfl

end Timer
end MiniOs
