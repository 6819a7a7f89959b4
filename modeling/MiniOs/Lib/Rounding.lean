import Mathlib.Order.Bounds.Basic
import Mathlib.Algebra.Order.Ring.Nat
import Mathlib.Tactic.Ring

/-!
# Rounding — multiples of a block size

`roundUp d n` is the least multiple of `d` that is not below `n`.
-/

namespace MiniOs
namespace Lib

def roundUp (d n : ℕ) : ℕ := (n + (d - 1)) / d * d

theorem dvd_roundUp (d n : ℕ) : d ∣ roundUp d n := Nat.dvd_mul_left d _

theorem le_roundUp {d : ℕ} (hd : 0 < d) (n : ℕ) : n ≤ roundUp d n := by
  have hdiv := Nat.div_add_mod (n + (d - 1)) d
  have hmod := Nat.mod_lt (n + (d - 1)) hd
  rw [roundUp, Nat.mul_comm]
  omega

theorem roundUp_le {d m n : ℕ} (hd : 0 < d) (hm : d ∣ m) (h : n ≤ m) : roundUp d n ≤ m := by
  rcases hm with ⟨k, rfl⟩
  have hlt : (n + (d - 1)) / d < k + 1 := by
    rw [Nat.div_lt_iff_lt_mul hd]
    have hmul : (k + 1) * d = d * k + d := by ring
    omega
  rw [roundUp, Nat.mul_comm]
  exact Nat.mul_le_mul_left d (Nat.le_of_lt_succ hlt)

theorem isLeast_roundUp {d : ℕ} (hd : 0 < d) (n : ℕ) :
    IsLeast {m | d ∣ m ∧ n ≤ m} (roundUp d n) :=
  ⟨⟨dvd_roundUp d n, le_roundUp hd n⟩, fun _ hm => roundUp_le hd hm.1 hm.2⟩

/-- Rounding twice is rounding once. -/
theorem roundUp_roundUp {d : ℕ} (hd : 0 < d) (n : ℕ) : roundUp d (roundUp d n) = roundUp d n :=
  Nat.le_antisymm (roundUp_le hd (dvd_roundUp d n) (Nat.le_refl _)) (le_roundUp hd _)

end Lib
end MiniOs
