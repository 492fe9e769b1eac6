import Mathlib.Algebra.Order.Floor.Div
import Mathlib.Tactic.Ring
import Mathlib.GroupTheory.GroupAction.Ring

/-!
# Rounding a length up to whole units

`len ⌈/⌉ unit` is the number of units that hold `len`. The lemmas give its
bounds, and how it adds when the first part fills its units exactly.
-/
namespace SystemCore.Lib.CeilDiv

variable {unit len : Nat}

theorem le_mul_ceilDiv (hu : 0 < unit) (len : Nat) : len ≤ unit * (len ⌈/⌉ unit) :=
  (ceilDiv_le_iff_le_mul hu).mp le_rfl

theorem mul_ceilDiv_lt (hu : 0 < unit) (len : Nat) : unit * (len ⌈/⌉ unit) < len + unit := by
  rw [Nat.ceilDiv_eq_add_pred_div]
  have h := Nat.mul_div_le (len + unit - 1) unit
  omega

theorem ceilDiv_of_dvd (hu : 0 < unit) (h : unit ∣ len) : len ⌈/⌉ unit = len / unit := by
  obtain ⟨q, rfl⟩ := h
  rw [Nat.mul_div_cancel_left q hu]
  exact smul_ceilDiv hu q

theorem mul_ceilDiv_of_dvd (hu : 0 < unit) (h : unit ∣ len) : unit * (len ⌈/⌉ unit) = len := by
  rw [ceilDiv_of_dvd hu h, Nat.mul_div_cancel' h]

/-- A length whose units are all full is a multiple of the unit. -/
theorem dvd_of_ceilDiv_le (hu : 0 < unit) (h : len ⌈/⌉ unit ≤ len / unit) : unit ∣ len := by
  have h1 := le_mul_ceilDiv hu len
  have h2 := Nat.mul_le_mul_left unit h
  have h3 := Nat.mul_div_le len unit
  exact ⟨len / unit, by omega⟩

theorem ceilDiv_pos (hu : 0 < unit) (hl : 0 < len) : 0 < len ⌈/⌉ unit := by
  have h := le_mul_ceilDiv hu len
  rcases Nat.eq_zero_or_pos (len ⌈/⌉ unit) with h0 | h0
  · rw [h0] at h; omega
  · exact h0

theorem lt_ceilDiv_iff (hu : 0 < unit) (i : Nat) : i < len ⌈/⌉ unit ↔ unit * i < len := by
  have h := ceilDiv_le_iff_le_mul hu (b := len) (c := i)
  omega

/-- Whole units in front of a length add to its units. -/
theorem ceilDiv_mul_add (hu : 0 < unit) (q len : Nat) :
    (unit * q + len) ⌈/⌉ unit = q + len ⌈/⌉ unit := by
  rw [Nat.ceilDiv_eq_add_pred_div, Nat.ceilDiv_eq_add_pred_div,
    show unit * q + len + unit - 1 = len + unit - 1 + unit * q from by omega,
    Nat.add_mul_div_left _ _ hu, Nat.add_comm]

theorem div_le_ceilDiv (len unit : Nat) : len / unit ≤ len ⌈/⌉ unit := by
  rw [← Nat.floorDiv_eq_div]
  exact floorDiv_le_ceilDiv

end SystemCore.Lib.CeilDiv
