import Mathlib.Data.Int.Log
import Mathlib.Algebra.Order.Archimedean.Basic

/-!
# Rounding to a binary floating-point format

A format has a number of bits for the significand and a least exponent for its unit. A
value that is not negative is rounded to the nearest multiple of its unit, and of two that
are equally near to the even one. Overflow is not part of the format here: exponents have
no upper end.
-/
namespace SystemCore.Lib.Rounding

/-- The nearest integer, and the even one of two that are equally near. -/
def nearestEven (q : ℚ) : ℤ :=
  if q - ⌊q⌋ < 1 / 2 then ⌊q⌋
  else if 1 / 2 < q - ⌊q⌋ then ⌊q⌋ + 1
  else if ⌊q⌋ % 2 = 0 then ⌊q⌋ else ⌊q⌋ + 1

theorem nearestEven_cases (q : ℚ) :
    (nearestEven q = ⌊q⌋ ∧ q - ⌊q⌋ ≤ 1 / 2) ∨ (nearestEven q = ⌊q⌋ + 1 ∧ 1 / 2 ≤ q - ⌊q⌋) := by
  unfold nearestEven
  split_ifs with h1 h2 h3
  · exact Or.inl ⟨rfl, h1.le⟩
  · exact Or.inr ⟨rfl, h2.le⟩
  · exact Or.inl ⟨rfl, not_lt.mp h2⟩
  · exact Or.inr ⟨rfl, not_lt.mp h1⟩

variable {q : ℚ} {e e' : ℤ}

theorem nearestEven_le {z : ℤ} (h : q ≤ z) : nearestEven q ≤ z := by
  have hfloor : ⌊q⌋ ≤ z := by
    have := (Int.floor_le q).trans h
    exact_mod_cast this
  rcases nearestEven_cases q with ⟨heq, -⟩ | ⟨heq, hhalf⟩
  · rw [heq]
    exact hfloor
  · rw [heq, Int.add_one_le_iff]
    refine lt_of_le_of_ne hfloor fun hz => ?_
    rw [hz] at hhalf
    linarith

theorem le_nearestEven {z : ℤ} (h : (z : ℚ) ≤ q) : z ≤ nearestEven q := by
  have hfloor : z ≤ ⌊q⌋ := Int.le_floor.mpr h
  rcases nearestEven_cases q with ⟨heq, -⟩ | ⟨heq, -⟩ <;> omega

theorem nearestEven_intCast (z : ℤ) : nearestEven z = z :=
  le_antisymm (nearestEven_le le_rfl) (le_nearestEven le_rfl)

theorem sub_half_le_nearestEven (q : ℚ) : q - 1 / 2 ≤ nearestEven q := by
  rcases nearestEven_cases q with ⟨heq, h⟩ | ⟨heq, -⟩
  · rw [heq]
    linarith
  · have := Int.lt_floor_add_one q
    rw [heq]
    push_cast
    linarith

/-! ## Multiples of a power of two -/

theorem two_zpow_pos (e : ℤ) : (0 : ℚ) < 2 ^ e := zpow_pos two_pos e

def Multiple (e : ℤ) (q : ℚ) : Prop := ∃ a : ℤ, q = a * 2 ^ e

theorem zpow_split (h : e' ≤ e) : (2 : ℚ) ^ e = ((2 ^ (e - e').toNat : ℤ) : ℚ) * 2 ^ e' := by
  have he : e = ((e - e').toNat : ℤ) + e' := by omega
  conv_lhs => rw [he, zpow_add₀ two_ne_zero, zpow_natCast]
  push_cast
  rfl

theorem Multiple.mono (h : Multiple e q) (he : e' ≤ e) : Multiple e' q := by
  obtain ⟨a, rfl⟩ := h
  exact ⟨a * 2 ^ (e - e').toNat, by rw [zpow_split he]; push_cast; ring⟩

theorem multiple_intCast (z : ℤ) : Multiple 0 z := ⟨z, by simp⟩

theorem Multiple.intCast (h : Multiple 0 q) : ∃ z : ℤ, q = z := by
  obtain ⟨a, ha⟩ := h
  exact ⟨a, by simpa using ha⟩

theorem Multiple.mul_int (h : Multiple e q) (z : ℤ) : Multiple e (z * q) := by
  obtain ⟨a, rfl⟩ := h
  exact ⟨z * a, by push_cast; ring⟩

/-! ## Formats -/

structure Format where
  precision : ℕ
  least : ℤ

namespace Format

variable (F : Format)

/-- The exponent of the unit in the last place. -/
def unitExp (q : ℚ) : ℤ := max (Int.log 2 q + 1 - F.precision) F.least

/-- The value of the format next to `q`. -/
def round (q : ℚ) : ℚ := nearestEven (q / 2 ^ F.unitExp q) * 2 ^ F.unitExp q

structure Representable (q : ℚ) : Prop where
  nonneg : 0 ≤ q
  form : ∃ (a : ℤ) (e : ℤ), a < 2 ^ F.precision ∧ F.least ≤ e ∧ q = a * 2 ^ e

variable {F} {q y : ℚ} {e : ℤ}

theorem Representable.multiple (h : F.Representable y) : Multiple F.least y := by
  obtain ⟨a, e, -, he, rfl⟩ := h.form
  exact Multiple.mono ⟨a, rfl⟩ he

theorem unitExp_mono (hq : 0 < q) (h : q ≤ y) : F.unitExp q ≤ F.unitExp y :=
  max_le_max (by have := Int.log_mono_right (b := 2) hq h; omega) le_rfl

theorem round_multiple_unit (q : ℚ) : Multiple (F.unitExp q) (F.round q) := ⟨_, rfl⟩

theorem round_of_multiple (h : Multiple (F.unitExp q) q) : F.round q = q := by
  obtain ⟨a, ha⟩ := h
  have hpos := (two_zpow_pos (F.unitExp q)).ne'
  have hdiv : q / 2 ^ F.unitExp q = a := (div_eq_iff hpos).mpr ha
  rw [round, hdiv, nearestEven_intCast]
  exact ha.symm

/-- Rounding stays within the multiples of a power of two. -/
theorem round_multiple (h : Multiple e q) : Multiple e (F.round q) := by
  rcases le_total (F.unitExp q) e with hle | hle
  · rw [round_of_multiple (h.mono hle)]
    exact h
  · exact (round_multiple_unit q).mono hle

theorem round_le_of_multiple (h : q ≤ y) (hy : Multiple (F.unitExp q) y) : F.round q ≤ y := by
  obtain ⟨a, rfl⟩ := hy
  have hpos := two_zpow_pos (F.unitExp q)
  have hdiv : q / 2 ^ F.unitExp q ≤ a := (div_le_iff₀ hpos).mpr h
  have hle : (nearestEven (q / 2 ^ F.unitExp q) : ℚ) ≤ a := by exact_mod_cast nearestEven_le hdiv
  exact mul_le_mul_of_nonneg_right hle hpos.le

theorem le_round_of_multiple (h : y ≤ q) (hy : Multiple (F.unitExp q) y) : y ≤ F.round q := by
  obtain ⟨a, rfl⟩ := hy
  have hpos := two_zpow_pos (F.unitExp q)
  have hdiv : (a : ℚ) ≤ q / 2 ^ F.unitExp q := (le_div_iff₀ hpos).mpr h
  have hle : (a : ℚ) ≤ nearestEven (q / 2 ^ F.unitExp q) := by exact_mod_cast le_nearestEven hdiv
  exact mul_le_mul_of_nonneg_right hle hpos.le

theorem round_nonneg (h : 0 ≤ q) : 0 ≤ F.round q :=
  le_round_of_multiple h ⟨0, by simp⟩

/-- Rounding takes off half a unit of the last place at most. -/
theorem sub_le_round (q : ℚ) : q - 2 ^ (F.unitExp q - 1) ≤ F.round q := by
  have hpos := two_zpow_pos (F.unitExp q)
  have hhalf := mul_le_mul_of_nonneg_right (sub_half_le_nearestEven (q / 2 ^ F.unitExp q)) hpos.le
  rw [sub_mul, div_mul_cancel₀ _ hpos.ne'] at hhalf
  rw [zpow_sub_one₀ two_ne_zero]
  calc q - 2 ^ F.unitExp q * 2⁻¹ = q - 1 / 2 * 2 ^ F.unitExp q := by ring
    _ ≤ F.round q := hhalf

/-- The loss is small against the value, unless the value is below the least power of two
with a full significand. -/
theorem mul_le_round_of_normal (hq : 2 ^ (F.least + F.precision - 1) ≤ q) :
    q * (1 - 2 ^ (-F.precision : ℤ)) ≤ F.round q := by
  have hpos : 0 < q := (two_zpow_pos _).trans_le hq
  have hlog : F.least + F.precision - 1 ≤ Int.log 2 q :=
    (Int.zpow_le_iff_le_log (b := 2) (by decide) hpos).mp (by exact_mod_cast hq)
  have hexp : F.unitExp q = Int.log 2 q + 1 - F.precision := max_eq_left (by omega)
  have hsub := sub_le_round (F := F) q
  have hlow := Int.zpow_log_le_self (b := 2) (by decide) hpos
  have hunit : (2 : ℚ) ^ (F.unitExp q - 1) = 2 ^ Int.log 2 q * 2 ^ (-F.precision : ℤ) := by
    rw [← zpow_add₀ two_ne_zero, hexp]
    congr 1
    ring
  have := mul_le_mul_of_nonneg_right hlow (two_zpow_pos (-F.precision : ℤ)).le
  push_cast at this
  linarith

/-- Nothing is lost below it on multiples of the least unit. -/
theorem mul_le_round_of_multiple (hq : 0 ≤ q) (hmul : Multiple F.least q) :
    q * (1 - 2 ^ (-F.precision : ℤ)) ≤ F.round q := by
  by_cases hn : 2 ^ (F.least + F.precision - 1) ≤ q
  · exact mul_le_round_of_normal hn
  have hself : F.round q = q := by
    refine round_of_multiple ?_
    rcases hq.eq_or_lt with rfl | hpos
    · exact ⟨0, by simp⟩
    · have hlog : Int.log 2 q < F.least + F.precision - 1 :=
        (Int.lt_zpow_iff_log_lt (b := 2) (by decide) hpos).mp (by exact_mod_cast not_le.mp hn)
      have hexp : F.unitExp q = F.least := max_eq_right (by omega)
      exact hexp ▸ hmul
  have := two_zpow_pos (-F.precision : ℤ)
  nlinarith

end Format

end SystemCore.Lib.Rounding
