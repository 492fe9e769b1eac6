import Mathlib.Data.Nat.Bitwise
import Mathlib.Data.Nat.Size

/-!
# Masks on natural numbers

A mask of adjacent bits splits a number by division and remainder. A number that is or-ed with
its own shifts, each twice as far as the one before, has all bits below its highest one set.
-/
namespace SystemCore.Lib

theorem and_two_pow_mul (x k m : Nat) : x &&& 2 ^ k * m = 2 ^ k * (x / 2 ^ k &&& m) := by
  apply Nat.eq_of_testBit_eq
  intro i
  simp only [Nat.testBit_and, Nat.testBit_two_pow_mul, Nat.testBit_div_two_pow]
  by_cases hi : k ≤ i
  · simp [hi]
  · simp [hi]

/-- Every bit that has a bit of `x` on it or less than `m` places above it. -/
def Spread (x m y : Nat) : Prop := ∀ i, y.testBit i = true ↔ ∃ j < m, x.testBit (i + j) = true

theorem spread_one (x : Nat) : Spread x 1 x := by
  intro i
  constructor
  · exact fun h => ⟨0, Nat.one_pos, h⟩
  · rintro ⟨j, hj, h⟩
    obtain rfl : j = 0 := by omega
    exact h

variable {x m y : Nat}

theorem Spread.double (h : Spread x m y) : Spread x (2 * m) (y ||| y >>> m) := by
  intro i
  rw [Nat.testBit_or, Nat.testBit_shiftRight, Bool.or_eq_true, h, h]
  constructor
  · rintro (⟨j, hj, hbit⟩ | ⟨j, hj, hbit⟩)
    · exact ⟨j, by omega, hbit⟩
    · exact ⟨m + j, by omega, by rwa [show i + (m + j) = m + i + j by omega]⟩
  · rintro ⟨j, hj, hbit⟩
    by_cases hm : j < m
    · exact Or.inl ⟨j, hm, hbit⟩
    · exact Or.inr ⟨j - m, by omega, by rwa [show m + i + (j - m) = i + j by omega]⟩

/-- Spread over all its places, a number is one less than a power of 2. -/
theorem Spread.eq_two_pow_sub_one (h : Spread x m y) (hx : x < 2 ^ m) : y = 2 ^ x.size - 1 := by
  apply Nat.eq_of_testBit_eq
  intro i
  rw [Nat.testBit_two_pow_sub_one, Bool.eq_iff_iff, h, decide_eq_true_iff]
  constructor
  · rintro ⟨j, -, hbit⟩
    have hpow : 2 ^ (i + j) ≤ x := Nat.ge_two_pow_of_testBit hbit
    exact Nat.lt_of_le_of_lt (Nat.le_add_right i j) (Nat.lt_size.mpr hpow)
  · intro hi
    -- the highest bit of the number
    have hsize : x.size ≤ m := Nat.size_le.mpr hx
    refine ⟨x.size - 1 - i, by omega, ?_⟩
    have htop : 2 ^ (x.size - 1) ≤ x := Nat.lt_size.mp (by omega)
    have hlt : x < 2 ^ (x.size - 1 + 1) := by
      rw [Nat.sub_add_cancel (by omega)]
      exact Nat.lt_size_self x
    rw [show i + (x.size - 1 - i) = x.size - 1 by omega]
    exact Nat.testBit_of_two_pow_le_and_two_pow_add_one_gt htop hlt

end SystemCore.Lib
