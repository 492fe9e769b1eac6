import SystemCore.Lib.CeilDiv
import SystemCore.Lib.Masks
import Mathlib.Data.Rat.Floor

/-!
# Words of 64 bits and their division

The halves of a word, the sign bit, and the test for overflow of a signed sum. Division of
a number of two digits goes digit by digit; a quotient of integers is rounded to one side
by rounding the quotient of the magnitudes to the side that the sign asks for.
-/
namespace SystemCore.Lib.FixedWidth

open Lib.CeilDiv

/-! ## Halves of a word -/

theorem toNat_low (x : UInt64) : (x &&& 0xffffffff).toNat = x.toNat % 2 ^ 32 := by
  exact Nat.and_two_pow_sub_one_eq_mod _ 32

theorem toNat_high (x : UInt64) : (x >>> 32).toNat = x.toNat / 2 ^ 32 := by
  simp [Nat.shiftRight_eq_div_pow]

variable {x : UInt64} {y : Int64}

theorem toNat_shift_half (h : x.toNat < 2 ^ 32) : (x <<< 32).toNat = 2 ^ 32 * x.toNat := by
  rw [UInt64.toNat_shiftLeft]
  simp only [UInt64.toNat_ofNat, Nat.shiftLeft_eq, Nat.reducePow, Nat.reduceMod]
  omega

theorem toNat_pack {hi lo : UInt64} (hhi : hi.toNat < 2 ^ 32) (hlo : lo.toNat < 2 ^ 32) :
    (hi <<< 32 ||| lo).toNat = 2 ^ 32 * hi.toNat + lo.toNat := by
  rw [UInt64.toNat_or, toNat_shift_half hhi, ← Nat.two_pow_add_eq_or_of_lt hlo]

/-! ## Signed values -/

theorem toInt_toInt64 (x : UInt64) : x.toInt64.toInt = Int.bmod x.toNat (2 ^ 64) := by
  show x.toBitVec.toInt = _
  rw [BitVec.toInt_eq_toNat_bmod]
  rfl

theorem toNat_toUInt64 (x : Int64) : (x.toUInt64.toNat : Int) = x.toInt % 2 ^ 64 := by
  show (x.toBitVec.toNat : Int) = x.toBitVec.toInt % 2 ^ 64
  have hlt := x.toBitVec.isLt
  have hmod := @Int.bmod_emod x.toBitVec.toNat (2 ^ 64)
  rw [BitVec.toInt_eq_toNat_bmod]
  omega

/-- A sum of words read as a signed number, when it is a signed number. -/
theorem toInt_add_toUInt64 {s : Int} (hx : (x.toNat : Int) % 2 ^ 64 = s % 2 ^ 64)
    (hlo : -2 ^ 63 ≤ s + y.toInt) (hhi : s + y.toInt < 2 ^ 63) :
    (x + y.toUInt64).toInt64.toInt = s + y.toInt := by
  have hy := toNat_toUInt64 y
  rw [toInt_toInt64, UInt64.toNat_add]
  have hmod : ((((x.toNat + y.toUInt64.toNat) % 2 ^ 64 : Nat) : Int)) % 2 ^ 64
      = (s + y.toInt) % 2 ^ 64 := by
    omega
  rw [← Int.emod_bmod, Nat.cast_pow, Nat.cast_ofNat, hmod]
  rw [show (2 : Int) ^ 64 = ((2 ^ 64 : Nat) : Int) from by norm_num, Int.emod_bmod]
  exact Int.bmod_eq_of_le (by norm_num; omega) (by norm_num; omega)

theorem toNat_neg_emod (x : UInt64) : ((-x).toNat : Int) % 2 ^ 64 = -x.toNat % 2 ^ 64 := by
  rw [UInt64.toNat_neg]
  have := x.toNat_lt
  norm_num [UInt64.size]
  omega

theorem and_below_signBit (x : UInt64) :
    (x &&& 0x7fffffffffffffff).toNat = x.toNat % 2 ^ 63 := by
  rw [UInt64.toNat_and]
  exact Nat.and_two_pow_sub_one_eq_mod _ 63

/-- The top bit of a word, the sign of the number it is when read as signed. -/
def signBit (x : UInt64) : Bool := x.toBitVec.msb

theorem signBit_eq (x : UInt64) : signBit x = decide (2 ^ 63 ≤ x.toNat) :=
  BitVec.msb_eq_decide x.toBitVec

theorem signBit_xor (x y : UInt64) : signBit (x ^^^ y) = (signBit x ^^ signBit y) :=
  BitVec.msb_xor

theorem signBit_and (x y : UInt64) : signBit (x &&& y) = (signBit x && signBit y) :=
  BitVec.msb_and

theorem signBit_toUInt64 (x : Int64) : signBit x.toUInt64 = decide (x.toInt < 0) :=
  BitVec.msb_eq_toInt

theorem and_signBit (x : UInt64) : x &&& 0x8000000000000000 ≠ 0 ↔ signBit x = true := by
  have hand : (x &&& 0x8000000000000000).toNat = 2 ^ 63 * (x.toNat / 2 ^ 63 &&& 1) := by
    rw [UInt64.toNat_and]
    exact and_two_pow_mul x.toNat 63 1
  rw [Nat.and_one_is_mod] at hand
  have hlt := x.toNat_lt
  rw [signBit_eq, decide_eq_true_eq, Ne, ← UInt64.toNat_inj, hand, UInt64.toNat_zero]
  omega

/-- The test for overflow of a signed sum: the signs of the terms agree and the sign of the
sum is another one. -/
theorem add_overflow_iff {s : Int} (hx : (x.toNat : Int) % 2 ^ 64 = s % 2 ^ 64) (hlo : -2 ^ 63 ≤ s)
    (hhi : s < 2 ^ 63) :
    (x ^^^ y.toUInt64 ^^^ 0x8000000000000000) &&& (x ^^^ (x + y.toUInt64)) &&& 0x8000000000000000 ≠ 0
      ↔ s + y.toInt < -2 ^ 63 ∨ 2 ^ 63 ≤ s + y.toInt := by
  have hmin : signBit 0x8000000000000000 = true := by decide
  have hxlt := x.toNat_lt
  have hy := toNat_toUInt64 y
  have hylo := y.le_toInt
  have hyhi := y.toInt_lt
  rw [and_signBit, signBit_and, signBit_xor, signBit_xor, signBit_xor, hmin, signBit_toUInt64 y,
    signBit_eq x, signBit_eq (x + y.toUInt64), UInt64.toNat_add]
  -- one case for each choice of the three signs
  by_cases h1 : 2 ^ 63 ≤ x.toNat <;> by_cases h2 : y.toInt < 0 <;>
    by_cases h3 : 2 ^ 63 ≤ (x.toNat + y.toUInt64.toNat) % 2 ^ 64
  all_goals
    simp only [h1, h2, h3, decide_true, decide_false]
    simp
    omega

/-! ## Division in two steps -/

variable {b d hi lo : Nat}

/-- The digit of the quotient that the second step gives. -/
theorem low_digit_lt (hlo : lo < b) (hd : 0 < d) : (b * (hi % d) + lo) / d < b := by
  have hr := Nat.mod_lt hi hd
  rw [Nat.div_lt_iff_lt_mul hd]
  nlinarith

theorem div_two_steps (hd : 0 < d) :
    (b * hi + lo) / d = b * (hi / d) + (b * (hi % d) + lo) / d := by
  have hhi := Nat.div_add_mod hi d
  have hsplit : b * hi + lo = (b * (hi % d) + lo) + d * (b * (hi / d)) := by
    calc b * hi + lo = b * (d * (hi / d) + hi % d) + lo := by rw [hhi]
      _ = _ := by ring
  rw [hsplit, Nat.add_mul_div_left _ _ hd, Nat.add_comm]

theorem mod_two_steps : (b * hi + lo) % d = (b * (hi % d) + lo) % d := by
  rw [Nat.add_mod, Nat.mul_mod, Nat.add_mod (b * (hi % d)), Nat.mul_mod b (hi % d), Nat.mod_mod]

/-! ## Rounding a quotient -/

/-- The quotient of `m` by `d`, rounded up or down. -/
def roundedQuotient (up : Bool) (m d : Nat) : Nat :=
  if up then m ⌈/⌉ d else m / d

theorem ceilDiv_eq_div_add (hd : 0 < d) (m : Nat) :
    m ⌈/⌉ d = m / d + if m % d = 0 then 0 else 1 := by
  rw [Nat.ceilDiv_eq_add_pred_div]
  have hm := Nat.div_add_mod m d
  have hlt := Nat.mod_lt m hd
  split
  case isTrue h0 =>
    rw [show m + d - 1 = (d - 1) + d * (m / d) from by omega, Nat.add_mul_div_left _ _ hd,
      Nat.div_eq_of_lt (by omega), Nat.zero_add, Nat.add_zero]
  case isFalse h0 =>
    rw [show m + d - 1 = (m % d - 1) + d * (m / d + 1) from by rw [Nat.mul_add]; omega,
      Nat.add_mul_div_left _ _ hd, Nat.div_eq_of_lt (by omega), Nat.zero_add]

theorem roundedQuotient_eq (hd : 0 < d) (up : Bool) (m : Nat) :
    roundedQuotient up m d = m / d + if m % d ≠ 0 ∧ up = true then 1 else 0 := by
  unfold roundedQuotient
  cases up with
  | false => simp
  | true => simp [ceilDiv_eq_div_add hd]

/-- The floor of a quotient from its sign and its magnitude. -/
theorem floor_signed (hd : 0 < d) (neg : Bool) (m : Nat) :
    ⌊(if neg then -1 else 1) * ((m : ℚ) / d)⌋
      = if neg then -(roundedQuotient true m d : Int) else (roundedQuotient false m d : Int) := by
  cases neg with
  | false =>
    have h := Rat.floor_intCast_div_natCast (m : Int) d
    simpa [roundedQuotient] using h
  | true =>
    have h := Rat.floor_intCast_div_natCast (-(m : Int)) d
    have hneg : (-(m : Int)) / d = -((m ⌈/⌉ d : Nat) : Int) := by
      have hle := le_mul_ceilDiv hd m
      have hlt := mul_ceilDiv_lt hd m
      refine ((Int.ediv_emod_unique (r := (d * (m ⌈/⌉ d) : Nat) - m) (by omega)).mpr ?_).1
      refine ⟨?_, by omega, by omega⟩
      push_cast
      ring
    rw [hneg] at h
    push_cast at h
    simpa [roundedQuotient, neg_div] using h

end SystemCore.Lib.FixedWidth
