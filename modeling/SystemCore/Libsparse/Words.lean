import SystemCore.Lib.CeilDiv

/-!
# The machine integers of libsparse

Block numbers, lengths and block sizes are `unsigned int`, so `UInt32`. File
lengths and offsets are `int64_t` and are kept as integers. The macros of
`sparse_defs.h` are evaluated in 32-bit arithmetic, where the addition inside
`DIV_ROUND_UP` can wrap.
-/
namespace SystemCore.Libsparse

open Lib.CeilDiv

/-- `DIV_ROUND_UP(x, y)` on two unsigned operands. -/
def divRoundUp (x y : UInt32) : UInt32 := (x + y - 1) / y

/-- `ALIGN(x, y)` on two unsigned operands. -/
def align (x y : UInt32) : UInt32 := y * divRoundUp x y

/-- `ALIGN_DOWN(x, y)` on two unsigned operands. -/
def alignDown (x y : UInt32) : UInt32 := y * (x / y)

/-- The value of an `unsigned int` converted to `int`. -/
def toInt (x : UInt32) : Int := if x.toNat < 2 ^ 31 then x.toNat else (x.toNat : Int) - 2 ^ 32

/-- The value of an `int64_t` converted to `unsigned int`. -/
def lowWord (x : Int) : UInt32 := UInt32.ofNat (x % 2 ^ 32).toNat

variable {x y : UInt32}

theorem toNat_pos_of_ne (h : x ≠ 0) : 0 < x.toNat := by
  rcases Nat.eq_zero_or_pos x.toNat with h0 | h0
  · exact absurd (UInt32.toNat_inj.mp h0) h
  · exact h0

theorem toInt_of_lt (h : x.toNat < 2 ^ 31) : toInt x = x.toNat := if_pos h

theorem toInt_of_le (h : 2 ^ 31 ≤ x.toNat) : toInt x = (x.toNat : Int) - 2 ^ 32 :=
  if_neg (by omega)

theorem toInt_neg_of_le (h : 2 ^ 31 ≤ x.toNat) : toInt x < 0 := by
  rw [toInt_of_le h]
  have := UInt32.toNat_lt x
  omega

theorem lowWord_toNat {x : Int} (h0 : 0 ≤ x) (h : x < 2 ^ 32) : ((lowWord x).toNat : Int) = x := by
  unfold lowWord
  rw [UInt32.toNat_ofNat']
  omega

theorem lowWord_natCast (n : Nat) : (lowWord n).toNat = n % 2 ^ 32 := by
  unfold lowWord
  rw [UInt32.toNat_ofNat']
  omega

theorem lowWord_toNat_cast (x : UInt32) : lowWord (x.toNat : Int) = x := by
  apply UInt32.toNat_inj.mp
  rw [lowWord_natCast]
  exact Nat.mod_eq_of_lt x.toNat_lt

private theorem add_pred_toNat (x y : UInt32) :
    (x + y - 1).toNat = (x.toNat + y.toNat + (2 ^ 32 - 1)) % 2 ^ 32 := by
  change (2 ^ 32 - 1 + (x.toNat + y.toNat) % 2 ^ 32) % 2 ^ 32 = _
  omega

/-- Without a wrap the macro is the rounded-up quotient. -/
theorem divRoundUp_toNat (hy : 0 < y.toNat) (h : x.toNat + y.toNat ≤ 2 ^ 32) :
    (divRoundUp x y).toNat = x.toNat ⌈/⌉ y.toNat := by
  have hs : (x + y - 1).toNat = x.toNat + y.toNat - 1 := by
    rw [add_pred_toNat]
    omega
  unfold divRoundUp
  rw [UInt32.toNat_div, hs, Nat.ceilDiv_eq_add_pred_div]

/-- With a wrap the macro is zero. -/
theorem divRoundUp_wrap (h : 2 ^ 32 < x.toNat + y.toNat) : divRoundUp x y = 0 := by
  apply UInt32.toNat_inj.mp
  unfold divRoundUp
  rw [UInt32.toNat_div, add_pred_toNat]
  have hx := UInt32.toNat_lt x
  exact Nat.div_eq_of_lt (by omega)

theorem divRoundUp_le (hy : 0 < y.toNat) : (divRoundUp x y).toNat ≤ x.toNat ⌈/⌉ y.toNat := by
  rcases Nat.lt_or_ge (2 ^ 32) (x.toNat + y.toNat) with h | h
  · rw [divRoundUp_wrap h]
    exact Nat.zero_le _
  · exact (divRoundUp_toNat hy h).le

theorem align_toNat (x y : UInt32) : (align x y).toNat = y.toNat * (divRoundUp x y).toNat := by
  unfold align
  rw [UInt32.toNat_mul]
  apply Nat.mod_eq_of_lt
  unfold divRoundUp
  exact (Nat.mul_div_le _ _).trans_lt (UInt32.toNat_lt _)

theorem align_div (hy : 0 < y.toNat) : align x y / y = divRoundUp x y := by
  apply UInt32.toNat_inj.mp
  rw [UInt32.toNat_div, align_toNat, Nat.mul_div_cancel_left _ hy]

/-- The bytes that `ALIGN` adds are less than one unit. -/
theorem align_sub_toNat (hy : 0 < y.toNat) (h : x.toNat + y.toNat ≤ 2 ^ 32) :
    (align x y - x).toNat + x.toNat = (align x y).toNat ∧ (align x y - x).toNat < y.toNat := by
  have h1 := le_mul_ceilDiv hy x.toNat
  have h2 := mul_ceilDiv_lt hy x.toNat
  have ha : (align x y).toNat = y.toNat * (x.toNat ⌈/⌉ y.toNat) := by
    rw [align_toNat, divRoundUp_toNat hy h]
  rw [UInt32.toNat_sub_of_le _ _ (by change x.toNat ≤ (align x y).toNat; omega)]
  omega

theorem alignDown_toNat (x y : UInt32) : (alignDown x y).toNat = y.toNat * (x.toNat / y.toNat) := by
  unfold alignDown
  exact Nat.mod_eq_of_lt ((Nat.mul_div_le _ _).trans_lt (UInt32.toNat_lt x))

theorem alignDown_dvd (x y : UInt32) : y.toNat ∣ (alignDown x y).toNat := by
  rw [alignDown_toNat]
  exact Nat.dvd_mul_right _ _

theorem lt_alignDown_add (hy : 0 < y.toNat) : x.toNat < (alignDown x y).toNat + y.toNat := by
  rw [alignDown_toNat]
  have h := Nat.div_add_mod x.toNat y.toNat
  have h' := Nat.mod_lt x.toNat hy
  omega

end SystemCore.Libsparse
