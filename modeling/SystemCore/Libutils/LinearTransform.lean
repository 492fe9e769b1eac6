import SystemCore.Lib.FixedWidth

/-!
# Linear transforms

A `LinearTransform` maps one time line to another: `b = (a - a_zero) * numer / denom + b_zero`,
and back. The product has 96 bits and is divided in two steps of 64 bits by 32; the sign is
kept apart from the magnitude and says which way the quotient is rounded. Signed overflow
wraps. A failed `assert` is the fault `abort`.

An output pointer is the value it points to, `none` for a null pointer.
-/
namespace SystemCore.Libutils.LinearTransform

open Lib.FixedWidth

inductive Fault where
  | abort
  deriving DecidableEq, Repr

/-! ## The source -/

def absS32 (x : Int32) : Int32 := if x < 0 then -x else x

def absS64 (x : Int64) : Int64 := if x < 0 then -x else x

/-- The value returned and `*res`. -/
def scaleU64ToU64 (val : UInt64) (N D : UInt32) (roundUpNotDown : Bool) :
    Except Fault (Bool × UInt64) :=
  if D = 0 then .error .abort
  else
    let tmp2 := (val >>> 32) * N.toUInt64
    let tmp1 := (val &&& (0xffffffff : UInt64)) * N.toUInt64
    let tmp2 := tmp2 + tmp1 >>> 32
    if tmp2 >>> 32 ≥ D.toUInt64 then .ok (false, 0xffffffffffffffff)
    else
      let r := (tmp2 % D.toUInt64).toUInt32
      let tmp2 := tmp2 / D.toUInt64
      let tmp1 := (tmp1 &&& (0xffffffff : UInt64)) ||| (r.toUInt64 <<< 32)
      let r := (tmp1 % D.toUInt64).toUInt32
      let tmp1 := tmp1 / D.toUInt64
      let res := (tmp2 <<< 32) ||| tmp1
      if r ≠ 0 ∧ roundUpNotDown = true then
        let res := res + 1
        if res = 0 then .ok (false, 0xffffffffffffffff) else .ok (true, res)
      else .ok (true, res)

/-- The part of `linear_transform_s64_to_s64` after the scaling: `none` where it returns
false, and else the value stored. -/
def addBasis (scaled : UInt64) (isNeg : Bool) (basis2 : Int64) : Option Int64 :=
  if scaled &&& 0x8000000000000000 ≠ 0 then
    if isNeg = true ∧ basis2 < 0 then none
    else if isNeg = false ∧ basis2 ≥ 0 then none
    else if absS64 basis2 ≤ (scaled &&& 0x7fffffffffffffff).toInt64 then none
    else some ((if isNeg then -scaled else scaled) + basis2.toUInt64).toInt64
  else
    let scaled := if isNeg then -scaled else scaled
    let res := scaled + basis2.toUInt64
    if (scaled ^^^ basis2.toUInt64 ^^^ 0x8000000000000000) &&& (scaled ^^^ res)
        &&& 0x8000000000000000 ≠ 0 then none
    else some res.toInt64

def linearTransformS64ToS64 (val basis1 : Int64) (N : Int32) (D : UInt32) (invertFrac : Bool)
    (basis2 : Int64) (out : Option Int64) : Except Fault (Bool × Option Int64) :=
  if out = none then .ok (false, out)
  else
    let isNeg := decide (val < basis1)
    let absVal := if val < basis1 then (basis1 - val).toUInt64 else (val - basis1).toUInt64
    let isNeg := if N < 0 then !isNeg else isNeg
    match scaleU64ToU64 absVal (if invertFrac then D else (absS32 N).toUInt32)
        (if invertFrac then (absS32 N).toUInt32 else D) isNeg with
    | .error e => .error e
    | .ok (false, _) => .ok (false, out)
    | .ok (true, scaled) =>
      match addBasis scaled isNeg basis2 with
      | none => .ok (false, out)
      | some res => .ok (true, some res)

structure Transform where
  aZero : Int64
  bZero : Int64
  aToBNumer : Int32
  aToBDenom : UInt32

def Transform.doForwardTransform (t : Transform) (aIn : Int64) (bOut : Option Int64) :
    Except Fault (Bool × Option Int64) :=
  if 0 = t.aToBDenom then .ok (false, bOut)
  else linearTransformS64ToS64 aIn t.aZero t.aToBNumer t.aToBDenom false t.bZero bOut

def Transform.doReverseTransform (t : Transform) (bIn : Int64) (aOut : Option Int64) :
    Except Fault (Bool × Option Int64) :=
  if 0 = t.aToBNumer then .ok (false, aOut)
  else linearTransformS64ToS64 bIn t.bZero t.aToBNumer t.aToBDenom true t.aZero aOut

/-! ## Scaling -/

/-- The upper 64 of the 96 bits of `val * N`, and the lower 32. -/
theorem product_digits (val : UInt64) (N : UInt32) :
    ((val >>> 32) * N.toUInt64 + ((val &&& (0xffffffff : UInt64)) * N.toUInt64) >>> 32).toNat
        = val.toNat * N.toNat / 2 ^ 32
      ∧ ((val &&& (0xffffffff : UInt64)) * N.toUInt64 &&& (0xffffffff : UInt64)).toNat
        = val.toNat * N.toNat % 2 ^ 32 := by
  have hval := val.toNat_lt
  have hN := N.toNat_lt
  have hhi : val.toNat / 2 ^ 32 * N.toNat ≤ (2 ^ 32 - 1) * (2 ^ 32 - 1) :=
    Nat.mul_le_mul (by omega) (by omega)
  have hlo : val.toNat % 2 ^ 32 * N.toNat ≤ (2 ^ 32 - 1) * (2 ^ 32 - 1) :=
    Nat.mul_le_mul (by omega) (by omega)
  have hsplit : val.toNat * N.toNat
      = 2 ^ 32 * (val.toNat / 2 ^ 32 * N.toNat) + val.toNat % 2 ^ 32 * N.toNat := by
    conv_lhs => rw [← Nat.div_add_mod val.toNat (2 ^ 32)]
    ring
  rw [UInt64.toNat_add, toNat_high, toNat_low, UInt64.toNat_mul, UInt64.toNat_mul, toNat_high,
    toNat_low, UInt32.toNat_toUInt64, hsplit]
  generalize val.toNat / 2 ^ 32 * N.toNat = p at *
  generalize val.toNat % 2 ^ 32 * N.toNat = q at *
  omega

variable {isNeg : Bool} {res : Int64} {r : UInt32}

/-- The remainder in front of the low digit. -/
theorem rest_toNat {low : UInt64} (hlow : low.toNat < 2 ^ 32) :
    (low ||| (r.toUInt64 <<< 32)).toNat = 2 ^ 32 * r.toNat + low.toNat := by
  have hr : r.toUInt64.toNat < 2 ^ 32 := by
    exact r.toNat_lt
  rw [UInt64.or_comm, toNat_pack hr hlow, UInt32.toNat_toUInt64]

variable {D : UInt32} {basis2 val basis1 : Int64} {N : Int32} {scaled : UInt64} {invertFrac : Bool}

theorem mod_toUInt32 (x : UInt64) (hd : 0 < D.toNat) :
    (x % D.toUInt64).toUInt32.toNat = x.toNat % D.toNat := by
  have hlt := Nat.mod_lt x.toNat hd
  have hD := D.toNat_lt
  rw [UInt64.toNat_toUInt32, UInt64.toNat_mod, UInt32.toNat_toUInt64]
  exact Nat.mod_eq_of_lt (by omega)

/-- The two divisions of `scale_u64_to_u64`, packed, and the remainder left over. -/
theorem packed_quotient {top low : UInt64} (hd : 0 < D.toNat) (hlow : low.toNat < 2 ^ 32)
    (hfit : top.toNat / 2 ^ 32 < D.toNat) (hr : r = (top % D.toUInt64).toUInt32) :
    ((top / D.toUInt64) <<< 32 ||| (low ||| (r.toUInt64 <<< 32)) / D.toUInt64).toNat
        = (2 ^ 32 * top.toNat + low.toNat) / D.toNat
      ∧ ((low ||| (r.toUInt64 <<< 32)) % D.toUInt64).toUInt32.toNat
        = (2 ^ 32 * top.toNat + low.toNat) % D.toNat := by
  have hrn : r.toNat = top.toNat % D.toNat := by rw [hr, mod_toUInt32 top hd]
  have hq1 : (top / D.toUInt64).toNat < 2 ^ 32 := by
    rw [UInt64.toNat_div, UInt32.toNat_toUInt64, Nat.div_lt_iff_lt_mul hd]
    omega
  have hq0 : ((low ||| (r.toUInt64 <<< 32)) / D.toUInt64).toNat
      = (2 ^ 32 * (top.toNat % D.toNat) + low.toNat) / D.toNat := by
    rw [UInt64.toNat_div, UInt32.toNat_toUInt64, rest_toNat hlow, hrn]
  constructor
  · rw [toNat_pack hq1 (by rw [hq0]; exact low_digit_lt hlow hd), hq0, UInt64.toNat_div,
      UInt32.toNat_toUInt64, ← div_two_steps hd]
  · rw [mod_toUInt32 _ hd, rest_toNat hlow, hrn, ← mod_two_steps]

theorem toNat_pos_of_ne_zero (hD : D ≠ 0) : 0 < D.toNat :=
  Nat.pos_of_ne_zero fun h => hD (UInt32.toNat_inj.mp h)

/-- `scale_u64_to_u64` returns the rounded quotient, or false when that does not fit. -/
theorem scaleU64ToU64_spec (val : UInt64) (N : UInt32) (up : Bool) (hD : D ≠ 0) :
    scaleU64ToU64 val N D up =
      if roundedQuotient up (val.toNat * N.toNat) D.toNat < 2 ^ 64 then
        .ok (true, UInt64.ofNat (roundedQuotient up (val.toNat * N.toNat) D.toNat))
      else .ok (false, 0xffffffffffffffff) := by
  have hd := toNat_pos_of_ne_zero hD
  obtain ⟨htop, hlow⟩ := product_digits val N
  unfold scaleU64ToU64
  rw [if_neg hD, roundedQuotient_eq hd]
  simp only []
  generalize (val >>> 32) * N.toUInt64 + ((val &&& (0xffffffff : UInt64)) * N.toUInt64) >>> 32 = top at *
  generalize (val &&& (0xffffffff : UInt64)) * N.toUInt64 &&& (0xffffffff : UInt64) = low at *
  generalize val.toNat * N.toNat = m at *
  have hm : 2 ^ 32 * top.toNat + low.toNat = m := by omega
  have hcmp : top >>> 32 ≥ D.toUInt64 ↔ D.toNat ≤ top.toNat / 2 ^ 32 := by
    rw [ge_iff_le, UInt64.le_iff_toNat_le, toNat_high, UInt32.toNat_toUInt64]
  by_cases hbig : D.toNat ≤ top.toNat / 2 ^ 32
  · -- the quotient rounded down has more than 64 bits
    have hq : 2 ^ 64 ≤ m / D.toNat := by
      rw [Nat.le_div_iff_mul_le hd]
      omega
    rw [if_pos (hcmp.mpr hbig), if_neg (by omega)]
  · rw [if_neg (fun h => hbig (hcmp.mp h))]
    have hlow32 : low.toNat < 2 ^ 32 := by omega
    obtain ⟨hres, hrem⟩ := packed_quotient hd hlow32 (not_le.mp hbig) rfl
    rw [hm] at hres hrem
    generalize (top / D.toUInt64) <<< 32 |||
      (low ||| ((top % D.toUInt64).toUInt32.toUInt64 <<< 32)) / D.toUInt64 = res at *
    generalize ((low ||| ((top % D.toUInt64).toUInt32.toUInt64 <<< 32)) % D.toUInt64).toUInt32
      = r at *
    have hr0 : r ≠ 0 ↔ m % D.toNat ≠ 0 := by
      rw [← hrem, Ne, Ne, ← UInt32.toNat_inj]
      rfl
    have hlt := res.toNat_lt
    by_cases hup : m % D.toNat ≠ 0 ∧ up = true
    · rw [if_pos (by rwa [hr0]), if_pos hup, ← hres]
      have hinc : (res + 1).toNat = (res.toNat + 1) % 2 ^ 64 := UInt64.toNat_add res 1
      by_cases h0 : res + 1 = 0
      · have hn : (res + 1).toNat = 0 := by rw [h0]; rfl
        rw [if_pos h0, if_neg (by omega)]
      · have hn : (res + 1).toNat ≠ 0 := fun h => h0 (UInt64.toNat_inj.mp h)
        have hfit : res.toNat + 1 < 2 ^ 64 := by omega
        rw [if_neg h0, if_pos hfit, ← Nat.mod_eq_of_lt hfit, ← hinc, UInt64.ofNat_toNat]
    · rw [if_neg (by rwa [hr0]), if_neg hup, ← hres, Nat.add_zero, if_pos hlt, UInt64.ofNat_toNat]

theorem scaleU64ToU64_true_iff (val : UInt64) (N D : UInt32) (up : Bool) (res : UInt64) :
    scaleU64ToU64 val N D up = .ok (true, res) ↔
      D ≠ 0 ∧ roundedQuotient up (val.toNat * N.toNat) D.toNat < 2 ^ 64
        ∧ res.toNat = roundedQuotient up (val.toNat * N.toNat) D.toNat := by
  by_cases hD : D = 0
  · simp [scaleU64ToU64, hD]
  · rw [scaleU64ToU64_spec val N up hD]
    split
    case isTrue hfit =>
      rw [Except.ok.injEq, Prod.mk.injEq, ← UInt64.toNat_inj, UInt64.toNat_ofNat',
        Nat.mod_eq_of_lt hfit]
      exact ⟨fun h => ⟨hD, hfit, h.2.symm⟩, fun h => ⟨rfl, h.2.2.symm⟩⟩
    case isFalse hfit =>
      exact ⟨fun h => absurd (congrArg Prod.fst (Except.ok.inj h)) Bool.false_ne_true,
        fun h => absurd h.2.1 hfit⟩

/-! ## The sum with the second basis -/

def signed (isNeg : Bool) (magnitude : Nat) : Int := if isNeg then -(magnitude : Int) else magnitude

/-- The exact value is in the range of the result, and the scaled magnitude has 64 bits. -/
def Representable (scaled basis2 : Int) : Prop :=
  scaled.natAbs < 2 ^ 64 ∧ -2 ^ 63 ≤ scaled + basis2 ∧ scaled + basis2 < 2 ^ 63

/-- The two places where the comparison of the magnitudes is off: a result that is the smallest
value, and a basis that is. -/
def AtEdge (scaled basis2 : Int) : Prop :=
  scaled ≤ -2 ^ 63 ∧ scaled + basis2 = -2 ^ 63 ∨ 2 ^ 63 ≤ scaled ∧ basis2 = -2 ^ 63

theorem toInt_absS64 (x : Int64) :
    (absS64 x).toInt = if x.toInt = -2 ^ 63 then -2 ^ 63 else (x.toInt.natAbs : Int) := by
  have hlo := x.le_toInt
  have hhi := x.toInt_lt
  unfold absS64
  split
  case isTrue hneg =>
    rw [Int64.lt_iff_toInt_lt, Int64.toInt_zero] at hneg
    rw [Int64.toInt_neg]
    split
    case isTrue hmin =>
      rw [hmin]
      decide
    case isFalse hmin =>
      rw [Int.bmod_eq_of_le (by norm_num; omega) (by norm_num; omega)]
      omega
  case isFalse hpos =>
    rw [Int64.lt_iff_toInt_lt, Int64.toInt_zero] at hpos
    omega

theorem signed_emod (scaled : UInt64) (isNeg : Bool) :
    ((if isNeg then -scaled else scaled).toNat : Int) % 2 ^ 64
      = (if isNeg then -(scaled.toNat : Int) else scaled.toNat) % 2 ^ 64 := by
  cases isNeg with
  | false => rfl
  | true => exact toNat_neg_emod scaled

theorem addBasis_top_isSome_iff (htop : 2 ^ 63 ≤ scaled.toNat) (isNeg : Bool) (basis2 : Int64) :
    (addBasis scaled isNeg basis2).isSome = true ↔
      ¬ (isNeg = true ∧ basis2 < 0) ∧ ¬ (isNeg = false ∧ basis2 ≥ 0)
        ∧ (scaled.toNat : Int) - 2 ^ 63 < (absS64 basis2).toInt := by
  have hlt := scaled.toNat_lt
  have hbit : scaled &&& 0x8000000000000000 ≠ 0 := by
    rw [and_signBit, signBit_eq, decide_eq_true_eq]
    exact htop
  have hlow : (scaled &&& 0x7fffffffffffffff).toInt64.toInt = (scaled.toNat : Int) - 2 ^ 63 := by
    rw [toInt_toInt64, and_below_signBit, Int.bmod_eq_of_le (by norm_num; omega)
      (by norm_num; omega)]
    omega
  have hcompare : absS64 basis2 ≤ (scaled &&& 0x7fffffffffffffff).toInt64 ↔
      (absS64 basis2).toInt ≤ (scaled.toNat : Int) - 2 ^ 63 := by
    rw [Int64.le_iff_toInt_le, hlow]
  unfold addBasis
  rw [if_pos hbit]
  by_cases hunder : isNeg = true ∧ basis2 < 0
  · rw [if_pos hunder]
    exact iff_of_false Bool.false_ne_true fun h => h.1 hunder
  · rw [if_neg hunder]
    by_cases hover : isNeg = false ∧ basis2 ≥ 0
    · rw [if_pos hover]
      exact iff_of_false Bool.false_ne_true fun h => h.2.1 hover
    · rw [if_neg hover]
      by_cases hnear : (absS64 basis2).toInt ≤ (scaled.toNat : Int) - 2 ^ 63
      · rw [if_pos (hcompare.mpr hnear)]
        exact iff_of_false Bool.false_ne_true fun h => Int.not_lt.mpr hnear h.2.2
      · rw [if_neg fun h => hnear (hcompare.mp h)]
        exact iff_of_true rfl ⟨hunder, hover, Int.not_le.mp hnear⟩

theorem addBasis_low_isSome_iff (hlow : scaled.toNat < 2 ^ 63) (isNeg : Bool) (basis2 : Int64) :
    (addBasis scaled isNeg basis2).isSome = true ↔
      -2 ^ 63 ≤ signed isNeg scaled.toNat + basis2.toInt
        ∧ signed isNeg scaled.toNat + basis2.toInt < 2 ^ 63 := by
  have hmod := signed_emod scaled isNeg
  have hbit : ¬ scaled &&& 0x8000000000000000 ≠ 0 := by
    rw [and_signBit, signBit_eq, decide_eq_true_eq]
    omega
  have hover := add_overflow_iff (y := basis2) hmod (by split <;> omega) (by split <;> omega)
  unfold addBasis
  rw [if_neg hbit]
  unfold signed
  simp only []
  generalize (if isNeg then -scaled else scaled) = word at hover
  split
  case isTrue hset =>
    refine iff_of_false Bool.false_ne_true fun h => ?_
    rw [hover] at hset
    omega
  case isFalse hclear =>
    refine iff_of_true rfl ?_
    rw [hover] at hclear
    omega

/-- The sum is stored where it is in range, but not at the two edges. -/
theorem addBasis_isSome_iff (scaled : UInt64) (isNeg : Bool) (basis2 : Int64) :
    (addBasis scaled isNeg basis2).isSome = true ↔
      Representable (signed isNeg scaled.toNat) basis2.toInt
        ∧ ¬ AtEdge (signed isNeg scaled.toNat) basis2.toInt := by
  have hlt := scaled.toNat_lt
  have hblo := basis2.le_toInt
  have hbhi := basis2.toInt_lt
  unfold Representable AtEdge
  by_cases htop : 2 ^ 63 ≤ scaled.toNat
  · rw [addBasis_top_isSome_iff htop, toInt_absS64, ge_iff_le, Int64.lt_iff_toInt_lt,
      Int64.le_iff_toInt_le, Int64.toInt_zero]
    cases isNeg with
    | false =>
      simp only [signed, Bool.false_eq_true, if_false, false_and, not_false_eq_true, true_and]
      split <;> omega
    | true =>
      simp only [signed, if_true, true_and, Bool.true_eq_false, false_and, not_false_eq_true]
      split <;> omega
  · rw [addBasis_low_isSome_iff (Nat.lt_of_not_le htop)]
    cases isNeg with
    | false =>
      simp only [signed, Bool.false_eq_true, if_false]
      omega
    | true =>
      simp only [signed, if_true]
      omega

theorem addBasis_value (h : addBasis scaled isNeg basis2 = some res) :
    res = ((if isNeg then -scaled else scaled) + basis2.toUInt64).toInt64 := by
  unfold addBasis at h
  simp only [] at h
  generalize (if isNeg then -scaled else scaled) = word at h ⊢
  split_ifs at h <;> exact (Option.some.inj h).symm

/-- What `linear_transform_s64_to_s64` stores is the sum of the scaled distance, with its
sign, and the second basis. -/
theorem addBasis_sound (h : addBasis scaled isNeg basis2 = some res) :
    res.toInt = signed isNeg scaled.toNat + basis2.toInt := by
  have hsome : (addBasis scaled isNeg basis2).isSome = true := by
    rw [h]
    rfl
  obtain ⟨⟨-, hlo, hhi⟩, -⟩ := (addBasis_isSome_iff scaled isNeg basis2).mp hsome
  rw [addBasis_value h]
  exact toInt_add_toUInt64 (signed_emod scaled isNeg) hlo hhi

/-! ## The transform -/

theorem absVal_toNat (val basis1 : Int64) :
    (if val < basis1 then (basis1 - val).toUInt64 else (val - basis1).toUInt64).toNat
      = (val.toInt - basis1.toInt).natAbs := by
  have hv := val.le_toInt
  have hv' := val.toInt_lt
  have hb := basis1.le_toInt
  have hb' := basis1.toInt_lt
  split
  case isTrue hlt =>
    rw [Int64.lt_iff_toInt_lt] at hlt
    have hn := toNat_toUInt64 (basis1 - val)
    rw [Int64.toInt_sub] at hn
    have hmod := @Int.bmod_emod (basis1.toInt - val.toInt) (2 ^ 64)
    omega
  case isFalse hge =>
    rw [Int64.lt_iff_toInt_lt] at hge
    have hn := toNat_toUInt64 (val - basis1)
    rw [Int64.toInt_sub] at hn
    have hmod := @Int.bmod_emod (val.toInt - basis1.toInt) (2 ^ 64)
    omega

theorem absS32_toNat (N : Int32) : (absS32 N).toUInt32.toNat = N.toInt.natAbs := by
  have hlo := N.le_toInt
  have hhi := N.toInt_lt
  have hword : ∀ x : Int32, (x.toUInt32.toNat : Int) = x.toInt % 2 ^ 32 := by
    intro x
    have hlt := x.toBitVec.isLt
    have hmod := @Int.bmod_emod x.toBitVec.toNat (2 ^ 32)
    show (x.toBitVec.toNat : Int) = x.toBitVec.toInt % 2 ^ 32
    rw [BitVec.toInt_eq_toNat_bmod]
    omega
  unfold absS32
  split
  case isTrue hneg =>
    rw [Int32.lt_iff_toInt_lt, Int32.toInt_zero] at hneg
    have hn := hword (-N)
    have hmod := @Int.bmod_emod (-N.toInt) (2 ^ 32)
    rw [Int32.toInt_neg] at hn
    omega
  case isFalse hpos =>
    rw [Int32.lt_iff_toInt_lt, Int32.toInt_zero] at hpos
    have hn := hword N
    omega

/-- The numerator and the denominator that `invert_frac` picks. -/
def fraction (N : Int32) (D : UInt32) (invertFrac : Bool) : Int × Int :=
  if invertFrac then (D.toNat, N.toInt) else (N.toInt, D.toNat)

theorem fraction_natAbs (N : Int32) (D : UInt32) (invertFrac : Bool) :
    (if invertFrac then D else (absS32 N).toUInt32).toNat = (fraction N D invertFrac).1.natAbs
      ∧ (if invertFrac then (absS32 N).toUInt32 else D).toNat
        = (fraction N D invertFrac).2.natAbs := by
  cases invertFrac with
  | false => exact ⟨absS32_toNat N, rfl⟩
  | true => exact ⟨rfl, absS32_toNat N⟩

/-- An integer as its sign and its magnitude. -/
theorem cast_eq_sign_mul (x : Int) : (x : ℚ) = (if x < 0 then -1 else 1) * (x.natAbs : ℚ) := by
  split
  case isTrue h =>
    rw [Nat.cast_natAbs, abs_of_neg h]
    push_cast
    ring
  case isFalse h =>
    rw [Nat.cast_natAbs, abs_of_nonneg (not_lt.mp h), one_mul]

/-- `is_neg` is the sign of the exact quotient. -/
theorem quotient_sign (x : Int) (N : Int32) (D : UInt32) (invertFrac : Bool) :
    ((x : ℚ) * (fraction N D invertFrac).1) / (fraction N D invertFrac).2
      = (if (if N < 0 then !decide (x < 0) else decide (x < 0)) then -1 else 1)
        * (((x.natAbs * (fraction N D invertFrac).1.natAbs : Nat) : ℚ)
          / (fraction N D invertFrac).2.natAbs) := by
  have hN : N < 0 ↔ N.toInt < 0 := by rw [Int32.lt_iff_toInt_lt, Int32.toInt_zero]
  have hx := cast_eq_sign_mul x
  have hn := cast_eq_sign_mul N.toInt
  rw [hx, Nat.cast_mul]
  cases invertFrac <;> simp only [fraction, Bool.false_eq_true, ↓reduceIte, Int.cast_natCast,
      Int.natAbs_natCast] <;> rw [hn] <;>
    by_cases h1 : N.toInt < 0 <;> by_cases h2 : x < 0 <;>
    simp only [hN, h1, h2, ↓reduceIte, decide_true, decide_false, Bool.not_true, Bool.not_false,
      Bool.false_eq_true] <;> ring

def scaledFloor (val basis1 : Int64) (fraction : Int × Int) : Int :=
  ⌊((val.toInt - basis1.toInt : Int) * fraction.1 : ℚ) / fraction.2⌋

/-- The scaling finds the floor by its sign and its magnitude. -/
theorem linear_eq (val basis1 basis2 : Int64)
    (hdivisor : (if invertFrac then (absS32 N).toUInt32 else D) ≠ 0) (stored : Int64) :
    ∃ isNeg magnitude, scaledFloor val basis1 (fraction N D invertFrac) = signed isNeg magnitude
      ∧ linearTransformS64ToS64 val basis1 N D invertFrac basis2 (some stored) =
        if magnitude < 2 ^ 64 then
          match addBasis (UInt64.ofNat magnitude) isNeg basis2 with
          | none => .ok (false, some stored)
          | some res => .ok (true, some res)
        else .ok (false, some stored) := by
  have habs := absVal_toNat val basis1
  obtain ⟨hnum, hden⟩ := fraction_natAbs N D invertFrac
  have hneg : decide (val < basis1) = decide (val.toInt - basis1.toInt < 0) := by
    rw [decide_eq_decide, Int64.lt_iff_toInt_lt]
    omega
  unfold scaledFloor linearTransformS64ToS64
  rw [if_neg (Option.some_ne_none stored), quotient_sign, ← hnum, ← hden, ← habs,
    floor_signed (toNat_pos_of_ne_zero hdivisor)]
  simp only [hneg]
  rw [scaleU64ToU64_spec _ _ _ hdivisor]
  generalize (if N < 0 then !decide (val.toInt - basis1.toInt < 0)
    else decide (val.toInt - basis1.toInt < 0)) = isNeg
  generalize (if val < basis1 then (basis1 - val).toUInt64 else (val - basis1).toUInt64).toNat
    * (if invertFrac then D else (absS32 N).toUInt32).toNat = product
  generalize (if invertFrac then (absS32 N).toUInt32 else D).toNat = divisor
  refine ⟨isNeg, roundedQuotient isNeg product divisor, ?_, ?_⟩
  · cases isNeg <;> rfl
  · by_cases hfits : roundedQuotient isNeg product divisor < 2 ^ 64
    · rw [if_pos hfits, if_pos hfits]
    · rw [if_neg hfits, if_neg hfits]

/-- The value stored is the floor of the exact quotient, moved by the second basis. -/
theorem linear_sound (invertFrac : Bool) {out out' : Option Int64}
    (hdivisor : (if invertFrac then (absS32 N).toUInt32 else D) ≠ 0)
    (h : linearTransformS64ToS64 val basis1 N D invertFrac basis2 out = .ok (true, out')) :
    ∃ res, out' = some res
      ∧ res.toInt = scaledFloor val basis1 (fraction N D invertFrac) + basis2.toInt := by
  cases out with
  | none => simp [linearTransformS64ToS64] at h
  | some stored =>
    obtain ⟨isNeg, magnitude, hfloor, heq⟩ := linear_eq val basis1 basis2 hdivisor stored
    rw [heq] at h
    split at h
    case isFalse => simp at h
    case isTrue hfits =>
      split at h
      case h_1 => simp at h
      case h_2 res hres =>
        obtain rfl : out' = some res := by simpa using h.symm
        refine ⟨res, rfl, ?_⟩
        rw [addBasis_sound hres, UInt64.toNat_ofNat', Nat.mod_eq_of_lt hfits, hfloor]

theorem absS32_ne_zero (h : N ≠ 0) : (absS32 N).toUInt32 ≠ 0 := by
  intro hzero
  have habs := absS32_toNat N
  rw [hzero, UInt32.toNat_zero, eq_comm, Int.natAbs_eq_zero] at habs
  exact h (Int32.toInt_inj.mp habs)

/-- What the transforms return with success is the floor of the exact quotient, moved to the
other zero; and a scaling succeeds exactly when the rounded quotient is a word, and returns
it. -/
theorem transforms_sound (t : Transform) (out : Option Int64) :
    (∀ aIn out', t.doForwardTransform aIn out = .ok (true, out') →
      ∃ b, out' = some b ∧ b.toInt
        = ⌊((aIn.toInt - t.aZero.toInt : Int) * t.aToBNumer.toInt : ℚ) / t.aToBDenom.toNat⌋
          + t.bZero.toInt)
    ∧ (∀ bIn out', t.doReverseTransform bIn out = .ok (true, out') →
      ∃ a, out' = some a ∧ a.toInt
        = ⌊((bIn.toInt - t.bZero.toInt : Int) * t.aToBDenom.toNat : ℚ) / t.aToBNumer.toInt⌋
          + t.aZero.toInt)
    ∧ ∀ val N D up,
      (∀ res, scaleU64ToU64 val N D up = .ok (true, res) →
        res.toNat = roundedQuotient up (val.toNat * N.toNat) D.toNat)
      ∧ ((∃ res, scaleU64ToU64 val N D up = .ok (true, res)) ↔
        D ≠ 0 ∧ roundedQuotient up (val.toNat * N.toNat) D.toNat < 2 ^ 64) := by
  refine ⟨fun aIn out' h => ?_, fun bIn out' h => ?_, fun val N D up => ⟨fun res h => ?_, ?_, ?_⟩⟩
  · unfold Transform.doForwardTransform at h
    split at h
    case isTrue => simp at h
    case isFalse hdenom => exact linear_sound false (Ne.symm hdenom) h
  · unfold Transform.doReverseTransform at h
    split at h
    case isTrue => simp at h
    case isFalse hnumer => exact linear_sound true (absS32_ne_zero (Ne.symm hnumer)) h
  · exact ((scaleU64ToU64_true_iff _ _ _ _ _).mp h).2.2
  · intro ⟨res, h⟩
    obtain ⟨hD, hfit, -⟩ := (scaleU64ToU64_true_iff _ _ _ _ _).mp h
    exact ⟨hD, hfit⟩
  · intro ⟨hD, hfit⟩
    refine ⟨UInt64.ofNat (roundedQuotient up (val.toNat * N.toNat) D.toNat),
      (scaleU64ToU64_true_iff _ _ _ _ _).mpr ⟨hD, hfit, ?_⟩⟩
    rw [UInt64.toNat_ofNat', Nat.mod_eq_of_lt hfit]

/-- 7/2 rounds to -4 where the numerator is negative. -/
theorem transforms_sound_negative :
    ∃ b : Int64, some (-4 : Int64) = some b
      ∧ b.toInt = ⌊((8 - 1 : Int) * (-1 : Int) : ℚ) / (2 : Nat)⌋ + 0 :=
  (transforms_sound ⟨1, 0, -1, 2⟩ (some 0)).1 8 (some (-4)) (by decide +kernel)

end SystemCore.Libutils.LinearTransform
