import SystemCore.Libutils.BasicHashtable
import SystemCore.Lib.Rounding
import Mathlib.Tactic.NormNum.Prime
import Mathlib.Tactic.ReduceModChar
import Mathlib.NumberTheory.LucasPrimality

/-!
# The sizes of a hash table

`determineCapacity` computes in single precision: the number of buckets is a prime of the
table `PRIMES` that the entries fit in, and the capacity is the share of it that the load
factor allows. All steps round to nearest. A load factor that is not a number passes the
check of the source, and a number of buckets beyond the table makes it read past its end.

The rounding errors are small, and they never make the capacity as large as the number of
buckets. They can make it smaller than the capacity that was asked for.
-/
namespace SystemCore.Libutils.BasicHashtable

open Lib.Rounding Format

/-- The format of `float`. -/
def single : Format := ⟨24, -149⟩

/-- A `float`. The two zeros are one. -/
inductive Binary32 where
  | nan
  | inf (negative : Bool)
  | finite (q : ℚ) (representable : single.Representable |q|)
  deriving DecidableEq

/-- The load factor `0.75f`. -/
def threeQuarters : Binary32 :=
  .finite (3 / 4) ⟨abs_nonneg _, 3, -2, by decide, by decide, by norm_num [abs_of_pos]⟩

/-- The result of an operation, or nothing if it overflows. -/
def toSingle (q : ℚ) : Option ℚ :=
  if single.round q < 2 ^ 128 then some (single.round q) else none

/-- Conversion to `size_t`. -/
def toSize (q : ℚ) : Option Nat := if q < 2 ^ 64 then some ⌊q⌋₊ else none

def PRIMES : List Nat :=
  [5, 11, 23, 47, 97, 197, 397, 797, 1597, 3203, 6421, 12853, 25717, 51437, 102877, 205759,
    411527, 823117, 1646237, 3292489, 6584983, 13169977, 26339969, 52679969, 105359939,
    210719881, 421439783, 842879579, 1685759167, 0]

/-- `ceilf(minimumCapacity / loadFactor) + 1`. -/
def neededBuckets (minimumCapacity : Nat) (loadFactor : ℚ) : Option Nat :=
  match toSingle minimumCapacity with
  | none => none
  | some m =>
    match toSingle (m / loadFactor) with
    | none => none
    | some q =>
      match toSingle (⌈q⌉ + 1) with
      | none => none
      | some count => toSize count

/-- `ceilf((count - 1) * loadFactor)`. -/
def allowedEntries (count : Nat) (loadFactor : ℚ) : Option Nat :=
  match toSingle (count - 1 : Nat) with
  | none => none
  | some n =>
    match toSingle (n * loadFactor) with
    | none => none
    | some c => toSize ⌈c⌉

/-- `determineCapacity`: the number of buckets and the capacity. -/
def determineCapacity (minimumCapacity : Nat) : Binary32 → Except Fault (Nat × Nat)
  | .inf _ => .error .abort
  | .nan => .error .conversion
  | .finite loadFactor _ =>
    if loadFactor ≤ 0 ∨ 1 < loadFactor then .error .abort
    else
      match neededBuckets minimumCapacity loadFactor with
      | none => .error .conversion
      | some count =>
        match PRIMES.find? (count ≤ ·) with
        | none => .error .outOfBounds
        | some count =>
          if count = 0 then .error .abort
          else
            match allowedEntries count loadFactor with
            | none => .error .conversion
            | some capacity => .ok (count, capacity)

/-! ## What the sizes are like -/

theorem toSingle_some {q r : ℚ} (h : toSingle q = some r) : r = single.round q := by
  unfold toSingle at h
  split at h
  · exact (Option.some.inj h).symm
  · cases h

variable {n : Nat}

theorem toSize_some {z : ℤ} (h : toSize z = some n) : n = z.toNat := by
  unfold toSize at h
  split at h
  · rw [← Option.some.inj h, ← Int.floor_toNat, Int.floor_intCast]
  · cases h

section Bounds

variable {m n c count : Nat} {lf q : ℚ}

/-- Rounding a multiple of the least unit takes off less than one part in a hundred. -/
theorem single_loss_of_multiple (hq : 0 ≤ q) (h : Multiple (-149) q) :
    q * (127 / 128) ≤ single.round q := by
  refine le_trans ?_ (mul_le_round_of_multiple hq h)
  have hbound : (127 / 128 : ℚ) ≤ 1 - 2 ^ (-24 : ℤ) := by norm_num
  exact mul_le_mul_of_nonneg_left hbound hq

theorem single_loss_of_int {z : ℤ} (hz : 0 ≤ z) : (z : ℚ) * (127 / 128) ≤ single.round z :=
  single_loss_of_multiple (by exact_mod_cast hz) ((multiple_intCast z).mono (by decide))

/-- The same for a value that is not tiny. -/
theorem single_loss (hq : 1 / 2 ≤ q) : q * (127 / 128) ≤ single.round q := by
  have hnormal : (2 : ℚ) ^ (single.least + single.precision - 1) ≤ q := by
    refine le_trans ?_ hq
    have : (2 : ℚ) ^ (-126 : ℤ) ≤ 2 ^ (-1 : ℤ) := zpow_le_zpow_right₀ one_le_two (by decide)
    calc (2 : ℚ) ^ (single.least + single.precision - 1) = 2 ^ (-126 : ℤ) := rfl
      _ ≤ 2 ^ (-1 : ℤ) := this
      _ = 1 / 2 := by norm_num
  refine le_trans ?_ (mul_le_round_of_normal hnormal)
  have hbound : (127 / 128 : ℚ) ≤ 1 - 2 ^ (-24 : ℤ) := by norm_num
  exact mul_le_mul_of_nonneg_left hbound (by linarith)

theorem single_round_int (z : ℤ) : ∃ z' : ℤ, single.round z = z' :=
  (round_multiple (multiple_intCast z)).intCast

/-- The quotient of `neededBuckets` before `ceilf`. -/
theorem single_quotient (h0 : 0 < lf) (h1 : lf ≤ 1) (m : Nat) :
    (m : ℚ) / lf * (127 / 128) ^ 2 ≤ single.round (single.round m / lf) := by
  have hm : (m : ℚ) * (127 / 128) ≤ single.round m := by
    exact_mod_cast single_loss_of_int (Int.natCast_nonneg m)
  have hdiv : (m : ℚ) / lf * (127 / 128) ≤ single.round m / lf := by
    rw [div_mul_eq_mul_div]
    exact div_le_div_of_nonneg_right hm h0.le
  rcases Nat.eq_zero_or_pos m with rfl | hpos
  · rw [Nat.cast_zero, zero_div, zero_mul]
    refine round_nonneg (div_nonneg (round_nonneg le_rfl) h0.le)
  · have hone : (1 : ℚ) ≤ m / lf := by
      rw [one_le_div h0]
      exact h1.trans (by exact_mod_cast hpos)
    have hloss := single_loss (q := single.round m / lf) (by linarith)
    linarith

theorem neededBuckets_le (h0 : 0 < lf) (h1 : lf ≤ 1) (h : neededBuckets m lf = some count) :
    (m : ℚ) / lf * (127 / 128) ^ 3 ≤ count - 127 / 128 := by
  unfold neededBuckets at h
  split at h
  · cases h
  rename_i r1 hr1
  split at h
  · cases h
  rename_i r2 hr2
  split at h
  · cases h
  rename_i r3 hr3
  obtain rfl := toSingle_some hr1
  have hq := single_quotient h0 h1 m
  rw [← toSingle_some hr2] at hq
  have hnn : 0 ≤ (m : ℚ) / lf := by positivity
  have hceil : 0 ≤ ⌈r2⌉ := Int.ceil_nonneg (le_trans (by positivity) hq)
  have hle := Int.le_ceil r2
  -- the last sum is an integer and stays one
  have hsum : (⌈r2⌉ : ℚ) + 1 = ((⌈r2⌉ + 1 : ℤ) : ℚ) := by push_cast; rfl
  have hloss := single_loss_of_int (z := ⌈r2⌉ + 1) (by omega)
  obtain ⟨z, hz⟩ := single_round_int (⌈r2⌉ + 1)
  have hr3' := toSingle_some hr3
  rw [hsum, hz] at hr3'
  rw [hr3'] at h
  have hcount := toSize_some h
  rw [hz] at hloss
  have hzc : (z : ℚ) ≤ count := by
    have : z ≤ (count : ℤ) := by omega
    exact_mod_cast this
  have hpow : (m : ℚ) / lf * (127 / 128) ^ 3 ≤ ⌈r2⌉ * (127 / 128) := by
    rw [pow_succ, ← mul_assoc]
    exact mul_le_mul_of_nonneg_right (hq.trans hle) (by norm_num)
  linarith

theorem allowedEntries_bounds (h0 : 0 < lf) (h1 : lf ≤ 1) (hlf : Multiple (-149) lf)
    (hround : single.round (n - 1 : Nat) ≤ (n - 1 : Nat)) (h : allowedEntries n lf = some c) :
    c ≤ n - 1 ∧ ((n - 1 : Nat) : ℚ) * lf * (127 / 128) ^ 2 ≤ c := by
  unfold allowedEntries at h
  split at h
  · cases h
  rename_i r1 hr1
  split at h
  · cases h
  rename_i r2 hr2
  have hr1' := toSingle_some hr1
  have hr2' := toSingle_some hr2
  have hc := toSize_some h
  have hnn : 0 ≤ r1 := hr1' ▸ round_nonneg (by positivity)
  have hr2nn : 0 ≤ r2 := hr2' ▸ round_nonneg (mul_nonneg hnn h0.le)
  have hceil : 0 ≤ ⌈r2⌉ := Int.ceil_nonneg hr2nn
  constructor
  · -- the product is not above the rounded number of buckets, nor is its rounding
    have hle : r2 ≤ r1 := by
      rcases hnn.eq_or_lt with hz | hpos
      · rw [hr2', ← hz, zero_mul]
        exact (round_of_multiple ⟨0, by simp⟩).le
      · have hprod : r1 * lf ≤ r1 := mul_le_of_le_one_right hnn h1
        rw [hr2']
        refine round_le_of_multiple hprod ?_
        rw [hr1'] at hpos hprod ⊢
        exact (round_multiple_unit _).mono
          (unitExp_mono (mul_pos hpos h0) (hprod.trans hround))
    have hup : ⌈r2⌉ ≤ ((n - 1 : Nat) : ℤ) :=
      Int.ceil_le.mpr (by exact_mod_cast hle.trans (hr1' ▸ hround))
    omega
  · obtain ⟨z, hz⟩ := single_round_int ((n - 1 : Nat) : ℤ)
    have hloss1 := single_loss_of_int (Int.natCast_nonneg (n - 1))
    push_cast at hz hloss1
    rw [← hr1'] at hz hloss1
    have hloss2 : r1 * lf * (127 / 128) ≤ r2 :=
      hr2' ▸ single_loss_of_multiple (mul_nonneg hnn h0.le) (hz ▸ hlf.mul_int z)
    have hcq : r2 ≤ c := by
      have hcz : (⌈r2⌉ : ℚ) = c := by
        rw [hc]
        exact_mod_cast (Int.toNat_of_nonneg hceil).symm
      exact hcz ▸ Int.le_ceil r2
    have hmul := mul_le_mul_of_nonneg_right hloss1 h0.le
    nlinarith

end Bounds

/-! ## The primes -/

theorem prime_of_factors {p : ℕ} (a : ZMod p) (fs : List ℕ) (hprod : fs.prod = p - 1)
    (hprimes : ∀ q ∈ fs, q.Prime) (hone : a ^ (p - 1) = 1)
    (hne : ∀ q ∈ fs, a ^ ((p - 1) / q) ≠ 1) : p.Prime := by
  refine lucas_primality p a hone fun q hq hdvd => hne q ?_
  rw [← hprod] at hdvd
  exact mem_list_primes_of_dvd_prod hq.prime (fun r hr => (hprimes r hr).prime) hdvd

theorem prime_421439783 : Nat.Prime 421439783 :=
  prime_of_factors 5 [2, 53, 67, 59341] (by norm_num) (by norm_num)
    (by norm_num; reduce_mod_char) (by norm_num; reduce_mod_char; decide)

theorem prime_842879579 : Nat.Prime 842879579 :=
  prime_of_factors 2 [2, 61, 313, 22073] (by norm_num) (by norm_num)
    (by norm_num; reduce_mod_char) (by norm_num; reduce_mod_char; decide)

theorem prime_1685759167 : Nat.Prime 1685759167 :=
  prime_of_factors 6 [2, 3, 3, 7, 13, 1029157] (by norm_num) (by norm_num)
    (by norm_num; reduce_mod_char) (by norm_num; reduce_mod_char; decide)

theorem prime_of_mem_PRIMES (h : n ∈ PRIMES) (h0 : n ≠ 0) : n.Prime := by
  simp only [PRIMES, List.mem_cons, List.not_mem_nil, or_false] at h
  rcases h with rfl | rfl | rfl | rfl | rfl | rfl | rfl | rfl | rfl | rfl | rfl | rfl | rfl | rfl |
    rfl | rfl | rfl | rfl | rfl | rfl | rfl | rfl | rfl | rfl | rfl | rfl | rfl | rfl | rfl | rfl
  all_goals first
    | exact prime_421439783
    | exact prime_842879579
    | exact prime_1685759167
    | exact absurd rfl h0
    | norm_num

/-- A number of buckets one below a prime of the table is not rounded up. -/
theorem round_pred_le (h : n ∈ PRIMES) : single.round (n - 1 : Nat) ≤ (n - 1 : Nat) := by
  have hall : ∀ p ∈ PRIMES, single.round (p - 1 : Nat) ≤ (p - 1 : Nat) := by decide +kernel
  exact hall n h

/-- The sizes for a capacity `m`. -/
structure Sizing (m n c : Nat) : Prop where
  prime : n.Prime
  lt : c < n
  covers : 15 * m ≤ 16 * c + 1

theorem determineCapacity_sizing {m c : Nat} {loadFactor : Binary32}
    (h : determineCapacity m loadFactor = .ok (n, c)) : Sizing m n c := by
  cases loadFactor with
  | nan => cases h
  | inf b => cases h
  | finite lf hrep =>
    simp only [determineCapacity] at h
    split at h
    · cases h
    rename_i hlf
    push Not at hlf
    obtain ⟨h0, h1⟩ := hlf
    split at h
    · cases h
    rename_i count hcount
    split at h
    · cases h
    rename_i p hfind
    split at h
    · cases h
    rename_i hp0
    split at h
    · cases h
    rename_i c' hc
    obtain ⟨rfl, rfl⟩ := Prod.mk.inj (Except.ok.inj h)
    have hmem := List.mem_of_find?_eq_some hfind
    have hle : count ≤ p := by simpa using List.find?_some hfind
    have hprime := prime_of_mem_PRIMES hmem hp0
    have hmul : Multiple (-149) lf := by
      have := hrep.multiple
      rwa [abs_of_pos h0] at this
    obtain ⟨hup, hlow⟩ := allowedEntries_bounds h0 h1 hmul (round_pred_le hmem) hc
    refine ⟨hprime, by have := hprime.pos; omega, ?_⟩
    have hneed := neededBuckets_le h0 h1 hcount
    have hpq : ((p - 1 : Nat) : ℚ) = p - 1 := by
      rw [Nat.cast_sub hprime.one_le, Nat.cast_one]
    have hcp : (count : ℚ) ≤ p := by exact_mod_cast hle
    -- put the bound on the number of buckets into that on the capacity
    have hchain : (m : ℚ) * (127 / 128) ^ 3 ≤ (((p - 1 : Nat) : ℚ) + 1 / 128) * lf := by
      have hmul' := mul_le_mul_of_nonneg_right
        (hneed.trans (sub_le_sub_right hcp (127 / 128))) h0.le
      have hcancel : (m : ℚ) / lf * (127 / 128) ^ 3 * lf = m * (127 / 128) ^ 3 := by
        field_simp
      rw [hcancel] at hmul'
      rw [hpq]
      linarith
    have hq : (15 * m : ℚ) ≤ 16 * c' + 1 := by
      have hm0 : (0 : ℚ) ≤ m := Nat.cast_nonneg m
      nlinarith
    exact_mod_cast hq

end SystemCore.Libutils.BasicHashtable
