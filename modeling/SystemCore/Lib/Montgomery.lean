import Mathlib.Data.Nat.Digits.Defs
import Mathlib.Data.Nat.ModEq

/-!
# Montgomery multiplication

A product is built up from the digits of one factor, least first. After each digit a multiple of
the modulus is added that makes the sum divisible by the base, and the sum is divided by it. The
value stays below the range `R` if the modulus is taken off once whenever it leaves the range.
-/
namespace SystemCore.Lib.Montgomery

section
variable {β n n' R c a b : Nat}

/-- The multiple of the modulus that makes `t` divisible by the base. -/
def factor (β n' t : Nat) : Nat := t % β * n' % β

/-- Add the product with a digit and divide by the base. -/
def addDigit (β n n' c a b : Nat) : Nat := (c + a * b + factor β n' (c + a * b) * n) / β

/-- With `n'` the negated inverse of the modulus the division has no remainder. -/
theorem dvd_add_factor (hinv : β ∣ n * n' + 1) (t : Nat) : β ∣ t + factor β n' t * n := by
  have hmod : t + factor β n' t * n ≡ t * (n * n' + 1) [MOD β] := by
    have hfactor : factor β n' t ≡ t * n' [MOD β] :=
      (Nat.mod_modEq _ _).trans ((Nat.mod_modEq t β).mul_right n')
    calc t + factor β n' t * n ≡ t + t * n' * n [MOD β] :=
          (hfactor.mul_right n).add_left t
      _ = t * (n * n' + 1) := by ring
  exact (hmod.dvd_iff (dvd_refl β)).mpr (hinv.mul_left t)

theorem mul_addDigit (hinv : β ∣ n * n' + 1) (c a b : Nat) :
    β * addDigit β n n' c a b = c + a * b + factor β n' (c + a * b) * n :=
  Nat.mul_div_cancel' (dvd_add_factor hinv _)

theorem mul_addDigit_modEq (hinv : β ∣ n * n' + 1) (c a b : Nat) :
    β * addDigit β n n' c a b ≡ c + a * b [MOD n] := by
  rw [mul_addDigit hinv]
  exact (Nat.modEq_iff_dvd' (Nat.le_add_right _ _)).mpr (by simp) |>.symm

theorem factor_lt (hβ : 0 < β) (n' t : Nat) : factor β n' t < β := Nat.mod_lt _ hβ

/-- The sum leaves the range by less than the modulus. -/
theorem addDigit_lt (n n' : Nat) (hβ : 0 < β) (hc : c < R) (hb : b ≤ R) (ha : a < β) :
    addDigit β n n' c a b < R + n := by
  have hfactor := factor_lt hβ n' (c + a * b)
  refine (Nat.div_lt_iff_lt_mul hβ).mpr ?_
  have hab : a * b ≤ (β - 1) * R := Nat.mul_le_mul (Nat.le_sub_one_of_lt ha) hb
  have hfn : factor β n' (c + a * b) * n ≤ (β - 1) * n :=
    Nat.mul_le_mul_right n (Nat.le_sub_one_of_lt hfactor)
  obtain ⟨β, rfl⟩ : ∃ k, β = k + 1 := ⟨β - 1, by omega⟩
  rw [Nat.add_sub_cancel] at hab hfn
  calc c + a * b + factor (β + 1) n' (c + a * b) * n < R + β * R + (β * n + n) := by omega
    _ = (R + n) * (β + 1) := by ring

def step (R β n n' c a b : Nat) : Nat :=
  if R ≤ addDigit β n n' c a b then addDigit β n n' c a b - n else addDigit β n n' c a b

theorem mul_step_modEq (hinv : β ∣ n * n' + 1) (hn : n ≤ R) :
    β * step R β n n' c a b ≡ c + a * b [MOD n] := by
  refine Nat.ModEq.trans (Nat.ModEq.mul_left β ?_) (mul_addDigit_modEq hinv c a b)
  unfold step
  split_ifs with hR
  · exact Nat.ModEq.symm ((Nat.modEq_iff_dvd' (Nat.sub_le _ _)).mpr
      (by rw [Nat.sub_sub_self (hn.trans hR)])) |>.symm
  · exact Nat.ModEq.refl _

def product (R β n n' b : Nat) (c : Nat) (digits : List Nat) : Nat :=
  digits.foldl (fun c a => step R β n n' c a b) c

/-- The product, up to a power of the base. -/
theorem pow_mul_product_modEq (digits : List Nat) (hinv : β ∣ n * n' + 1) (hn : n ≤ R) :
    β ^ digits.length * product R β n n' b c digits ≡ c + Nat.ofDigits β digits * b [MOD n] := by
  induction digits generalizing c with
  | nil => simp [product, Nat.ModEq.refl]
  | cons a digits ih =>
    have hstep : β * step R β n n' c a b ≡ c + a * b [MOD n] := mul_step_modEq hinv hn
    calc β ^ (a :: digits).length * product R β n n' b c (a :: digits)
        = β * (β ^ digits.length * product R β n n' b (step R β n n' c a b) digits) := by
          rw [List.length_cons, pow_succ, product, List.foldl_cons, product]
          ring
      _ ≡ β * (step R β n n' c a b + Nat.ofDigits β digits * b) [MOD n] := ih.mul_left β
      _ = β * step R β n n' c a b + β * (Nat.ofDigits β digits * b) := by ring
      _ ≡ c + a * b + β * (Nat.ofDigits β digits * b) [MOD n] := hstep.add_right _
      _ = c + Nat.ofDigits β (a :: digits) * b := by
          rw [Nat.ofDigits_cons]
          ring

end

/-! ## Montgomery form -/

section
variable {R n x y z X Y : Nat}
  (hcoprime : n.Coprime R) (hz : R * z ≡ x * y [MOD n]) (hx : x ≡ X * R [MOD n])

include hcoprime hz hx in
/-- The product of two numbers in Montgomery form is in Montgomery form. -/
theorem form_mul (hy : y ≡ Y * R [MOD n]) : z ≡ X * Y * R [MOD n] := by
  refine Nat.ModEq.cancel_left_of_coprime hcoprime ?_
  calc R * z ≡ x * y [MOD n] := hz
    _ ≡ X * R * (Y * R) [MOD n] := hx.mul hy
    _ = R * (X * Y * R) := by ring

include hcoprime hz hx in
/-- A product with a plain number leaves Montgomery form. -/
theorem form_leave : z ≡ X * y [MOD n] := by
  refine Nat.ModEq.cancel_left_of_coprime hcoprime ?_
  calc R * z ≡ x * y [MOD n] := hz
    _ ≡ X * R * y [MOD n] := hx.mul_right y
    _ = R * (X * y) := by ring

include hcoprime hz in
/-- A product with the square of `R` enters Montgomery form. -/
theorem form_enter (hy : y ≡ R ^ 2 [MOD n]) : z ≡ x * R [MOD n] := by
  refine Nat.ModEq.cancel_left_of_coprime hcoprime ?_
  calc R * z ≡ x * y [MOD n] := hz
    _ ≡ x * R ^ 2 [MOD n] := hy.mul_left x
    _ = R * (x * R) := by ring

end

end SystemCore.Lib.Montgomery
