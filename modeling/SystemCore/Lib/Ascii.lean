import Mathlib.Data.List.TakeWhile
import Mathlib.Data.Nat.Digits.Defs

/-!
# Texts of ASCII characters

A text is the list of its bytes. A number is written as its decimal digits, the highest first, and
read back digit by digit.
-/
namespace SystemCore.Lib

open List

def ascii (s : String) : List UInt8 := s.toList.map fun c => c.toNat.toUInt8

/-- `isspace` of the C locale. -/
def isSpace (c : UInt8) : Bool := c = 32 ∨ 9 ≤ c ∧ c ≤ 13

/-- A C string is read to its end. -/
theorem takeWhile_of_zero_not_mem {l : List UInt8} (h : 0 ∉ l) : l.takeWhile (· ≠ 0) = l := by
  rw [takeWhile_eq_self_iff]
  intro c hc
  exact decide_eq_true fun hzero => h (hzero ▸ hc)

/-! ## Decimal numerals -/

def isDigit (c : UInt8) : Bool := 48 ≤ c ∧ c ≤ 57

def decimalDigit (d : Nat) : UInt8 := UInt8.ofNat (48 + d)

def decimal (n : Nat) : List UInt8 :=
  if n = 0 then [48] else (Nat.digits 10 n).reverse.map decimalDigit

def decimalValue (ds : List UInt8) : Nat := ds.foldl (fun n c => n * 10 + (c.toNat - 48)) 0

theorem toNat_decimalDigit {d : Nat} (h : d < 10) : (decimalDigit d).toNat = 48 + d := by
  rw [decimalDigit, UInt8.toNat_ofNat', Nat.mod_eq_of_lt (by omega)]

theorem isDigit_decimalDigit {d : Nat} (h : d < 10) : isDigit (decimalDigit d) = true := by
  have hd := toNat_decimalDigit h
  apply decide_eq_true
  rw [UInt8.le_iff_toNat_le, UInt8.le_iff_toNat_le, hd, show (48 : UInt8).toNat = 48 from rfl,
    show (57 : UInt8).toNat = 57 from rfl]
  omega

theorem isDigit_of_mem_decimal {n : Nat} {c : UInt8} (h : c ∈ decimal n) : isDigit c = true := by
  unfold decimal at h
  split at h
  · rw [mem_singleton.mp h]
    decide
  · obtain ⟨d, hd, rfl⟩ := mem_map.mp h
    exact isDigit_decimalDigit (Nat.digits_lt_base (by decide) (mem_reverse.mp hd))

theorem decimal_ne_nil (n : Nat) : decimal n ≠ [] := by
  unfold decimal
  split
  · exact cons_ne_nil _ _
  · rename_i h
    rw [Ne, map_eq_nil_iff, reverse_eq_nil_iff]
    exact Nat.digits_ne_nil_iff_ne_zero.mpr h

theorem decimalValue_decimal (n : Nat) : decimalValue (decimal n) = n := by
  unfold decimal
  split
  · rename_i h
    rw [h]
    rfl
  · -- the digits from the lowest on, read from the end
    have hfold : ∀ ds : List Nat, (∀ d ∈ ds, d < 10) →
        decimalValue (ds.reverse.map decimalDigit) = Nat.ofDigits 10 ds := by
      intro ds hds
      induction ds with
      | nil => rfl
      | cons d ds ih =>
        have hd := toNat_decimalDigit (hds d mem_cons_self)
        have hrest := ih fun d' hd' => hds d' (mem_cons_of_mem d hd')
        rw [decimalValue] at hrest ⊢
        rw [reverse_cons, map_append, foldl_append, hrest, Nat.ofDigits_cons]
        simp only [map_cons, map_nil, foldl_cons, foldl_nil, hd]
        omega
    rw [hfold _ fun d hd => Nat.digits_lt_base (by decide) hd, Nat.ofDigits_digits]

end SystemCore.Lib
