import Mathlib.Tactic.Ring

/-!
# Numbers as little-endian bytes

`toBytes w n` is the low `w` bytes of `n`, least first, and `ofBytes` reads them
back. A field of a record is read from its place in the bytes of the record.
-/
namespace SystemCore.Lib.LittleEndian

def toBytes : Nat → Nat → List UInt8
  | 0, _ => []
  | w + 1, n => UInt8.ofNat n :: toBytes w (n / 256)

def ofBytes : List UInt8 → Nat
  | [] => 0
  | b :: bs => b.toNat + 256 * ofBytes bs

/-- The number in the `w` bytes from place `at_` on. -/
def field (at_ w : Nat) (bytes : List UInt8) : Nat := ofBytes ((bytes.drop at_).take w)

@[simp] theorem toBytes_length (w n : Nat) : (toBytes w n).length = w := by
  induction w generalizing n with
  | zero => rfl
  | succ w ih => simp [toBytes, ih]

theorem ofBytes_toBytes (w n : Nat) (h : n < 256 ^ w) : ofBytes (toBytes w n) = n := by
  induction w generalizing n with
  | zero => simp only [pow_zero, Nat.lt_one_iff] at h; rw [h]; rfl
  | succ w ih =>
    have hd : n / 256 < 256 ^ w := by
      apply Nat.div_lt_of_lt_mul
      rwa [pow_succ, Nat.mul_comm] at h
    rw [toBytes, ofBytes, ih _ hd, UInt8.toNat_ofNat']
    omega

theorem toBytes_ofBytes (l : List UInt8) : toBytes l.length (ofBytes l) = l := by
  induction l with
  | nil => rfl
  | cons b l ih =>
    have hb := b.toNat_lt
    have hdiv : (b.toNat + 256 * ofBytes l) / 256 = ofBytes l := by omega
    rw [List.length_cons, toBytes, ofBytes, hdiv, ih, UInt8.ofNat_add, UInt8.ofNat_toNat,
      UInt8.ofNat_mul]
    simp

theorem ofBytes_lt (l : List UInt8) : ofBytes l < 256 ^ l.length := by
  induction l with
  | nil => simp [ofBytes]
  | cons b l ih =>
    have hb := b.toNat_lt
    rw [ofBytes, List.length_cons, pow_succ]
    omega

theorem ofBytes_append (l l' : List UInt8) :
    ofBytes (l ++ l') = ofBytes l + 256 ^ l.length * ofBytes l' := by
  induction l with
  | nil => simp [ofBytes]
  | cons b l ih =>
    rw [List.cons_append, ofBytes, ofBytes, ih, List.length_cons, pow_succ]
    ring

/-- A place behind a number is a place in what follows the number. -/
theorem field_skip {at_ k : Nat} (h : k ≤ at_) (w n : Nat) (post : List UInt8) :
    field at_ w (toBytes k n ++ post) = field (at_ - k) w post := by
  rw [field, field, List.drop_append, toBytes_length,
    List.drop_eq_nil_of_le (by rw [toBytes_length]; exact h), List.nil_append]

variable {w n : Nat}

theorem field_head (h : n < 256 ^ w) (post : List UInt8) : field 0 w (toBytes w n ++ post) = n := by
  rw [field, List.drop_zero, List.take_left' (toBytes_length w n), ofBytes_toBytes w n h]

theorem field_last (h : n < 256 ^ w) : field 0 w (toBytes w n) = n := by
  rw [field, List.drop_zero, List.take_of_length_le (by simp), ofBytes_toBytes w n h]

end SystemCore.Lib.LittleEndian
