import Mathlib.Data.UInt
import SystemCore.Libutils.UnicodeMeasure
import Mathlib.Tactic.IntervalCases

/-!
# Round trips

A Lean `Char` is a Unicode scalar value, a code point that is no surrogate, and
`String.utf8EncodeChar` is its standard encoding. In UTF-16 it is one unit for a character of the
basic plane, and a high and a low surrogate for any other. For one character the encoder and the two decoders are
computed on the bits; a text follows by induction, as the decoders stand at the start of a character
before every round.
-/
namespace SystemCore.Libutils.Unicode

open Lib List

/-! ## The standard encodings by ranges -/

theorem scalar_cases (c : Char) :
    c.val.toNat < 0xD800 ∨ 0xE000 ≤ c.val.toNat ∧ c.val.toNat < 0x110000 := by
  have valid := c.valid
  omega

inductive Utf8Form (v : Nat) : List UInt8 → Prop
  | one (h : v < 0x80) : Utf8Form v [UInt8.ofNat v]
  | two (h : 0x80 ≤ v) (h' : v < 0x800) :
      Utf8Form v [UInt8.ofNat (v / 64 + 0xC0), UInt8.ofNat (v % 64 + 0x80)]
  | three (h : 0x800 ≤ v) (h' : v < 0x10000) :
      Utf8Form v [UInt8.ofNat (v / 4096 + 0xE0), UInt8.ofNat (v / 64 % 64 + 0x80),
        UInt8.ofNat (v % 64 + 0x80)]
  | four (h : 0x10000 ≤ v) (h' : v < 0x110000) :
      Utf8Form v [UInt8.ofNat (v / 262144 + 0xF0), UInt8.ofNat (v / 4096 % 64 + 0x80),
        UInt8.ofNat (v / 64 % 64 + 0x80), UInt8.ofNat (v % 64 + 0x80)]

theorem utf8Form_utf8EncodeChar (c : Char) : Utf8Form c.val.toNat (String.utf8EncodeChar c) := by
  have scalar := scalar_cases c
  rw [String.utf8EncodeChar]
  generalize c.val.toNat = v at scalar
  split
  · exact .one (by omega)
  · split
    · rw [Nat.mod_eq_of_lt (by omega : v / 64 < 32)]
      exact .two (by omega) (by omega)
    · split
      · rw [Nat.mod_eq_of_lt (by omega : v / 4096 < 16)]
        exact .three (by omega) (by omega)
      · rw [Nat.mod_eq_of_lt (by omega : v / 262144 < 8)]
        exact .four (by omega) (by omega)

def utf16EncodeChar (c : Char) : List UInt16 :=
  let v := c.val.toNat
  if v < 0x10000 then [UInt16.ofNat v]
  else [UInt16.ofNat (0xD800 + (v - 0x10000) / 0x400), UInt16.ofNat (0xDC00 + (v - 0x10000) % 0x400)]

/-! ## One character to UTF-8 -/

theorem trailByte_eq (x : UInt32) :
    ((x ||| kByteMark) &&& kByteMask).toUInt8 = UInt8.ofNat (x.toNat % 64 + 128) := by
  have byte : ∀ y < 256, (y ||| 0x80) &&& 0xBF = y % 64 + 128 := by decide +kernel
  have low := byte (x.toNat % 2 ^ 8) (Nat.mod_lt _ (by decide))
  rw [← UInt8.toNat_inj, UInt32.toNat_toUInt8, UInt32.toNat_and, UInt32.toNat_or,
    Nat.and_mod_two_pow, Nat.or_mod_two_pow, UInt8.toNat_ofNat']
  refine low.trans ?_
  omega

theorem leadByte_eq (x mark : UInt32) (disjoint : x.toNat ||| mark.toNat = x.toNat + mark.toNat) :
    (x ||| mark).toUInt8 = UInt8.ofNat (x.toNat + mark.toNat) := by
  rw [← UInt8.toNat_inj, UInt32.toNat_toUInt8, UInt32.toNat_or, disjoint, UInt8.toNat_ofNat']

theorem toNat_shiftRight_six (x : UInt32) : (x >>> 6).toNat = x.toNat / 64 := by
  rw [UInt32.toNat_shiftRight, Nat.shiftRight_eq_div_pow]
  rfl

variable (c : Char)

theorem codepointBytes_val : codepointBytes c.val = String.utf8EncodeChar c := by
  have scalar := scalar_cases c
  have form := utf8Form_utf8EncodeChar c
  rw [codepointBytes, utf32CodepointUtf8Length_eq]
  generalize String.utf8EncodeChar c = bytes at form
  generalize c.val = v at scalar form
  have half : (v >>> 6 >>> 6).toNat = v.toNat / 4096 := by
    rw [toNat_shiftRight_six, toNat_shiftRight_six, Nat.div_div_eq_div_mul]
  have last : (v >>> 6 >>> 6 >>> 6).toNat = v.toNat / 262144 := by
    rw [toNat_shiftRight_six, half, Nat.div_div_eq_div_mul]
  cases form with
  | one h =>
    rw [if_pos h]
    simp [utf32CodepointToUtf8, fallThrough, kFirstByteMark]
  | two h h' =>
    have disjoint : ∀ y < 32, y ||| 0xC0 = y + 0xC0 := by decide
    have lead := leadByte_eq (v >>> 6) 0xC0
      (by rw [toNat_shiftRight_six]; exact disjoint _ (by omega))
    rw [if_neg (by omega), if_pos h']
    simp only [utf32CodepointToUtf8, fallThrough, kFirstByteMark, lead, trailByte_eq,
      toNat_shiftRight_six]
    rfl
  | three h h' =>
    have disjoint : ∀ y < 16, y ||| 0xE0 = y + 0xE0 := by decide
    have lead := leadByte_eq (v >>> 6 >>> 6) 0xE0
      (by rw [half]; exact disjoint _ (by omega))
    rw [if_neg (by omega), if_neg (by omega), if_pos h', if_pos (by omega)]
    simp only [utf32CodepointToUtf8, fallThrough, kFirstByteMark, lead, trailByte_eq, half,
      toNat_shiftRight_six v]
    rfl
  | four h h' =>
    have disjoint : ∀ y < 8, y ||| 0xF0 = y + 0xF0 := by decide
    have lead := leadByte_eq (v >>> 6 >>> 6 >>> 6) 0xF0
      (by rw [last]; exact disjoint _ (by omega))
    rw [if_neg (by omega), if_neg (by omega), if_neg (by omega), if_pos (by omega)]
    simp only [utf32CodepointToUtf8, fallThrough, kFirstByteMark, lead, trailByte_eq, half, last,
      toNat_shiftRight_six v]
    rfl

/-! ## One character from UTF-8 -/

/-- The bytes at `cur` and behind it. -/
def Holds (mem : Nat → UInt8) : Nat → List UInt8 → Prop
  | _, [] => True
  | cur, b :: bytes => mem cur = b ∧ Holds mem (cur + 1) bytes

theorem holds_append (mem : Nat → UInt8) (cur : Nat) (xs ys : List UInt8) :
    Holds mem cur (xs ++ ys) ↔ Holds mem cur xs ∧ Holds mem (cur + xs.length) ys := by
  induction xs generalizing cur with
  | nil => simp [Holds]
  | cons x xs ih =>
    simp only [cons_append, Holds, ih, length_cons, and_assoc]
    rw [Nat.add_right_comm, Nat.add_assoc]

theorem utf8CodepointLen_eq (ch : UInt8) :
    utf8CodepointLen ch =
      if ch.toNat < 0xC0 then 1 else if ch.toNat < 0xE0 then 2
      else if ch.toNat < 0xF0 then 3 else 4 := by
  have all : ∀ n < 256, utf8CodepointLen (UInt8.ofNat n) =
      if n < 0xC0 then 1 else if n < 0xE0 then 2 else if n < 0xF0 then 3 else 4 := by
    decide +kernel
  have this := all ch.toNat ch.toNat_lt
  rwa [UInt8.ofNat_toNat] at this

theorem toNat_utf8ShiftAndMask (codePoint : UInt32) (byte : UInt8)
    (small : codePoint.toNat < 2 ^ 26) :
    (utf8ShiftAndMask codePoint byte).toNat = 64 * codePoint.toNat + byte.toNat % 64 := by
  have shifted : (codePoint <<< 6).toNat = 2 ^ 6 * codePoint.toNat := by
    rw [UInt32.toNat_shiftLeft, Nat.shiftLeft_eq, Nat.mul_comm]
    exact Nat.mod_eq_of_lt (show 2 ^ 6 * codePoint.toNat < 2 ^ 32 by omega)
  have low : (0x3F &&& byte).toUInt32.toNat = byte.toNat % 2 ^ 6 := by
    rw [UInt8.toNat_toUInt32, UInt8.toNat_and, Nat.and_comm]
    exact Nat.and_two_pow_sub_one_eq_mod _ 6
  rw [utf8ShiftAndMask, UInt32.toNat_or, shifted, low,
    ← Nat.two_pow_add_eq_or_of_lt (Nat.mod_lt _ (by decide))]

/-- The bits of the lead byte that belong to the code point. -/
theorem toNat_leadBits (byte : UInt8) (k : Nat) (hk : k ≤ 8) :
    (byte &&& UInt8.ofNat (2 ^ k - 1)).toUInt32.toNat = byte.toNat % 2 ^ k := by
  have fits : 2 ^ k ≤ 2 ^ 8 := Nat.pow_le_pow_right (by decide) hk
  rw [UInt8.toNat_toUInt32, UInt8.toNat_and, UInt8.toNat_ofNat',
    Nat.mod_eq_of_lt (by have := Nat.two_pow_pos k; omega), Nat.and_two_pow_sub_one_eq_mod]

theorem toNat_codepoint_two (mem : Nat → UInt8) (cur : Nat) :
    (utf8ToUtf32Codepoint mem cur 2).val.toNat =
      64 * ((mem cur).toNat % 32) + (mem (cur + 1)).toNat % 64 := by
  have lead : (mem cur &&& 0x1f).toUInt32.toNat = (mem cur).toNat % 32 :=
    toNat_leadBits (mem cur) 5 (by decide)
  rw [utf8ToUtf32Codepoint, toNat_utf8ShiftAndMask _ _ (by omega), lead]

theorem toNat_codepoint_three (mem : Nat → UInt8) (cur : Nat) :
    (utf8ToUtf32Codepoint mem cur 3).val.toNat =
      4096 * ((mem cur).toNat % 16) + 64 * ((mem (cur + 1)).toNat % 64) +
        (mem (cur + 2)).toNat % 64 := by
  have lead : (mem cur &&& 0x0f).toUInt32.toNat = (mem cur).toNat % 16 :=
    toNat_leadBits (mem cur) 4 (by decide)
  have second := toNat_utf8ShiftAndMask _ (mem (cur + 1)) (by rw [lead]; omega)
  rw [utf8ToUtf32Codepoint, toNat_utf8ShiftAndMask _ _ (by omega), second, lead]
  omega

theorem toNat_codepoint_four (mem : Nat → UInt8) (cur : Nat) :
    (utf8ToUtf32Codepoint mem cur 4).val.toNat =
      262144 * ((mem cur).toNat % 8) + 4096 * ((mem (cur + 1)).toNat % 64) +
        64 * ((mem (cur + 2)).toNat % 64) + (mem (cur + 3)).toNat % 64 := by
  have lead : (mem cur &&& 0x07).toUInt32.toNat = (mem cur).toNat % 8 :=
    toNat_leadBits (mem cur) 3 (by decide)
  have second := toNat_utf8ShiftAndMask _ (mem (cur + 1)) (by rw [lead]; omega)
  have third := toNat_utf8ShiftAndMask _ (mem (cur + 2)) (by rw [second]; omega)
  rw [utf8ToUtf32Codepoint, toNat_utf8ShiftAndMask _ _ (by omega), third, second, lead]
  omega

/-- The bytes of a character, as numbers, by the length of its form. -/
inductive HeldForm (mem : Nat → UInt8) (cur v : Nat) : Nat → Prop
  | one (h : v < 0x80) (h0 : (mem cur).toNat = v) : HeldForm mem cur v 1
  | two (h : 0x80 ≤ v) (h' : v < 0x800) (h0 : (mem cur).toNat = v / 64 + 0xC0)
      (h1 : (mem (cur + 1)).toNat = v % 64 + 0x80) : HeldForm mem cur v 2
  | three (h : 0x800 ≤ v) (h' : v < 0x10000) (h0 : (mem cur).toNat = v / 4096 + 0xE0)
      (h1 : (mem (cur + 1)).toNat = v / 64 % 64 + 0x80)
      (h2 : (mem (cur + 2)).toNat = v % 64 + 0x80) : HeldForm mem cur v 3
  | four (h : 0x10000 ≤ v) (h' : v < 0x110000) (h0 : (mem cur).toNat = v / 262144 + 0xF0)
      (h1 : (mem (cur + 1)).toNat = v / 4096 % 64 + 0x80)
      (h2 : (mem (cur + 2)).toNat = v / 64 % 64 + 0x80)
      (h3 : (mem (cur + 3)).toNat = v % 64 + 0x80) : HeldForm mem cur v 4

variable {mem : Nat → UInt8} {cur n : Nat} {v : UInt32} (t : Target) (cs : List Char)
  (src : List UInt16)

theorem heldForm_of_holds {c : Char} (held : Holds mem cur (String.utf8EncodeChar c)) :
    HeldForm mem cur c.val.toNat (String.utf8EncodeChar c).length := by
  have form := utf8Form_utf8EncodeChar c
  have byte : ∀ {n : Nat} {b : UInt8}, b = UInt8.ofNat n → n < 256 → b.toNat = n := by
    intro n b hb small
    rw [hb, UInt8.toNat_ofNat', Nat.mod_eq_of_lt small]
  generalize String.utf8EncodeChar c = bytes at form held
  generalize c.val.toNat = v at form
  cases form with
  | one h => exact .one h (byte held.1 (by omega))
  | two h h' => exact .two h h' (byte held.1 (by omega)) (byte held.2.1 (by omega))
  | three h h' =>
    exact .three h h' (byte held.1 (by omega)) (byte held.2.1 (by omega))
      (byte held.2.2.1 (by omega))
  | four h h' =>
    exact .four h h' (byte held.1 (by omega)) (byte held.2.1 (by omega))
      (byte held.2.2.1 (by omega)) (byte held.2.2.2.1 (by omega))

theorem codepointAt_val (form : HeldForm mem cur v.toNat n) :
    utf8CodepointLen (mem cur) = n ∧ (codepointAt mem cur).val = v := by
  rw [codepointAt, ← UInt32.toNat_inj, utf8CodepointLen_eq]
  generalize v.toNat = v at form
  cases form with
  | one h h0 =>
    rw [if_pos (by omega)]
    exact ⟨rfl, (UInt8.toNat_toUInt32 _).trans h0⟩
  | two h h' h0 h1 =>
    rw [if_neg (by omega), if_pos (by omega), toNat_codepoint_two]
    omega
  | three h h' h0 h1 h2 =>
    rw [if_neg (by omega), if_neg (by omega), if_pos (by omega), toNat_codepoint_three]
    omega
  | four h h' h0 h1 h2 h3 =>
    rw [if_neg (by omega), if_neg (by omega), if_neg (by omega), toNat_codepoint_four]
    omega

/-! ## The decoder with the mask -/

theorem widen_mod (b : UInt8) : (t.widen b).toNat % 256 = b.toNat := by
  have all : ∀ n < 256, (UInt8.ofNat n).toInt8.toInt32.toUInt32.toNat % 256 = n := by
    decide +kernel
  rw [Target.widen]
  split
  · have this := all b.toNat b.toNat_lt
    rwa [UInt8.ofNat_toNat] at this
  · rw [UInt8.toNat_toUInt32]
    exact Nat.mod_eq_of_lt b.toNat_lt

theorem widen_ascii {b : UInt8} (ascii : b.toNat < 128) : (t.widen b).toNat = b.toNat := by
  have all : ∀ n < 128, (UInt8.ofNat n).toInt8.toInt32.toUInt32.toNat = n := by
    decide +kernel
  rw [Target.widen]
  split
  · have this := all b.toNat ascii
    rwa [UInt8.ofNat_toNat] at this
  · exact UInt8.toNat_toUInt32 b

theorem widen_and_bit (b : UInt8) (k : Nat) (hk : k < 8) :
    t.widen b &&& UInt32.ofNat (2 ^ k) = 0 ↔ b.toNat / 2 ^ k % 2 = 0 := by
  have low := widen_mod t b
  have fits : 2 ^ k < 2 ^ 32 := Nat.pow_lt_pow_right (by decide) (by omega)
  have same : (t.widen b).toNat / 2 ^ k % 2 = b.toNat / 2 ^ k % 2 := by
    interval_cases k <;> omega
  rw [← UInt32.toNat_inj, UInt32.toNat_and, UInt32.toNat_ofNat', Nat.mod_eq_of_lt fits,
    Nat.and_two_pow, ← same, ← Nat.toNat_testBit]
  have pos : 0 < 2 ^ k := Nat.two_pow_pos k
  cases (t.widen b).toNat.testBit k <;> simp

section Rounds

variable {mem : Nat → UInt8} {cur fuel n : Nat} {first m i u : UInt32}

theorem utf32AtLoop_round (set : first &&& m ≠ 0) :
    utf32AtLoop mem cur first (fuel + 1) ⟨n, m, i, u⟩ =
      utf32AtLoop mem cur first fuel
        ⟨n + 1, m >>> 1, i ||| m, (u <<< 6) + ((mem (cur + n)).toUInt32 &&& 0x3F)⟩ :=
  if_neg set

theorem utf32AtLoop_stop (clear : first &&& m = 0) :
    utf32AtLoop mem cur first (fuel + 1) ⟨n, m, i, u⟩ = ⟨n, m, i, u⟩ :=
  if_pos clear

theorem toNat_round (u : UInt32) (byte : UInt8) :
    ((u <<< 6) + (byte.toUInt32 &&& 0x3F)).toNat =
      (64 * u.toNat + byte.toNat % 64) % 2 ^ 32 := by
  have low : (byte.toUInt32 &&& 0x3F).toNat = byte.toNat % 64 := by
    exact Nat.and_two_pow_sub_one_eq_mod _ 6
  have high : (u <<< 6).toNat = 64 * u.toNat % 2 ^ 32 := by
    rw [UInt32.toNat_shiftLeft, Nat.shiftLeft_eq, Nat.mul_comm]
    rfl
  rw [UInt32.toNat_add, low, high, Nat.mod_add_mod]

end Rounds

/-- The shifted mask keeps the low `k` bits. -/
theorem toNat_keep {x ignore : UInt32} {shift : Nat} (k : Nat) (narrow : shift < 32)
    (keep : ~~~(ignore <<< UInt32.ofNat shift) = UInt32.ofNat (2 ^ k - 1)) (hk : k < 32) :
    (x &&& ~~~(t.shiftLeft ignore shift)).toNat = x.toNat % 2 ^ k := by
  have fits : 2 ^ k - 1 < 2 ^ 32 :=
    (Nat.sub_le _ _).trans_lt (Nat.pow_lt_pow_right (by decide) hk)
  rw [Target.shiftLeft, if_pos narrow, keep, UInt32.toNat_and, UInt32.toNat_ofNat',
    Nat.mod_eq_of_lt fits, Nat.and_two_pow_sub_one_eq_mod]

theorem utf32AtInternal_eq (form : HeldForm mem cur v.toNat n) :
    utf32AtInternal t mem cur = (v, n) := by
  have low := widen_mod t (mem cur)
  have bit7 : t.widen (mem cur) &&& 0x80 = 0 ↔ _ := widen_and_bit t (mem cur) 7 (by decide)
  have bit6 : t.widen (mem cur) &&& 0x40 = 0 ↔ _ := widen_and_bit t (mem cur) 6 (by decide)
  have bit5 : t.widen (mem cur) &&& (0x40 : UInt32) >>> 1 = 0 ↔ _ :=
    widen_and_bit t (mem cur) 5 (by decide)
  have bit4 : t.widen (mem cur) &&& (0x40 : UInt32) >>> 1 >>> 1 = 0 ↔ _ :=
    widen_and_bit t (mem cur) 4 (by decide)
  have bit3 : t.widen (mem cur) &&& (0x40 : UInt32) >>> 1 >>> 1 >>> 1 = 0 ↔ _ :=
    widen_and_bit t (mem cur) 3 (by decide)
  rw [utf32AtInternal]
  generalize hv : v.toNat = value at form
  cases form with
  | one h h0 =>
    rw [if_pos (by rw [bit7]; omega), Prod.mk.injEq, ← UInt32.toNat_inj, widen_ascii t (by omega), h0, hv]
    exact ⟨rfl, rfl⟩
  | two h h' h0 h1 =>
    rw [if_neg (by rw [bit7]; omega), utf32AtLoop_round (by rw [Ne, bit6]; omega),
      utf32AtLoop_stop (by rw [bit5]; omega)]
    dsimp only
    rw [Prod.mk.injEq, ← UInt32.toNat_inj, toNat_keep t 11 (by decide) (by decide) (by decide), toNat_round]
    omega
  | three h h' h0 h1 h2 =>
    rw [if_neg (by rw [bit7]; omega), utf32AtLoop_round (by rw [Ne, bit6]; omega),
      utf32AtLoop_round (by rw [Ne, bit5]; omega),
      utf32AtLoop_stop (by rw [bit4]; omega)]
    dsimp only
    rw [Prod.mk.injEq, ← UInt32.toNat_inj, toNat_keep t 16 (by decide) (by decide) (by decide), toNat_round, toNat_round,
      show cur + (1 + 1) = cur + 2 from rfl]
    omega
  | four h h' h0 h1 h2 h3 =>
    rw [if_neg (by rw [bit7]; omega), utf32AtLoop_round (by rw [Ne, bit6]; omega),
      utf32AtLoop_round (by rw [Ne, bit5]; omega), utf32AtLoop_round (by rw [Ne, bit4]; omega),
      utf32AtLoop_stop (by rw [bit3]; omega)]
    dsimp only
    rw [Prod.mk.injEq, ← UInt32.toNat_inj, toNat_keep t 21 (by decide) (by decide) (by decide), toNat_round, toNat_round, toNat_round,
      show cur + (1 + 1) = cur + 2 from rfl, show cur + (1 + 1 + 1) = cur + 3 from rfl]
    omega

/-! ## One character in UTF-16 -/

theorem utf16Units_val : utf16Units c.val = utf16EncodeChar c := by
  have scalar := scalar_cases c
  rw [utf16Units, utf16EncodeChar]
  generalize c.val = v at scalar
  by_cases basic : v.toNat < 0x10000
  · rw [if_pos (by rw [UInt32.le_iff_toNat_le]; exact Nat.le_of_lt_succ basic), if_pos basic]
    rfl
  · have offset : (v - 0x10000).toNat = v.toNat - 0x10000 :=
      UInt32.toNat_sub_of_le _ _ (by rw [UInt32.le_iff_toNat_le]; exact Nat.le_of_not_lt basic)
    have high : ((v - 0x10000) >>> 10).toNat = (v.toNat - 0x10000) / 1024 := by
      rw [UInt32.toNat_shiftRight, offset, Nat.shiftRight_eq_div_pow]
      rfl
    have low : ((v - 0x10000) &&& 0x3FF).toNat = (v.toNat - 0x10000) % 1024 := by
      rw [UInt32.toNat_and, offset]
      exact Nat.and_two_pow_sub_one_eq_mod _ 10
    rw [if_neg (by rw [UInt32.le_iff_toNat_le]; exact fun h => basic (Nat.lt_succ_of_le h)),
      if_neg basic]
    simp only [List.cons.injEq, and_true, ← UInt16.toNat_inj, UInt32.toNat_toUInt16,
      UInt16.toNat_ofNat', UInt32.toNat_add, high, low, UInt32.reduceToNat]
    omega

theorem codepoints_single {c : UInt16} (single : c.toNat / 1024 ≠ 54) :
    codepoints (c :: src) = c.toUInt32 :: codepoints src := by
  cases src with
  | nil => rfl
  | cons d src =>
    rw [codepoints, if_neg]
    rw [isSurrogatePair_iff]
    exact fun pair => single pair.1

theorem codepoints_pair {c d : UInt16} (pair : isSurrogatePair c d = true) :
    codepoints (c :: d :: src) = pairCodepoint c d :: codepoints src := by
  rw [codepoints, if_pos pair]

theorem codepoints_utf16EncodeChar :
    codepoints (utf16EncodeChar c ++ src) = c.val :: codepoints src := by
  have scalar := scalar_cases c
  rw [utf16EncodeChar]
  generalize c.val = v at scalar
  by_cases basic : v.toNat < 0x10000
  · have unit : (UInt16.ofNat v.toNat).toNat = v.toNat := by
      rw [UInt16.toNat_ofNat', Nat.mod_eq_of_lt basic]
    rw [if_pos basic, singleton_append, codepoints_single src (by rw [unit]; omega)]
    congr 1
    rw [← UInt32.toNat_inj, UInt16.toNat_toUInt32, unit]
  · rw [if_neg basic]
    have high : (UInt16.ofNat (0xD800 + (v.toNat - 0x10000) / 0x400)).toNat =
        0xD800 + (v.toNat - 0x10000) / 0x400 := by
      rw [UInt16.toNat_ofNat', Nat.mod_eq_of_lt (by omega)]
    have low : (UInt16.ofNat (0xDC00 + (v.toNat - 0x10000) % 0x400)).toNat =
        0xDC00 + (v.toNat - 0x10000) % 0x400 := by
      rw [UInt16.toNat_ofNat', Nat.mod_eq_of_lt (by omega)]
    have pair := (isSurrogatePair_iff _ _).mpr ⟨by rw [high]; omega, by rw [low]; omega⟩
    have value := toNat_pairCodepoint pair
    rw [high, low] at value
    have sum : 65536 + 1024 * (0xD800 + (v.toNat - 0x10000) / 0x400 - 0xD800) +
        (0xDC00 + (v.toNat - 0x10000) % 0x400 - 0xDC00) = v.toNat := by omega
    exact (codepoints_pair src pair).trans
      (congrArg (· :: codepoints src) (UInt32.toNat_inj.mp (value.trans sum)))

/-! ## Texts -/

theorem codepoints_text : codepoints (cs.flatMap utf16EncodeChar) = cs.map Char.val := by
  induction cs with
  | nil => rfl
  | cons c cs ih => rw [flatMap_cons, codepoints_utf16EncodeChar, ih, map_cons]

theorem flatMap_codepointBytes :
    (cs.map Char.val).flatMap codepointBytes = cs.flatMap String.utf8EncodeChar := by
  induction cs with
  | nil => rfl
  | cons c cs ih => rw [map_cons, flatMap_cons, codepointBytes_val, ih, flatMap_cons]

theorem utf16EncodeChar_ne_nil : utf16EncodeChar c ≠ [] := by
  rw [utf16EncodeChar]
  split <;> simp

theorem length_utf8EncodeChar_pos : 0 < (String.utf8EncodeChar c).length := by
  have form := utf8Form_utf8EncodeChar c
  generalize String.utf8EncodeChar c = bytes at form
  cases form <;> simp

section Text

variable {mem : Nat → UInt8} {u8len : Nat}

theorem utf8ToUtf16Loop_text (cur : Nat) (out : List UInt16) (offsets : List Nat)
    (held : Holds mem cur (cs.flatMap String.utf8EncodeChar))
    (ends : u8len = cur + (cs.flatMap String.utf8EncodeChar).length) :
    (utf8ToUtf16Loop mem u8len cur out offsets).val = out ++ cs.flatMap utf16EncodeChar := by
  induction cs generalizing cur out offsets with
  | nil =>
    rw [utf8ToUtf16Loop, if_neg (by simp [ends])]
    simp
  | cons c cs ih =>
    rw [flatMap_cons, holds_append] at held
    rw [flatMap_cons, length_append] at ends
    obtain ⟨len, val⟩ := codepointAt_val (heldForm_of_holds held.1)
    have pos := length_utf8EncodeChar_pos c
    rw [utf8ToUtf16Loop, if_pos (by omega)]
    dsimp only
    rw [len, val, utf16Units_val, ih _ _ _ held.2 (by omega), flatMap_cons,
      append_assoc]

theorem utf8ToUtf32Loop_text (cur : Nat) (out : List UInt32)
    (held : Holds mem cur (cs.flatMap String.utf8EncodeChar))
    (ends : u8len = cur + (cs.flatMap String.utf8EncodeChar).length) :
    utf8ToUtf32Loop t mem u8len cur out = out ++ cs.map Char.val ++ [0] := by
  induction cs generalizing cur out with
  | nil =>
    rw [utf8ToUtf32Loop, if_neg (by simp [ends])]
    simp
  | cons c cs ih =>
    rw [flatMap_cons, holds_append] at held
    rw [flatMap_cons, length_append] at ends
    have pos := length_utf8EncodeChar_pos c
    rw [utf8ToUtf32Loop, if_pos (by omega), utf32AtInternal_eq t (heldForm_of_holds held.1),
      ih _ _ held.2 (by omega)]
    simp

end Text

/-- A buffer that was written from its start. -/
def bufferOf (written : List UInt8) (beyond : Nat → UInt8) (i : Nat) : UInt8 :=
  written.getD i (beyond i)

theorem holds_bufferOf (front bytes rest : List UInt8) (beyond : Nat → UInt8) :
    Holds (bufferOf (front ++ bytes ++ rest) beyond) front.length bytes := by
  induction bytes generalizing front with
  | nil => trivial
  | cons b bytes ih =>
    refine ⟨by simp [bufferOf], ?_⟩
    have next := ih (front ++ [b])
    simpa using next

/-- The converters to UTF-8 and UTF-32 do not touch the destination for an empty text. -/
def terminated {α : Type} [Zero α] (units : List α) : List α :=
  if units.isEmpty then [] else units ++ [0]

/-- **Round trips.** Both routes to UTF-8 write the standard encoding, and from the buffer they
wrote the text comes back, in UTF-16 and in UTF-32. -/
theorem utf_round_trips (t : Target) (text : List Char) (spare : Nat) (beyond : Nat → UInt8) :
    let utf8 := text.flatMap String.utf8EncodeChar
    let utf16 := text.flatMap utf16EncodeChar
    let utf32 := text.map Char.val
    let room := utf8.length + 1 + spare
    utf16ToUtf8 (some utf16) (some room) = .ok (terminated utf8) ∧
    utf32ToUtf8 (some utf32) (some room) = .ok (terminated utf8) ∧
    utf8ToUtf16 (bufferOf (terminated utf8) beyond) utf8.length = utf16 ++ [0] ∧
    utf8ToUtf32 t (some (bufferOf (terminated utf8) beyond)) utf8.length true =
      terminated utf32 := by
  intro utf8 utf16 utf32 room
  by_cases empty : text = []
  · subst empty
    exact ⟨rfl, rfl, by simp [utf8ToUtf16, utf8ToUtf16NoNullTerminator, utf8ToUtf16Loop, utf8, utf16],
      by simp [utf8ToUtf32, utf8, utf32, terminated]⟩
  obtain ⟨c, cs, rfl⟩ := exists_cons_of_ne_nil empty
  have some8 : 0 < utf8.length := by
    have := length_utf8EncodeChar_pos c
    simp only [utf8, flatMap_cons, length_append]
    omega
  have some16 : utf16 ≠ [] := by
    simp only [utf16, flatMap_cons, ne_eq, append_eq_nil_iff, not_and]
    exact fun nil => absurd nil (utf16EncodeChar_ne_nil c)
  have written : terminated utf8 = utf8 ++ [0] := by
    rw [terminated, if_neg (by simpa using ne_nil_of_length_pos some8)]
  have held : Holds (bufferOf (terminated utf8) beyond) 0 utf8 := by
    rw [written]
    exact holds_bufferOf [] utf8 [0] beyond
  have units := utf8ToUtf16Loop_text (c :: cs) 0 [] [] held (Nat.zero_add _).symm
  have points := utf8ToUtf32Loop_text t (c :: cs) 0 [] held (Nat.zero_add _).symm
  refine ⟨?_, ?_, congrArg (· ++ [0]) units, ?_⟩
  · rw [utf16ToUtf8_of_ne_nil some16, codepoints_text, flatMap_codepointBytes, written,
      if_pos (Nat.le_add_right _ _)]
  · rw [utf32ToUtf8_of_ne_nil (by simp [utf32]), flatMap_codepointBytes, written,
      if_pos (Nat.le_add_right _ _)]
  · rw [utf8ToUtf32, if_neg (by rintro (none | none); exacts [absurd none some8.ne', Bool.noConfusion none])]
    exact points

end SystemCore.Libutils.Unicode
