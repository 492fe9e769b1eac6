import SystemCore.Lib.Masks
import SystemCore.Libutils.Unicode

/-!
# What is measured is what is written

Both UTF-16 loops take the same code points off their input, so they are the UTF-32 loops
run on these. From UTF-8 the measuring loop and the converter stand at the same offset
before every round, whatever the bytes are.
-/
namespace SystemCore.Libutils.Unicode

open Lib List

/-! ## To UTF-8 -/

theorem length_fallThrough (mark : UInt32) :
    ∀ n c out, (fallThrough mark n c out).length = n + out.length
  | 0, c, out => by simp [fallThrough]
  | 1, c, out => by simp [fallThrough, Nat.add_comm]
  | n + 2, c, out => by
    rw [fallThrough, length_fallThrough mark (n + 1), List.length_cons]
    omega

@[simp] theorem length_utf32CodepointToUtf8 (c : UInt32) (n : Nat) :
    (utf32CodepointToUtf8 c n).length = n := by
  simp [utf32CodepointToUtf8, length_fallThrough]

/-- The bytes of one code point: none for a surrogate or beyond the last code point. -/
def codepointBytes (c : UInt32) : List UInt8 :=
  utf32CodepointToUtf8 c (utf32CodepointUtf8Length c)

theorem utf32ToUtf8LengthLoop_eq (src : List UInt32) (ret : Nat) :
    utf32ToUtf8LengthLoop src ret = ret + (src.flatMap codepointBytes).length := by
  induction src generalizing ret with
  | nil => rfl
  | cons c src ih =>
    rw [utf32ToUtf8LengthLoop, ih]
    simp only [flatMap_cons, length_append, codepointBytes,
      length_utf32CodepointToUtf8]
    omega

theorem utf32ToUtf8Loop_eq (src : List UInt32) (dstLen : Nat) (out : List UInt8) :
    utf32ToUtf8Loop src dstLen out =
      if (src.flatMap codepointBytes).length + 1 ≤ dstLen
      then .ok (out ++ src.flatMap codepointBytes ++ [0]) else .error .abort := by
  induction src generalizing dstLen out with
  | nil =>
    simp only [utf32ToUtf8Loop, putTerminator, flatMap_nil, length_nil,
      append_nil]
    split <;> split <;> first | rfl | omega
  | cons c src ih =>
    simp only [utf32ToUtf8Loop, putCodepoint, flatMap_cons, length_append]
    have len : (codepointBytes c).length = utf32CodepointUtf8Length c :=
      length_utf32CodepointToUtf8 c _
    split
    · -- the code point itself does not fit
      rw [if_neg (by omega)]
      rfl
    · simp only [bind, Except.bind, ih, append_assoc]
      split <;> split <;> first | rfl | omega

theorem utf32ToUtf8_of_ne_nil {src : List UInt32} (nonempty : src ≠ []) (dstLen : Nat) :
    utf32ToUtf8 (some src) (some dstLen) =
      if (src.flatMap codepointBytes).length + 1 ≤ dstLen
      then .ok (src.flatMap codepointBytes ++ [0]) else .error .abort := by
  obtain ⟨c, rest, rfl⟩ := exists_cons_of_ne_nil nonempty
  rw [utf32ToUtf8, utf32ToUtf8Loop_eq, nil_append]

/-! ## UTF-16 input -/

/-- The code points both UTF-16 loops take off their input. -/
def codepoints : List UInt16 → List UInt32
  | [] => []
  | [c] => [c.toUInt32]
  | c :: d :: src =>
    if isSurrogatePair c d then pairCodepoint c d :: codepoints src
    else c.toUInt32 :: codepoints (d :: src)

theorem and_FC00_eq_iff (c : UInt16) (k : Nat) (hk : k < 64) :
    c &&& 0xFC00 = UInt16.ofNat (1024 * k) ↔ c.toNat / 1024 = k := by
  have hc : c.toNat / 1024 < 64 := by have := c.toNat_lt; omega
  have high : c.toNat &&& 0xFC00 = 1024 * (c.toNat / 1024) := by
    have mask : c.toNat / 1024 &&& 2 ^ 6 - 1 = c.toNat / 1024 :=
      Nat.and_two_pow_sub_one_of_lt_two_pow hc
    have split := and_two_pow_mul c.toNat 10 63
    rw [show c.toNat / 2 ^ 10 &&& 63 = c.toNat / 1024 from mask] at split
    exact split
  rw [← UInt16.toNat_inj, UInt16.toNat_and, UInt16.toNat_ofNat']
  show c.toNat &&& 0xFC00 = _ ↔ _
  omega

theorem isSurrogatePair_iff (c d : UInt16) :
    isSurrogatePair c d = true ↔ c.toNat / 1024 = 54 ∧ d.toNat / 1024 = 55 := by
  have high := and_FC00_eq_iff c 54 (by omega)
  have low := and_FC00_eq_iff d 55 (by omega)
  simp only [isSurrogatePair, Bool.and_eq_true, decide_eq_true_eq]
  exact and_congr high low

variable {c d : UInt16}

/-- A surrogate pair stands for a code point of the supplementary planes. -/
theorem toNat_pairCodepoint (pair : isSurrogatePair c d = true) :
    (pairCodepoint c d).toNat =
      65536 + 1024 * (c.toNat - 0xD800) + (d.toNat - 0xDC00) := by
  obtain ⟨hc, hd⟩ := (isSurrogatePair_iff c d).mp pair
  have high : (c.toUInt32 - 0xD800).toNat = c.toNat - 0xD800 := by
    rw [UInt32.toNat_sub_of_le _ _ (by rw [UInt32.le_iff_toNat_le]; simp; omega)]
    simp
  have low : (d.toUInt32 - 0xDC00).toNat = d.toNat - 0xDC00 := by
    rw [UInt32.toNat_sub_of_le _ _ (by rw [UInt32.le_iff_toNat_le]; simp; omega)]
    simp
  have shifted : ((c.toUInt32 - 0xD800) <<< 10).toNat = 2 ^ 10 * (c.toNat - 0xD800) := by
    rw [UInt32.toNat_shiftLeft, high]
    simp
    omega
  have joined := Nat.two_pow_add_eq_or_of_lt (i := 10) (b := d.toNat - 0xDC00) (by omega)
    (c.toNat - 0xD800)
  rw [pairCodepoint, UInt32.toNat_add, UInt32.toNat_or, shifted, low, ← joined]
  simp
  omega

theorem utf32CodepointUtf8Length_eq (c : UInt32) :
    utf32CodepointUtf8Length c =
      if c.toNat < 0x80 then 1
      else if c.toNat < 0x800 then 2
      else if c.toNat < 0x10000 then
        if c.toNat < 0xD800 ∨ 0xDFFF < c.toNat then 3 else 0
      else if c.toNat ≤ 0x10FFFF then 4
      else 0 := rfl

theorem utf32CodepointUtf8Length_pair (pair : isSurrogatePair c d = true) :
    utf32CodepointUtf8Length (pairCodepoint c d) = 4 := by
  have value := toNat_pairCodepoint pair
  obtain ⟨hc, hd⟩ := (isSurrogatePair_iff c d).mp pair
  rw [utf32CodepointUtf8Length_eq, if_neg (by omega), if_neg (by omega), if_neg (by omega),
    if_pos (by omega)]

theorem utf16ToUtf8LengthLoop_eq (src : List UInt16) (ret : Nat) :
    utf16ToUtf8LengthLoop src ret = utf32ToUtf8LengthLoop (codepoints src) ret := by
  fun_induction codepoints src generalizing ret with
  | case1 => rfl
  | case2 c => rfl
  | case3 c d src pair ih =>
    rw [utf16ToUtf8LengthLoop, if_pos pair, ih, utf32ToUtf8LengthLoop,
      utf32CodepointUtf8Length_pair pair]
  | case4 c d src single ih =>
    rw [utf16ToUtf8LengthLoop, if_neg single, ih, utf32ToUtf8LengthLoop]

theorem utf16ToUtf8Loop_eq (src : List UInt16) (dstLen : Nat) (out : List UInt8) :
    utf16ToUtf8Loop src dstLen out = utf32ToUtf8Loop (codepoints src) dstLen out := by
  fun_induction codepoints src generalizing dstLen out with
  | case1 => rfl
  | case2 c => rfl
  | case3 c d src pair ih =>
    rw [utf16ToUtf8Loop, if_pos pair, utf32ToUtf8Loop]
    simp only [ih]
  | case4 c d src single ih =>
    rw [utf16ToUtf8Loop, if_neg single, utf32ToUtf8Loop]
    simp only [ih]

theorem utf16ToUtf8_of_ne_nil {src : List UInt16} (nonempty : src ≠ []) (dstLen : Nat) :
    utf16ToUtf8 (some src) (some dstLen) =
      if ((codepoints src).flatMap codepointBytes).length + 1 ≤ dstLen
      then .ok ((codepoints src).flatMap codepointBytes ++ [0]) else .error .abort := by
  obtain ⟨c, rest, rfl⟩ := exists_cons_of_ne_nil nonempty
  rw [utf16ToUtf8, utf16ToUtf8Loop_eq, utf32ToUtf8Loop_eq, nil_append]

/-! ## From UTF-8 -/

section FromUtf8

variable (mem : Nat → UInt8)

theorem utf8ToUtf32Loop_measured (t : Target) (srcLen cur ret : Nat) (out : List UInt32) :
    ∃ written, utf8ToUtf32Loop t mem srcLen cur out = out ++ written ++ [0] ∧
      utf8ToUtf32LengthLoop t mem srcLen cur ret = ret + written.length := by
  fun_induction utf8ToUtf32Loop t mem srcLen cur out generalizing ret with
  | case1 cur out more ih =>
    rw [utf32AtInternal_snd] at ih
    obtain ⟨written, stored, counted⟩ := ih (ret + 1)
    refine ⟨(utf32AtInternal t mem cur).1 :: written, ?_, ?_⟩
    · rw [utf32AtInternal_snd, stored]
      simp
    · rw [utf8ToUtf32LengthLoop, if_pos more, counted, length_cons]
      omega
  | case2 cur out done =>
    refine ⟨[], by simp, ?_⟩
    rw [utf8ToUtf32LengthLoop, if_neg done]
    rfl

theorem length_utf16Units (codepoint : UInt32) :
    (utf16Units codepoint).length = if codepoint > 0xFFFF then 2 else 1 := by
  rw [utf16Units]
  by_cases h : codepoint ≤ 0xFFFF
  · rw [if_pos h, if_neg (UInt32.not_lt.mpr h)]
    rfl
  · rw [if_neg h, if_pos (UInt32.not_le.mp h)]
    rfl

theorem offsets_codepointAt (cur : Nat) :
    ∀ i ∈ (codepointAt mem cur).offsets, i < cur + utf8CodepointLen (mem cur) := by
  have loaded : ∀ n, ∀ i ∈ (utf8ToUtf32Codepoint mem cur n).offsets, i < cur + n := by
    intro n
    fun_cases utf8ToUtf32Codepoint mem cur n <;> simp
  intro i hi
  rw [codepointAt, mem_cons] at hi
  rcases hi with rfl | hi
  · have := utf8CodepointLen_pos (mem i)
    omega
  · exact loaded _ i hi

/-- The two loops load from the same offsets, all of them before the offset they end at. -/
theorem utf8ToUtf16Loop_measured (u8len cur measured : Nat) (out : List UInt16)
    (offsets : List Nat) (before : ∀ i ∈ offsets, i < cur) :
    ∃ written last loads,
      utf8ToUtf16Loop mem u8len cur out offsets = ⟨out ++ written, loads⟩ ∧
      utf8ToUtf16LengthLoop mem u8len cur measured offsets =
        ⟨(last, measured + written.length), loads⟩ ∧
      ∀ i ∈ loads, i < last := by
  fun_induction utf8ToUtf16Loop mem u8len cur out offsets generalizing measured with
  | case1 cur out offsets more codepoint ih =>
    have advanced : ∀ i ∈ offsets ++ codepoint.offsets,
        i < cur + utf8CodepointLen (mem cur) := by
      intro i hi
      rcases mem_append.mp hi with old | new
      · have := before i old
        omega
      · exact offsets_codepointAt mem cur i new
    obtain ⟨written, last, loads, stored, counted, inside⟩ :=
      ih (measured + if codepoint.val > 0xFFFF then 2 else 1) advanced
    refine ⟨utf16Units codepoint.val ++ written, last, loads, ?_, ?_, inside⟩
    · rw [stored, append_assoc]
    · rw [utf8ToUtf16LengthLoop, if_pos more, counted, length_append, length_utf16Units,
        Nat.add_assoc]
  | case2 cur out offsets done =>
    refine ⟨[], cur, offsets, by simp, ?_, before⟩
    rw [utf8ToUtf16LengthLoop, if_neg done]
    rfl

end FromUtf8

/-- **What a measuring function returns is what its converter writes.** The two functions to
UTF-8 refuse the empty input with -1, and their converters then write nothing, not even a
terminator. -/
theorem measures_agree_with_converters (t : Target) :
    (∀ src : List UInt16, src ≠ [] → ∃ bytes : List UInt8,
      utf16ToUtf8Length (some src) = bytes.length ∧
      ∀ dstLen, utf16ToUtf8 (some src) (some dstLen) =
        if bytes.length + 1 ≤ dstLen then .ok (bytes ++ [0]) else .error .abort) ∧
    (∀ src : List UInt32, src ≠ [] → ∃ bytes : List UInt8,
      utf32ToUtf8Length (some src) = bytes.length ∧
      ∀ dstLen, utf32ToUtf8 (some src) (some dstLen) =
        if bytes.length + 1 ≤ dstLen then .ok (bytes ++ [0]) else .error .abort) ∧
    (utf16ToUtf8Length (some []) = -1 ∧ utf32ToUtf8Length (some []) = -1 ∧
      ∀ dst, utf16ToUtf8 (some []) dst = .ok [] ∧ utf32ToUtf8 (some []) dst = .ok []) ∧
    (∀ mem srcLen, ∃ written,
      utf8ToUtf32Length t (some mem) srcLen = written.length ∧
      utf8ToUtf32 t (some mem) srcLen true = if srcLen = 0 then [] else written ++ [0]) ∧
    (∀ mem u8len, 0 ≤ (utf8ToUtf16Length mem u8len).val →
      (utf8ToUtf16Length mem u8len).val = (utf8ToUtf16NoNullTerminator mem u8len).val.length ∧
      (∀ i ∈ (utf8ToUtf16Length mem u8len).offsets, i < u8len) ∧
      (∀ i ∈ (utf8ToUtf16NoNullTerminator mem u8len).offsets, i < u8len)) := by
  refine ⟨?_, ?_, ?_, ?_, ?_⟩
  · intro src nonempty
    refine ⟨(codepoints src).flatMap codepointBytes, ?_, utf16ToUtf8_of_ne_nil nonempty⟩
    obtain ⟨c, rest, rfl⟩ := exists_cons_of_ne_nil nonempty
    show ((utf16ToUtf8LengthLoop (c :: rest) 0 : Nat) : Int) = _
    rw [utf16ToUtf8LengthLoop_eq, utf32ToUtf8LengthLoop_eq, Nat.zero_add]
  · intro src nonempty
    refine ⟨src.flatMap codepointBytes, ?_, utf32ToUtf8_of_ne_nil nonempty⟩
    obtain ⟨c, rest, rfl⟩ := exists_cons_of_ne_nil nonempty
    show ((utf32ToUtf8LengthLoop (c :: rest) 0 : Nat) : Int) = _
    rw [utf32ToUtf8LengthLoop_eq, Nat.zero_add]
  · exact ⟨rfl, rfl, fun dst => ⟨rfl, rfl⟩⟩
  · intro mem srcLen
    by_cases empty : srcLen = 0
    · exact ⟨[], by simp [utf8ToUtf32Length, empty], by simp [utf8ToUtf32, empty]⟩
    · obtain ⟨written, stored, counted⟩ := utf8ToUtf32Loop_measured mem t srcLen 0 0 []
      refine ⟨written, ?_, ?_⟩
      · simpa [utf8ToUtf32Length, empty] using counted
      · simpa [utf8ToUtf32, empty] using stored
  · intro mem u8len returned
    obtain ⟨written, last, loads, stored, counted, inside⟩ :=
      utf8ToUtf16Loop_measured mem u8len 0 0 [] [] (by simp)
    rw [utf8ToUtf16Length, counted] at returned ⊢
    rw [utf8ToUtf16NoNullTerminator, stored]
    -- the measure is -1 unless the last character ends where the input does
    have exact_end : last = u8len := by
      by_contra other
      rw [if_neg other] at returned
      exact absurd returned (by simp)
    subst exact_end
    exact ⟨by simp, inside, inside⟩

theorem measures_agree_on_one_character :
    (([0xD83D, 0xDE00] : List UInt16) ≠ [] ∧ ∃ bytes : List UInt8,
      utf16ToUtf8Length (some [0xD83D, 0xDE00]) = bytes.length ∧
      ∀ dstLen, utf16ToUtf8 (some [0xD83D, 0xDE00]) (some dstLen) =
        if bytes.length + 1 ≤ dstLen then .ok (bytes ++ [0]) else .error .abort) ∧
    (([0x1F600] : List UInt32) ≠ [] ∧ ∃ bytes : List UInt8,
      utf32ToUtf8Length (some [0x1F600]) = bytes.length ∧
      ∀ dstLen, utf32ToUtf8 (some [0x1F600]) (some dstLen) =
        if bytes.length + 1 ≤ dstLen then .ok (bytes ++ [0]) else .error .abort) ∧
    (0 ≤ (utf8ToUtf16Length (fun _ => 0x41) 1).val ∧
      (utf8ToUtf16Length (fun _ => 0x41) 1).val =
        (utf8ToUtf16NoNullTerminator (fun _ => 0x41) 1).val.length) := by
  have all := measures_agree_with_converters ⟨true, fun x _ => x⟩
  have returned : 0 ≤ (utf8ToUtf16Length (fun _ => 0x41) 1).val := by decide +kernel
  exact ⟨⟨by decide, all.1 _ (by decide)⟩, ⟨by decide, all.2.1 _ (by decide)⟩,
    returned, (all.2.2.2.2 _ _ returned).1⟩

/-- The empty input is measured as -1 but nothing is written for it. -/
theorem empty_input_measured_negative :
    (utf16ToUtf8Length (some []) = -1 ∧ utf16ToUtf8 (some []) (some 1) = .ok []) ∧
    (utf32ToUtf8Length (some []) = -1 ∧ utf32ToUtf8 (some []) (some 1) = .ok []) :=
  ⟨⟨rfl, rfl⟩, rfl, rfl⟩

end SystemCore.Libutils.Unicode
