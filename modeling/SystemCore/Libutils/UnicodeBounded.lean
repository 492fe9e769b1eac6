import SystemCore.Libutils.UnicodeRoundTrip

/-!
# UTF-8 to UTF-16 with a bound

`utf8_to_utf16_n` stops when the destination is full. It stores the first unit of a surrogate pair
before it looks whether there is room for the second, and steps back then. What it counts is the
longest part of the whole conversion that fits and keeps pairs together.
-/
namespace SystemCore.Libutils.Unicode

open Lib List

/-- The units stored from `dst` on, and how many of them the returned pointer counts. -/
structure Bounded where
  count : Nat
  stored : List UInt16
  deriving DecidableEq, Repr

def utf8ToUtf16NLoop (mem : Nat → UInt8) (srcLen dstLen u8cur : Nat) (out : List UInt16) :
    Bounded :=
  if u8cur < srcLen ∧ out.length < dstLen then
    let codepoint := (codepointAt mem u8cur).val
    if codepoint ≤ 0xFFFF then
      utf8ToUtf16NLoop mem srcLen dstLen (u8cur + utf8CodepointLen (mem u8cur))
        (out ++ [codepoint.toUInt16])
    else
      let codepoint := codepoint - 0x10000
      let out := out ++ [((codepoint >>> 10) + 0xD800).toUInt16]
      if dstLen ≤ out.length then ⟨out.length - 1, out⟩
      else
        utf8ToUtf16NLoop mem srcLen dstLen (u8cur + utf8CodepointLen (mem u8cur))
          (out ++ [((codepoint &&& 0x3FF) + 0xDC00).toUInt16])
  else ⟨out.length, out⟩
termination_by srcLen - u8cur
decreasing_by
  all_goals
    have := utf8CodepointLen_pos (mem u8cur)
    omega

def utf8ToUtf16N (mem : Nat → UInt8) (srcLen dstLen : Nat) : Bounded :=
  utf8ToUtf16NLoop mem srcLen dstLen 0 []

/-! ## One character -/

/-- A character is one unit or a surrogate pair. -/
theorem utf16EncodeChar_cases (c : Char) :
    (c.val ≤ 0xFFFF ∧ utf16EncodeChar c = [c.val.toUInt16]) ∨
      ¬ c.val ≤ 0xFFFF ∧ isSurrogatePair (((c.val - 0x10000) >>> 10) + 0xD800).toUInt16
          (((c.val - 0x10000) &&& 0x3FF) + 0xDC00).toUInt16 = true ∧
        utf16EncodeChar c = [(((c.val - 0x10000) >>> 10) + 0xD800).toUInt16,
          (((c.val - 0x10000) &&& 0x3FF) + 0xDC00).toUInt16] := by
  have units := utf16Units_val c
  by_cases basic : c.val ≤ 0xFFFF
  · rw [utf16Units, if_pos basic] at units
    exact .inl ⟨basic, units.symm⟩
  · rw [utf16Units, if_neg basic] at units
    refine .inr ⟨basic, ?_, units.symm⟩
    -- the pair is read off the standard encoding
    have scalar := scalar_cases c
    have large : ¬ c.val.toNat < 0x10000 := by
      rw [UInt32.le_iff_toNat_le, show (0xFFFF : UInt32).toNat = 0xFFFF from rfl] at basic
      omega
    rw [utf16EncodeChar, if_neg large] at units
    obtain ⟨high, low⟩ := List.cons.inj units
    rw [isSurrogatePair_iff, high, (List.cons.inj low).1, UInt16.toNat_ofNat', UInt16.toNat_ofNat']
    omega

/-! ## The loop -/

section Loop

variable {mem : Nat → UInt8} {srcLen dstLen cur : Nat} {out : List UInt16} {c : Char}

theorem utf8ToUtf16NLoop_stop (h : ¬ (cur < srcLen ∧ out.length < dstLen)) :
    utf8ToUtf16NLoop mem srcLen dstLen cur out = ⟨out.length, out⟩ := by
  rw [utf8ToUtf16NLoop, if_neg h]

/-- A round that has room for the whole character. -/
theorem utf8ToUtf16NLoop_fits (held : Holds mem cur (String.utf8EncodeChar c)) (more : cur < srcLen)
    (fits : out.length + (utf16EncodeChar c).length ≤ dstLen) :
    utf8ToUtf16NLoop mem srcLen dstLen cur out =
      utf8ToUtf16NLoop mem srcLen dstLen (cur + (String.utf8EncodeChar c).length)
        (out ++ utf16EncodeChar c) := by
  obtain ⟨len, val⟩ := codepointAt_val (heldForm_of_holds held)
  rcases utf16EncodeChar_cases c with ⟨basic, units⟩ | ⟨large, -, units⟩
  · rw [units, length_singleton] at fits
    rw [utf8ToUtf16NLoop, if_pos ⟨more, by omega⟩]
    dsimp only
    rw [len, val, if_pos basic, units]
  · rw [units, length_cons, length_singleton] at fits
    rw [utf8ToUtf16NLoop, if_pos ⟨more, by omega⟩]
    dsimp only
    rw [len, val, if_neg large, units, length_append, length_singleton,
      if_neg (by omega), append_assoc, singleton_append]

/-- A round that has no room for it: nothing that is counted changes. -/
theorem utf8ToUtf16NLoop_full (srcLen : Nat) (held : Holds mem cur (String.utf8EncodeChar c))
    (room : out.length ≤ dstLen) (full : dstLen < out.length + (utf16EncodeChar c).length) :
    (utf8ToUtf16NLoop mem srcLen dstLen cur out).count = out.length ∧
      out <+: (utf8ToUtf16NLoop mem srcLen dstLen cur out).stored ∧
      (utf8ToUtf16NLoop mem srcLen dstLen cur out).stored.length ≤ dstLen := by
  by_cases more : cur < srcLen ∧ out.length < dstLen
  swap
  · rw [utf8ToUtf16NLoop_stop more]
    exact ⟨rfl, prefix_rfl, room⟩
  obtain ⟨-, val⟩ := codepointAt_val (heldForm_of_holds held)
  rcases utf16EncodeChar_cases c with ⟨-, units⟩ | ⟨large, -, units⟩
  · rw [units, length_singleton] at full
    omega
  · rw [units, length_cons, length_singleton] at full
    rw [utf8ToUtf16NLoop, if_pos more]
    dsimp only
    rw [val, if_neg large, if_pos (by rw [length_append, length_singleton]; omega)]
    refine ⟨?_, prefix_append _ _, ?_⟩
    · rw [length_append, length_singleton, Nat.add_sub_cancel]
    · rw [length_append, length_singleton]
      omega

end Loop

/-- What the loop counts of a text: its first characters, as many as there is room for. -/
structure Counts (dstLen : Nat) (out : List UInt16) (cs : List Char) (r : Bounded) : Prop where
  exists_done : ∃ done rest, cs = done ++ rest ∧
    r.count = (out ++ done.flatMap utf16EncodeChar).length ∧
    out ++ done.flatMap utf16EncodeChar <+: r.stored ∧
    ∀ c ∈ rest.head?, dstLen < r.count + (utf16EncodeChar c).length
  stored_le : r.stored.length ≤ dstLen

theorem utf8ToUtf16NLoop_text {mem : Nat → UInt8} {srcLen dstLen : Nat} (cs : List Char) (cur : Nat)
    (out : List UInt16) (held : Holds mem cur (cs.flatMap String.utf8EncodeChar))
    (ends : srcLen = cur + (cs.flatMap String.utf8EncodeChar).length)
    (room : out.length ≤ dstLen) :
    Counts dstLen out cs (utf8ToUtf16NLoop mem srcLen dstLen cur out) := by
  induction cs generalizing cur out with
  | nil =>
    rw [utf8ToUtf16NLoop_stop (by simp [ends])]
    exact ⟨⟨[], [], rfl, by simp, by simp, by simp⟩, room⟩
  | cons c cs ih =>
    rw [flatMap_cons, holds_append] at held
    rw [flatMap_cons, length_append] at ends
    have pos := length_utf8EncodeChar_pos c
    by_cases fits : out.length + (utf16EncodeChar c).length ≤ dstLen
    · rw [utf8ToUtf16NLoop_fits held.1 (by omega) fits]
      obtain ⟨⟨done, rest, text, count, counted, full⟩, stored⟩ :=
        ih _ (out ++ utf16EncodeChar c) held.2 (by omega) (by rwa [length_append])
      rw [append_assoc, ← flatMap_cons] at count counted
      exact ⟨⟨c :: done, rest, by rw [text, cons_append], count, counted, full⟩, stored⟩
    · obtain ⟨count, counted, stored⟩ :=
        utf8ToUtf16NLoop_full srcLen held.1 room (by omega)
      refine ⟨⟨[], c :: cs, rfl, by simpa using count, by simpa using counted, ?_⟩, stored⟩
      intro d hd
      rw [← Option.some.inj hd, count]
      omega

/-! ## The longest part that fits -/

/-- The part `units` of `full` ends between the two units of a surrogate pair. -/
def EndsInPair (full units : List UInt16) : Prop :=
  ∃ high ∈ units.getLast?, ∃ low ∈ full[units.length]?, isSurrogatePair high low = true

/-- The longest first part of `full` that has at most `dstLen` units and keeps pairs together. -/
structure Longest (full : List UInt16) (dstLen : Nat) (units : List UInt16) : Prop where
  begins : units <+: full
  length_le : units.length ≤ dstLen
  whole : ¬ EndsInPair full units
  longest : ∀ other, other <+: full → other.length ≤ dstLen → ¬ EndsInPair full other →
    other <+: units

/-- A text does not end with the first unit of a pair. -/
theorem getLast?_text_ne_high (cs : List Char) :
    ∀ unit ∈ (cs.flatMap utf16EncodeChar).getLast?, unit.toNat / 1024 ≠ 54 := by
  intro unit last
  rcases eq_nil_or_concat cs with rfl | ⟨front, c, rfl⟩
  · cases last
  rw [concat_eq_append, flatMap_append, flatMap_singleton,
    List.getLast?_append_of_ne_nil _ (utf16EncodeChar_ne_nil c)] at last
  rcases utf16EncodeChar_cases c with ⟨basic, units⟩ | ⟨-, pair, units⟩
  · rw [units] at last
    have same : unit = c.val.toUInt16 := (Option.some.inj last).symm
    rw [same, UInt32.toNat_toUInt16]
    have scalar := scalar_cases c
    rw [UInt32.le_iff_toNat_le, show (0xFFFF : UInt32).toNat = 0xFFFF from rfl] at basic
    omega
  · rw [units] at last
    have same : unit = (((c.val - 0x10000) &&& 0x3FF) + 0xDC00).toUInt16 :=
      (Option.some.inj last).symm
    rw [same]
    have low := ((isSurrogatePair_iff _ _).mp pair).2
    omega

theorem not_endsInPair_text (full : List UInt16) (cs : List Char) :
    ¬ EndsInPair full (cs.flatMap utf16EncodeChar) := by
  rintro ⟨high, last, low, -, pair⟩
  exact getLast?_text_ne_high cs high last ((isSurrogatePair_iff high low).mp pair).1

/-- One unit more than the characters that fit, if there is room for it, is half of a pair. -/
theorem endsInPair_of_longer {done rest : List Char} {other : List UInt16} {dstLen : Nat}
    (begins : other <+: (done ++ rest).flatMap utf16EncodeChar) (fits : other.length ≤ dstLen)
    (full : ∀ c ∈ rest.head?,
      dstLen < (done.flatMap utf16EncodeChar).length + (utf16EncodeChar c).length)
    (longer : (done.flatMap utf16EncodeChar).length < other.length) :
    EndsInPair ((done ++ rest).flatMap utf16EncodeChar) other := by
  rw [flatMap_append] at begins ⊢
  cases rest with
  | nil =>
    have := begins.length_le
    rw [flatMap_nil, append_nil] at this
    omega
  | cons c rest =>
    have room := full c rfl
    rcases utf16EncodeChar_cases c with ⟨-, units⟩ | ⟨-, pair, units⟩
    · rw [units, length_singleton] at room
      omega
    · rw [units, length_cons, length_singleton] at room
      rw [flatMap_cons, units] at begins ⊢
      generalize done.flatMap utf16EncodeChar = front at *
      generalize rest.flatMap utf16EncodeChar = back at *
      generalize (((c.val - 0x10000) >>> 10) + 0xD800).toUInt16 = high at *
      generalize (((c.val - 0x10000) &&& 0x3FF) + 0xDC00).toUInt16 = low at *
      have length : other.length = front.length + 1 := by omega
      have half : other = front ++ [high] := by
        rw [prefix_iff_eq_take.mp begins, length, take_length_add_append]
        rfl
      refine ⟨high, by rw [half, List.getLast?_concat]; rfl, low, ?_, pair⟩
      rw [length, List.getElem?_append_right (by omega), Nat.add_sub_cancel_left]
      rfl

/-- The whole conversion of the encoding of a text, with any bytes behind it. -/
def fullOf (text : List Char) (beyond : Nat → UInt8) : List UInt16 :=
  (utf8ToUtf16NoNullTerminator (bufferOf (text.flatMap String.utf8EncodeChar) beyond)
    (text.flatMap String.utf8EncodeChar).length).val

/-- The conversion of the same bytes with room for `dstLen` units. -/
def boundedOf (text : List Char) (dstLen : Nat) (beyond : Nat → UInt8) : Bounded :=
  utf8ToUtf16N (bufferOf (text.flatMap String.utf8EncodeChar) beyond)
    (text.flatMap String.utf8EncodeChar).length dstLen

/-- For the encoding of any text and any room, the units counted are the longest first part of the
whole conversion that fits and does not end inside a surrogate pair, and nothing is stored beyond
the room. -/
theorem utf8ToUtf16N_longest (text : List Char) (dstLen : Nat) (beyond : Nat → UInt8) :
    Longest (fullOf text beyond) dstLen
        ((boundedOf text dstLen beyond).stored.take (boundedOf text dstLen beyond).count) ∧
      (boundedOf text dstLen beyond).count ≤ (boundedOf text dstLen beyond).stored.length ∧
      (boundedOf text dstLen beyond).stored.length ≤ dstLen := by
  have held : Holds (bufferOf (text.flatMap String.utf8EncodeChar) beyond) 0
      (text.flatMap String.utf8EncodeChar) := by
    have := holds_bufferOf [] (text.flatMap String.utf8EncodeChar) [] beyond
    rwa [nil_append, append_nil] at this
  have whole : fullOf text beyond = text.flatMap utf16EncodeChar :=
    utf8ToUtf16Loop_text text 0 [] [] held (Nat.zero_add _).symm
  have counts : Counts dstLen [] text (boundedOf text dstLen beyond) :=
    utf8ToUtf16NLoop_text text 0 [] held (Nat.zero_add _).symm (Nat.zero_le _)
  generalize boundedOf text dstLen beyond = bounded at counts ⊢
  obtain ⟨⟨done, rest, split, count, counted, room⟩, stored⟩ := counts
  rw [nil_append] at count counted
  have units : bounded.stored.take bounded.count = done.flatMap utf16EncodeChar := by
    rw [count]
    exact (prefix_iff_eq_take.mp counted).symm
  have begins : done.flatMap utf16EncodeChar <+: fullOf text beyond := by
    rw [whole, split, flatMap_append]
    exact prefix_append _ _
  rw [units, count]
  rw [count] at room
  refine ⟨⟨begins, counted.length_le.trans stored, not_endsInPair_text (fullOf text beyond) done, ?_⟩,
    counted.length_le, stored⟩
  intro other hother fits hwhole
  apply prefix_of_prefix_length_le hother begins
  by_contra longer
  rw [whole, split] at hother hwhole
  exact hwhole (endsInPair_of_longer hother fits room (Nat.lt_of_not_le longer))

end SystemCore.Libutils.Unicode
