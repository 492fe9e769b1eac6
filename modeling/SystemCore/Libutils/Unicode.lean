import Mathlib.Data.List.Basic

/-!
# Conversions between UTF-8, UTF-16 and UTF-32

`Unicode.cpp` has a measuring function and a converter for each direction, and each of
them walks over its input in a loop of its own.

UTF-16 and UTF-32 input is a list: the loops never look past its end. The loops over UTF-8
trust the lead byte, so they can. UTF-8 input is therefore the memory that starts at the
source pointer, `mem i` being the byte at offset `i`, with the length the caller gave, and
the functions from UTF-8 to UTF-16 return the offsets they load from. A null pointer is
`none`. Output is the list of the units stored, the terminator included.
-/
namespace SystemCore.Libutils.Unicode

/-- A failed `LOG_ALWAYS_FATAL_IF`. -/
inductive Fault where
  | abort
  deriving DecidableEq, Repr

def kByteMask : UInt32 := 0x000000BF
def kByteMark : UInt32 := 0x00000080
def kUnicodeSurrogateStart : UInt32 := 0x0000D800
def kUnicodeSurrogateEnd : UInt32 := 0x0000DFFF
def kUnicodeMaxCodepoint : UInt32 := 0x0010FFFF

/-- Bits to set in the first byte, by number of bytes. -/
def kFirstByteMark : Nat → UInt32
  | 2 => 0x000000C0
  | 3 => 0x000000E0
  | 4 => 0x000000F0
  | _ => 0x00000000

/-- What the language leaves to the compiler: whether `char` is signed, and what a left
shift of 32 bits by 32 or more gives. -/
structure Target where
  charSigned : Bool
  wideShift : UInt32 → Nat → UInt32

/-- A `char` in an expression with a `char32_t`. -/
def Target.widen (t : Target) (c : UInt8) : UInt32 :=
  if t.charSigned then c.toInt8.toInt32.toUInt32 else c.toUInt32

def Target.shiftLeft (t : Target) (x : UInt32) (n : Nat) : UInt32 :=
  if n < 32 then x <<< UInt32.ofNat n else t.wideShift x n

/-! ## UTF-32 -/

def utf32CodepointUtf8Length (srcChar : UInt32) : Nat :=
  if srcChar < 0x00000080 then 1
  else if srcChar < 0x00000800 then 2
  else if srcChar < 0x00010000 then
    if srcChar < kUnicodeSurrogateStart ∨ kUnicodeSurrogateEnd < srcChar then 3
    else 0
  else if srcChar ≤ kUnicodeMaxCodepoint then 4
  else 0

/-- The `switch` of `utf32_codepoint_to_utf8`, which falls through from case `n` to case 1
and stores from the last byte down. -/
def fallThrough (mark : UInt32) : Nat → UInt32 → List UInt8 → List UInt8
  | 0, _, out => out
  | 1, srcChar, out => (srcChar ||| mark).toUInt8 :: out
  | n + 2, srcChar, out =>
    fallThrough mark (n + 1) (srcChar >>> 6)
      (((srcChar ||| kByteMark) &&& kByteMask).toUInt8 :: out)

def utf32CodepointToUtf8 (srcChar : UInt32) (bytes : Nat) : List UInt8 :=
  fallThrough (kFirstByteMark bytes) bytes srcChar []

def utf32ToUtf8LengthLoop : List UInt32 → Nat → Nat
  | [], ret => ret
  | c :: src, ret => utf32ToUtf8LengthLoop src (ret + utf32CodepointUtf8Length c)

def utf32ToUtf8Length : Option (List UInt32) → Int
  | none => -1
  | some [] => -1
  | some src => utf32ToUtf8LengthLoop src 0

/-- One code point stored behind `out`, with `dstLen` bytes left: the body that the loops of
`utf32_to_utf8` and `utf16_to_utf8` share. -/
def putCodepoint (utf32 : UInt32) (dstLen : Nat) (out : List UInt8) :
    Except Fault (Nat × List UInt8) :=
  let len := utf32CodepointUtf8Length utf32
  if dstLen < len then .error .abort
  else .ok (dstLen - len, out ++ utf32CodepointToUtf8 utf32 len)

/-- The terminator behind `out`. -/
def putTerminator (dstLen : Nat) (out : List UInt8) : Except Fault (List UInt8) :=
  if dstLen < 1 then .error .abort else .ok (out ++ [0])

def utf32ToUtf8Loop : List UInt32 → Nat → List UInt8 → Except Fault (List UInt8)
  | [], dstLen, out => putTerminator dstLen out
  | c :: src, dstLen, out => do
    let (dstLen, out) ← putCodepoint c dstLen out
    utf32ToUtf8Loop src dstLen out

/-- `dst` is the room at the destination. -/
def utf32ToUtf8 : Option (List UInt32) → Option Nat → Except Fault (List UInt8)
  | some (c :: src), some dstLen => utf32ToUtf8Loop (c :: src) dstLen []
  | _, _ => .ok []

/-! ## UTF-16 -/

def isSurrogatePair (c d : UInt16) : Bool :=
  c &&& 0xFC00 = 0xD800 && d &&& 0xFC00 = 0xDC00

def pairCodepoint (c d : UInt16) : UInt32 :=
  (((c.toUInt32 - 0xD800) <<< 10) ||| (d.toUInt32 - 0xDC00)) + 0x10000

def utf16ToUtf8LengthLoop : List UInt16 → Nat → Nat
  | [], ret => ret
  | [c], ret => ret + utf32CodepointUtf8Length c.toUInt32
  | c :: d :: src, ret =>
    if isSurrogatePair c d then utf16ToUtf8LengthLoop src (ret + 4)
    else utf16ToUtf8LengthLoop (d :: src) (ret + utf32CodepointUtf8Length c.toUInt32)

def utf16ToUtf8Length : Option (List UInt16) → Int
  | none => -1
  | some [] => -1
  | some src => utf16ToUtf8LengthLoop src 0

def utf16ToUtf8Loop : List UInt16 → Nat → List UInt8 → Except Fault (List UInt8)
  | [], dstLen, out => putTerminator dstLen out
  | [c], dstLen, out => do
    let (dstLen, out) ← putCodepoint c.toUInt32 dstLen out
    putTerminator dstLen out
  | c :: d :: src, dstLen, out =>
    if isSurrogatePair c d then do
      let (dstLen, out) ← putCodepoint (pairCodepoint c d) dstLen out
      utf16ToUtf8Loop src dstLen out
    else do
      let (dstLen, out) ← putCodepoint c.toUInt32 dstLen out
      utf16ToUtf8Loop (d :: src) dstLen out

def utf16ToUtf8 : Option (List UInt16) → Option Nat → Except Fault (List UInt8)
  | some (c :: src), some dstLen => utf16ToUtf8Loop (c :: src) dstLen []
  | _, _ => .ok []

/-! ## UTF-8 to UTF-32 -/

/-- The inner loop of `utf8_to_utf32_length`. `mask` is 0 after seven rounds. -/
def numToSkipLoop (first : UInt32) : Nat → UInt32 → Nat → Nat
  | 0, _, numToSkip => numToSkip
  | fuel + 1, mask, numToSkip =>
    if first &&& mask = 0 then numToSkip
    else numToSkipLoop first fuel (mask >>> 1) (numToSkip + 1)

def numToSkip (t : Target) (first : UInt8) : Nat :=
  if t.widen first &&& 0x80 = 0 then 1 else numToSkipLoop (t.widen first) 8 0x40 1

/-- The variables of the loop of `utf32_at_internal`. -/
structure AtLoop where
  numToRead : Nat
  mask : UInt32
  toIgnoreMask : UInt32
  utf32 : UInt32

/-- `cur` is the offset of the lead byte; `mask` is 0 after seven rounds. -/
def utf32AtLoop (mem : Nat → UInt8) (cur : Nat) (first : UInt32) : Nat → AtLoop → AtLoop
  | 0, s => s
  | fuel + 1, s =>
    if first &&& s.mask = 0 then s
    else utf32AtLoop mem cur first fuel
      { numToRead := s.numToRead + 1
        mask := s.mask >>> 1
        toIgnoreMask := s.toIgnoreMask ||| s.mask
        utf32 := (s.utf32 <<< 6) + ((mem (cur + s.numToRead)).toUInt32 &&& 0x3F) }

/-- The code point at offset `cur` and the number of bytes read for it. -/
def utf32AtInternal (t : Target) (mem : Nat → UInt8) (cur : Nat) : UInt32 × Nat :=
  let first := t.widen (mem cur)
  if first &&& 0x80 = 0 then (first, 1)
  else
    let s := utf32AtLoop mem cur first 8
      { numToRead := 1, mask := 0x40, toIgnoreMask := 0xFFFFFF80, utf32 := first }
    let toIgnoreMask := s.toIgnoreMask ||| s.mask
    (s.utf32 &&& ~~~(t.shiftLeft toIgnoreMask (6 * (s.numToRead - 1))), s.numToRead)

theorem le_numToSkipLoop (first : UInt32) :
    ∀ fuel mask n, n ≤ numToSkipLoop first fuel mask n := by
  intro fuel
  induction fuel with
  | zero => intro mask n; exact Nat.le_refl _
  | succ fuel ih =>
    intro mask n
    rw [numToSkipLoop]
    split
    · exact Nat.le_refl _
    · exact Nat.le_trans (Nat.le_succ _) (ih _ _)

theorem numToSkip_pos (t : Target) (first : UInt8) : 0 < numToSkip t first := by
  rw [numToSkip]
  split
  · exact Nat.one_pos
  · exact le_numToSkipLoop _ 8 _ 1

/-- The decoder counts the leading ones as the measuring loop does. -/
theorem numToRead_utf32AtLoop (mem : Nat → UInt8) (cur : Nat) (first : UInt32) :
    ∀ fuel s, (utf32AtLoop mem cur first fuel s).numToRead =
      numToSkipLoop first fuel s.mask s.numToRead := by
  intro fuel
  induction fuel with
  | zero => intro s; rfl
  | succ fuel ih =>
    intro s
    rw [utf32AtLoop, numToSkipLoop]
    split
    · rfl
    · exact ih _

theorem utf32AtInternal_snd (t : Target) (mem : Nat → UInt8) (cur : Nat) :
    (utf32AtInternal t mem cur).2 = numToSkip t (mem cur) := by
  unfold utf32AtInternal numToSkip
  by_cases ascii : t.widen (mem cur) &&& 0x80 = 0
  · simp only [ascii, if_true]
  · simp only [ascii, if_false]
    exact numToRead_utf32AtLoop mem cur _ 8 _

def utf8ToUtf32LengthLoop (t : Target) (mem : Nat → UInt8) (srcLen cur ret : Nat) : Nat :=
  if cur < srcLen then
    utf8ToUtf32LengthLoop t mem srcLen (cur + numToSkip t (mem cur)) (ret + 1)
  else ret
termination_by srcLen - cur
decreasing_by
  have := numToSkip_pos t (mem cur)
  omega

def utf8ToUtf32Length (t : Target) (src : Option (Nat → UInt8)) (srcLen : Nat) : Nat :=
  match src with
  | none => 0
  | some mem => if srcLen = 0 then 0 else utf8ToUtf32LengthLoop t mem srcLen 0 0

def utf8ToUtf32Loop (t : Target) (mem : Nat → UInt8) (srcLen cur : Nat) (out : List UInt32) :
    List UInt32 :=
  if cur < srcLen then
    utf8ToUtf32Loop t mem srcLen (cur + (utf32AtInternal t mem cur).2)
      (out ++ [(utf32AtInternal t mem cur).1])
  else out ++ [0]
termination_by srcLen - cur
decreasing_by
  have := numToSkip_pos t (mem cur)
  rw [utf32AtInternal_snd]
  omega

/-- `dst` tells whether there is a destination. -/
def utf8ToUtf32 (t : Target) (src : Option (Nat → UInt8)) (srcLen : Nat) (dst : Bool) :
    List UInt32 :=
  match src with
  | none => []
  | some mem => if srcLen = 0 ∨ dst = false then [] else utf8ToUtf32Loop t mem srcLen 0 []

/-! ## UTF-8 to UTF-16 -/

def utf8CodepointLen (ch : UInt8) : Nat :=
  (((0xe5000000 : UInt32) >>> ((ch.toUInt32 >>> 3) &&& 0x1e)) &&& 3).toNat + 1

def utf8ShiftAndMask (codePoint : UInt32) (byte : UInt8) : UInt32 :=
  (codePoint <<< 6) ||| (0x3F &&& byte).toUInt32

/-- A value and the offsets of the source that it was loaded from. -/
structure Loaded (α : Type) where
  val : α
  offsets : List Nat

def utf8ToUtf32Codepoint (mem : Nat → UInt8) (cur : Nat) : Nat → Loaded UInt32
  | 1 => ⟨(mem cur).toUInt32, [cur]⟩
  | 2 =>
    let unicode := (mem cur &&& 0x1f).toUInt32
    ⟨utf8ShiftAndMask unicode (mem (cur + 1)), [cur, cur + 1]⟩
  | 3 =>
    let unicode := (mem cur &&& 0x0f).toUInt32
    let unicode := utf8ShiftAndMask unicode (mem (cur + 1))
    ⟨utf8ShiftAndMask unicode (mem (cur + 2)), [cur, cur + 1, cur + 2]⟩
  | 4 =>
    let unicode := (mem cur &&& 0x07).toUInt32
    let unicode := utf8ShiftAndMask unicode (mem (cur + 1))
    let unicode := utf8ShiftAndMask unicode (mem (cur + 2))
    ⟨utf8ShiftAndMask unicode (mem (cur + 3)), [cur, cur + 1, cur + 2, cur + 3]⟩
  | _ => ⟨0xffff, []⟩

/-- The code point at `cur` by its lead byte, with every byte loaded on the way. -/
def codepointAt (mem : Nat → UInt8) (cur : Nat) : Loaded UInt32 :=
  let codepoint := utf8ToUtf32Codepoint mem cur (utf8CodepointLen (mem cur))
  ⟨codepoint.val, cur :: codepoint.offsets⟩

theorem utf8CodepointLen_pos (ch : UInt8) : 0 < utf8CodepointLen ch :=
  Nat.succ_pos _

/-- Where the loop of `utf8_to_utf16_length` ends, and the units it counted. -/
def utf8ToUtf16LengthLoop (mem : Nat → UInt8) (u8len u8cur u16measuredLen : Nat)
    (offsets : List Nat) : Loaded (Nat × Nat) :=
  if u8cur < u8len then
    let codepoint := codepointAt mem u8cur
    utf8ToUtf16LengthLoop mem u8len (u8cur + utf8CodepointLen (mem u8cur))
      (u16measuredLen + if codepoint.val > 0xFFFF then 2 else 1)
      (offsets ++ codepoint.offsets)
  else ⟨(u8cur, u16measuredLen), offsets⟩
termination_by u8len - u8cur
decreasing_by
  have := utf8CodepointLen_pos (mem u8cur)
  omega

def utf8ToUtf16Length (mem : Nat → UInt8) (u8len : Nat) : Loaded Int :=
  let measured := utf8ToUtf16LengthLoop mem u8len 0 0 []
  ⟨if measured.val.1 = u8len then (measured.val.2 : Int) else -1, measured.offsets⟩

def utf16Units (codepoint : UInt32) : List UInt16 :=
  if codepoint ≤ 0xFFFF then [codepoint.toUInt16]
  else
    let codepoint := codepoint - 0x10000
    [((codepoint >>> 10) + 0xD800).toUInt16, ((codepoint &&& 0x3FF) + 0xDC00).toUInt16]

def utf8ToUtf16Loop (mem : Nat → UInt8) (u8len u8cur : Nat) (out : List UInt16)
    (offsets : List Nat) : Loaded (List UInt16) :=
  if u8cur < u8len then
    let codepoint := codepointAt mem u8cur
    utf8ToUtf16Loop mem u8len (u8cur + utf8CodepointLen (mem u8cur))
      (out ++ utf16Units codepoint.val) (offsets ++ codepoint.offsets)
  else ⟨out, offsets⟩
termination_by u8len - u8cur
decreasing_by
  have := utf8CodepointLen_pos (mem u8cur)
  omega

def utf8ToUtf16NoNullTerminator (mem : Nat → UInt8) (u8len : Nat) : Loaded (List UInt16) :=
  utf8ToUtf16Loop mem u8len 0 [] []

def utf8ToUtf16 (mem : Nat → UInt8) (u8len : Nat) : List UInt16 :=
  (utf8ToUtf16NoNullTerminator mem u8len).val ++ [0]

end SystemCore.Libutils.Unicode
