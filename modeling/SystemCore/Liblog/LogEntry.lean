import Mathlib.Algebra.Order.Ring.Int
import Mathlib.Data.List.Basic
import SystemCore.Lib.Ascii

/-!
# Text entries of the log

`android_log_processLogBuffer` finds where the tag and the message of an entry end in one pass over
the payload. When it meets no second zero byte it makes one of the last byte of the payload, which is
then no part of the message. If the last byte is the one that ends the tag, the message begins behind
the payload and its length is -1, stored without a sign.
-/
namespace SystemCore.Liblog

open Lib List

/-- `sizeof(struct logger_entry)`. -/
def LOGGER_ENTRY_SIZE : Nat := 20

/-- Where the payload begins in the record. -/
def payloadStart (hdrSize : UInt16) : Nat :=
  if hdrSize ≠ 0 then hdrSize.toNat else LOGGER_ENTRY_SIZE

/-- `struct logger_entry`; `bytes` are those of the record, from its first on. -/
structure LoggerEntry where
  len : UInt16
  hdrSize : UInt16
  pid : Int32
  tid : Int32
  sec : Int32
  nsec : Int32
  bytes : List UInt8
  fits : payloadStart hdrSize + len.toNat ≤ bytes.length

/-- `AndroidLogEntry`; a pointer is the place in the record that it points to. -/
structure AndroidLogEntry where
  tvSec : Int32
  tvNsec : Int32
  priority : UInt8
  pid : Int32
  tid : Int32
  tag : Nat
  messageLen : Nat
  message : Nat
  deriving DecidableEq, Repr

namespace LoggerEntry

def payload (buf : LoggerEntry) : List UInt8 :=
  (buf.bytes.drop (payloadStart buf.hdrSize)).take buf.len.toNat

/-- The payload behind the priority. -/
def text (buf : LoggerEntry) : List UInt8 := buf.payload.drop 1

end LoggerEntry

/-- The loop over the payload: `msgStart` and `msgEnd`, which are -1 as long as they are not set. -/
def findMarks : List UInt8 → Int → Int → Int × Int
  | [], _, msgStart => (msgStart, -1)
  | c :: rest, i, msgStart =>
    if c = 0 then
      if msgStart = -1 then findMarks rest (i + 1) (i + 1) else (msgStart, i)
    else findMarks rest (i + 1) msgStart

/-- `android_log_processLogBuffer`, where `size_t` has `sizeBits` bits: the entry, and the record as
it is afterwards. -/
def androidLogProcessLogBuffer (sizeBits : Nat) (buf : LoggerEntry) :
    Option (AndroidLogEntry × List UInt8) :=
  if buf.len.toNat < 3 then none
  else
    let msg := payloadStart buf.hdrSize
    let marks := findMarks buf.text 1 (-1)
    if marks.1 = -1 then none
    else
      let msgEnd := if marks.2 = -1 then (buf.len.toNat : Int) - 1 else marks.2
      let bytes := if marks.2 = -1 then buf.bytes.set (msg + msgEnd.toNat) 0 else buf.bytes
      some ({ tvSec := buf.sec, tvNsec := buf.nsec, priority := bytes.getD msg 0, pid := buf.pid,
              tid := buf.tid, tag := msg + 1, message := msg + marks.1.toNat,
              messageLen := ((msgEnd - marks.1) % 2 ^ sizeBits).toNat }, bytes)

/-! ## What the parts of an entry are -/

def cString (bytes : List UInt8) (p : Nat) : List UInt8 := (bytes.drop p).takeWhile (· ≠ 0)

namespace LoggerEntry

/-- The bytes up to the first zero byte behind the priority. -/
def tagText (buf : LoggerEntry) : List UInt8 := buf.text.takeWhile (· ≠ 0)

/-- What is behind that zero byte. -/
def behindTag (buf : LoggerEntry) : List UInt8 := buf.text.drop (buf.tagText.length + 1)

/-- The bytes up to the second zero byte, or to the end of the payload. -/
def messageText (buf : LoggerEntry) : List UInt8 := buf.behindTag.takeWhile (· ≠ 0)

end LoggerEntry

/-- The entry is accepted when it should be, and its parts are where they are in the payload. -/
def SplitsRightly (sizeBits : Nat) (buf : LoggerEntry) : Prop :=
  ((androidLogProcessLogBuffer sizeBits buf).isSome ↔ 3 ≤ buf.len.toNat ∧ 0 ∈ buf.text) ∧
    ∀ e bytes, androidLogProcessLogBuffer sizeBits buf = some (e, bytes) →
      cString bytes e.tag = buf.tagText ∧
      e.message = e.tag + buf.tagText.length + 1 ∧
      e.message + e.messageLen ≤ payloadStart buf.hdrSize + buf.len.toNat ∧
      e.messageLen = buf.messageText.length

/-! ## Zero bytes in a list -/

variable {l : List UInt8}

theorem length_takeWhile_lt (h : 0 ∈ l) : (l.takeWhile (· ≠ 0)).length < l.length := by
  induction l with
  | nil => exact absurd h not_mem_nil
  | cons c l ih =>
    by_cases hc : c = 0
    · simp [hc]
    · have hl : 0 ∈ l := (mem_cons.mp h).resolve_left fun hzero => hc hzero.symm
      simpa [hc] using ih hl

theorem takeWhile_append_of_mem (h : 0 ∈ l) (m : List UInt8) :
    (l ++ m).takeWhile (· ≠ 0) = l.takeWhile (· ≠ 0) := by
  rw [takeWhile_append, if_neg (Nat.ne_of_lt (length_takeWhile_lt h))]

/-! ## The loop -/

/-- Once the message has begun, the loop goes to the next zero byte. -/
theorem findMarks_started {i msgStart : Int} (h : msgStart ≠ -1) :
    findMarks l i msgStart =
      (msgStart, if 0 ∈ l then i + (l.takeWhile (· ≠ 0)).length else -1) := by
  induction l generalizing i with
  | nil => simp [findMarks]
  | cons c l ih =>
    by_cases hc : c = 0
    · simp [findMarks, hc, h]
    · rw [findMarks, if_neg hc, ih]
      simp [hc, Ne.symm hc, Int.add_assoc, Int.add_comm]

theorem findMarks_none (h : 0 ∉ l) (i : Int) : findMarks l i (-1) = (-1, -1) := by
  induction l generalizing i with
  | nil => rfl
  | cons c l ih =>
    have hc : c ≠ 0 := fun hzero => h (hzero ▸ mem_cons_self)
    rw [findMarks, if_neg hc]
    exact ih (fun hzero => h (mem_cons_of_mem c hzero)) (i + 1)

/-- The first zero byte ends the tag, and the loop goes on behind it. -/
theorem findMarks_tag (h : 0 ∈ l) (i : Int) :
    findMarks l i (-1) = findMarks (l.drop ((l.takeWhile (· ≠ 0)).length + 1))
      (i + (l.takeWhile (· ≠ 0)).length + 1) (i + (l.takeWhile (· ≠ 0)).length + 1) := by
  induction l generalizing i with
  | nil => exact absurd h not_mem_nil
  | cons c l ih =>
    by_cases hc : c = 0
    · simp [findMarks, hc]
    · have hl : 0 ∈ l := (mem_cons.mp h).resolve_left fun hzero => hc hzero.symm
      have hplace : i + 1 + ((l.takeWhile (· ≠ 0)).length : Int) =
          i + ((l.takeWhile (· ≠ 0)).length + 1 : Nat) := by omega
      rw [findMarks, if_neg hc, ih hl, takeWhile_cons_of_pos (by simp [hc]), length_cons,
        drop_succ_cons, hplace]

/-! ## The entry -/

section Entry

variable {sizeBits : Nat} {buf : LoggerEntry}

theorem length_payload (buf : LoggerEntry) : buf.payload.length = buf.len.toNat := by
  have hfits := buf.fits
  rw [LoggerEntry.payload, length_take, length_drop]
  omega

theorem length_behindTag (buf : LoggerEntry) :
    buf.behindTag.length = buf.len.toNat - (buf.tagText.length + 2) := by
  rw [LoggerEntry.behindTag, LoggerEntry.text, length_drop, length_drop, length_payload]
  omega

theorem tag_inside (h : 0 ∈ buf.text) : buf.tagText.length + 2 ≤ buf.len.toNat := by
  have hlt := length_takeWhile_lt h
  rw [LoggerEntry.text, length_drop, length_payload] at hlt
  rw [LoggerEntry.tagText, LoggerEntry.text]
  omega

theorem marks_eq (h : 0 ∈ buf.text) :
    findMarks buf.text 1 (-1) = ((buf.tagText.length : Int) + 2,
      if 0 ∈ buf.behindTag then (buf.tagText.length : Int) + 2 + buf.messageText.length else -1) := by
  have hstart : (1 : Int) + (buf.text.takeWhile (· ≠ 0)).length + 1 = buf.tagText.length + 2 := by
    rw [LoggerEntry.tagText]
    omega
  rw [findMarks_tag h, hstart, findMarks_started (by omega)]
  rfl

/-- The bytes behind the priority begin the record's bytes from there on. -/
theorem text_append (buf : LoggerEntry) :
    ∃ m, buf.bytes.drop (payloadStart buf.hdrSize + 1) = buf.text ++ m := by
  refine ⟨(buf.bytes.drop (payloadStart buf.hdrSize + 1)).drop buf.text.length, ?_⟩
  have htext : buf.text =
      (buf.bytes.drop (payloadStart buf.hdrSize + 1)).take (buf.len.toNat - 1) := by
    rw [LoggerEntry.text, LoggerEntry.payload, drop_take, drop_drop]
  have hlength : buf.text.length = buf.len.toNat - 1 := by
    rw [LoggerEntry.text, length_drop, length_payload]
  rw [hlength, htext, take_append_drop]

theorem cString_tag (h : 0 ∈ buf.text) :
    cString buf.bytes (payloadStart buf.hdrSize + 1) = buf.tagText := by
  obtain ⟨m, hm⟩ := text_append buf
  rw [cString, hm, takeWhile_append_of_mem h, LoggerEntry.tagText]

theorem rejected_short (h : buf.len.toNat < 3) : androidLogProcessLogBuffer sizeBits buf = none := by
  rw [androidLogProcessLogBuffer, if_pos h]

theorem rejected_tag (h : 0 ∉ buf.text) : androidLogProcessLogBuffer sizeBits buf = none := by
  rw [androidLogProcessLogBuffer, findMarks_none h]
  split <;> rfl

variable (hbits : 16 ≤ sizeBits)

include hbits

theorem pow_sixteen_le : 2 ^ 16 ≤ 2 ^ sizeBits := Nat.pow_le_pow_right (by decide) hbits

theorem length_messageText_lt (buf : LoggerEntry) : buf.messageText.length < 2 ^ sizeBits := by
  have hlen := buf.len.toNat_lt
  have hpow := pow_sixteen_le hbits
  have hle : buf.messageText.length ≤ buf.behindTag.length := (takeWhile_sublist _).length_le
  rw [length_behindTag] at hle
  omega

/-- A length that fits is stored as it is. -/
theorem stored_length (buf : LoggerEntry) :
    ((buf.messageText.length : Int) % 2 ^ sizeBits).toNat = buf.messageText.length := by
  have hlt : (buf.messageText.length : Int) < 2 ^ sizeBits := by
    exact_mod_cast length_messageText_lt hbits buf
  rw [Int.emod_eq_of_lt (by omega) hlt, Int.toNat_natCast]

/-- One less is the last byte cut off, or the largest number there is. -/
theorem stored_pred (buf : LoggerEntry) :
    (((buf.messageText.length : Int) - 1) % 2 ^ sizeBits).toNat =
      if buf.messageText.length = 0 then 2 ^ sizeBits - 1 else buf.messageText.length - 1 := by
  have hlt := length_messageText_lt hbits buf
  have hcast : ((2 ^ sizeBits : Nat) : Int) = 2 ^ sizeBits := by norm_cast
  rw [← hcast]
  split
  · next hzero =>
    rw [hzero, ← Int.add_emod_right, Int.emod_eq_of_lt (by omega) (by omega)]
    omega
  · next hpos =>
    rw [Int.emod_eq_of_lt (by omega) (by omega)]
    omega

/-- Up to a second zero byte the message is as it is in the payload. Without one the last byte
becomes it, and is cut off. -/
theorem accepted (hlen : 3 ≤ buf.len.toNat) (h : 0 ∈ buf.text) :
    ∃ e, androidLogProcessLogBuffer sizeBits buf = some (e, if 0 ∈ buf.behindTag then buf.bytes
        else buf.bytes.set (payloadStart buf.hdrSize + (buf.len.toNat - 1)) 0) ∧
      e.tag = payloadStart buf.hdrSize + 1 ∧
      e.message = payloadStart buf.hdrSize + (buf.tagText.length + 2) ∧
      e.messageLen = if 0 ∈ buf.behindTag then buf.messageText.length
        else if buf.messageText.length = 0 then 2 ^ sizeBits - 1 else buf.messageText.length - 1 := by
  have hlong : ¬ buf.len.toNat < 3 := by omega
  have hstart : (buf.tagText.length : Int) + 2 ≠ -1 := by omega
  rw [androidLogProcessLogBuffer, if_neg hlong, marks_eq h]
  by_cases hend : 0 ∈ buf.behindTag
  · have hmark : (buf.tagText.length : Int) + 2 + buf.messageText.length ≠ -1 := by omega
    have hsize : (buf.tagText.length : Int) + 2 + buf.messageText.length -
        (buf.tagText.length + 2) = buf.messageText.length := by omega
    simp only [if_pos hend, if_neg hstart, if_neg hmark, hsize, stored_length hbits]
    exact ⟨_, rfl, rfl, by simp only; omega, rfl⟩
  · have hinside := tag_inside h
    have hmessage : buf.messageText.length = buf.len.toNat - (buf.tagText.length + 2) := by
      rw [LoggerEntry.messageText, takeWhile_of_zero_not_mem hend, length_behindTag]
    have hsize : (buf.len.toNat : Int) - 1 - (buf.tagText.length + 2) =
        (buf.messageText.length : Int) - 1 := by omega
    have hplace : ((buf.len.toNat : Int) - 1).toNat = buf.len.toNat - 1 := by omega
    simp only [if_neg hend, if_neg hstart, if_true, hsize, hplace, stored_pred hbits]
    exact ⟨_, rfl, rfl, by simp only; omega, rfl⟩

theorem isSome_iff (buf : LoggerEntry) :
    (androidLogProcessLogBuffer sizeBits buf).isSome ↔ 3 ≤ buf.len.toNat ∧ 0 ∈ buf.text := by
  by_cases hlen : buf.len.toNat < 3
  · rw [rejected_short hlen]
    simp only [Option.isSome_none, Bool.false_eq_true, false_iff]
    omega
  · by_cases h : 0 ∈ buf.text
    · have hboth : 3 ≤ buf.len.toNat ∧ 0 ∈ buf.text := ⟨by omega, h⟩
      obtain ⟨e, he, -⟩ := accepted hbits hboth.1 h
      simp [he, hboth]
    · rw [rejected_tag h]
      simp [h]

/-- The bytes of the message lie in the payload exactly if the payload goes on behind the tag. -/
theorem message_inside_iff {e : AndroidLogEntry} {bytes : List UInt8}
    (he : androidLogProcessLogBuffer sizeBits buf = some (e, bytes)) :
    e.message + e.messageLen ≤ payloadStart buf.hdrSize + buf.len.toNat ↔ buf.behindTag ≠ [] := by
  obtain ⟨hlen, h⟩ := (isSome_iff hbits buf).mp (by rw [he]; rfl)
  have hinside := tag_inside h
  have hbehind := length_behindTag buf
  have hpow := pow_sixteen_le hbits
  have hle : buf.messageText.length ≤ buf.behindTag.length := (takeWhile_sublist _).length_le
  obtain ⟨e', he', -, hmessage, hsize⟩ := accepted hbits hlen h
  obtain ⟨rfl, -⟩ := Prod.mk.inj (Option.some.inj (he'.symm.trans he))
  rw [← length_pos_iff, hmessage, hsize]
  by_cases hend : 0 ∈ buf.behindTag
  · have hpos : 0 < buf.behindTag.length := length_pos_of_mem hend
    rw [if_pos hend]
    omega
  · have hwhole : buf.messageText = buf.behindTag := takeWhile_of_zero_not_mem hend
    rw [if_neg hend, hwhole]
    split <;> omega

end Entry

/-! ## When an entry is split rightly -/

/-- An entry is split rightly exactly if it is rejected or has a second zero byte. -/
theorem splits_rightly_iff (sizeBits : Nat) (hbits : 16 ≤ sizeBits) (buf : LoggerEntry) :
    SplitsRightly sizeBits buf ↔ (3 ≤ buf.len.toNat ∧ 0 ∈ buf.text → 0 ∈ buf.behindTag) := by
  constructor
  · intro hsplits hboth
    by_contra hend
    obtain ⟨e, he, -, -, hsize⟩ := accepted hbits hboth.1 hboth.2
    have hlength := (hsplits.2 e _ he).2.2.2
    have hpow := pow_sixteen_le hbits
    rw [hsize, if_neg hend] at hlength
    split at hlength <;> omega
  · intro hcond
    refine ⟨isSome_iff hbits buf, fun e bytes he => ?_⟩
    obtain ⟨hlen, h⟩ := (isSome_iff hbits buf).mp (by rw [he]; rfl)
    have hend : 0 ∈ buf.behindTag := hcond ⟨hlen, h⟩
    have hinside := (message_inside_iff hbits he).mpr (ne_nil_of_mem hend)
    obtain ⟨e', he', htag, hmessage, hsize⟩ := accepted hbits hlen h
    rw [if_pos hend] at he' hsize
    obtain ⟨rfl, rfl⟩ := Prod.mk.inj (Option.some.inj (he'.symm.trans he))
    refine ⟨?_, ?_, hinside, ?_⟩
    · rw [htag]
      exact cString_tag h
    · rw [hmessage, htag]
      omega
    · exact hsize

/-- A record without a header of its own: priority 4, then the given bytes. -/
def record (text : List UInt8) (h : text.length < 2 ^ 16 - 1) : LoggerEntry where
  len := UInt16.ofNat (text.length + 1)
  hdrSize := 0
  pid := 1
  tid := 1
  sec := 0
  nsec := 0
  bytes := List.replicate LOGGER_ENTRY_SIZE 0 ++ 4 :: text
  fits := by
    have hlen : (UInt16.ofNat (text.length + 1)).toNat = text.length + 1 :=
      UInt16.toNat_ofNat_of_lt' (by rw [UInt16.size]; omega)
    rw [hlen, List.length_append, List.length_replicate, List.length_cons, payloadStart,
      if_neg (by decide)]

/-- The tag `t` and the message `m`, each with its zero byte. -/
theorem splits_rightly_tm :
    SplitsRightly 64 (record [116, 0, 109, 0] (by decide)) :=
  (splits_rightly_iff 64 (by decide) _).mpr fun _ => by decide

/-- The tag `t` and nothing behind its zero byte: the message is said to have `2 ^ 64 - 1` bytes. -/
theorem tag_alone_not_split :
    ¬ SplitsRightly 64 (record [116, 0] (by decide)) ∧
      (androidLogProcessLogBuffer 64 (record [116, 0] (by decide))).map
        (fun r => (r.1.message, r.1.messageLen)) = some (23, 2 ^ 64 - 1) := by
  have hrun : (androidLogProcessLogBuffer 64 (record [116, 0] (by decide))).map
      (fun r => (r.1.message, r.1.messageLen)) = some (23, 2 ^ 64 - 1) := by decide +kernel
  refine ⟨fun hsplits => ?_, hrun⟩
  obtain ⟨⟨e, bytes⟩, he, hfields⟩ := Option.map_eq_some_iff.mp hrun
  have hlength := (hsplits.2 e bytes he).2.2.2
  have hempty : (record [116, 0] (by decide)).messageText.length = 0 := by decide +kernel
  rw [hempty, (Prod.mk.inj hfields).2] at hlength
  exact absurd hlength (by decide)

end SystemCore.Liblog
