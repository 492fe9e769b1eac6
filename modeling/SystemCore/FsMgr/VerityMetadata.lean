import Mathlib.Data.UInt
import SystemCore.Lib.Ascii
import SystemCore.Lib.Runs

/-!
# The metadata store of verity

The store is a sequence of records behind a magic number. A record is a line with a tag and a
length, and that many bytes that belong to the caller. `metadata_find` goes through the records with
`fscanf`, whose last directive skips white space: if the bytes of a record begin with white space,
the scan takes them for a part of the line, and everything behind it is out of place.
-/
namespace SystemCore.FsMgr.Metadata

open Lib List

abbrev Bytes := List UInt8

/-- `start`, behind the area of cryptfs. -/
def METADATA_START : Nat := 0x4000

/-- `METADATA_MAGIC` as it is stored. -/
def METADATA_MAGIC : Bytes := [0x54, 0x4c, 0x56, 0x01]

def METADATA_TAG_MAX_LENGTH : Nat := 63

def METADATA_EOD : Bytes := [101, 111, 100]

/-- The file after a write at `pos`; what is skipped behind its end is zero. -/
def writeAt (f : Bytes) (pos : Nat) (bytes : Bytes) : Bytes :=
  (f ++ List.replicate pos 0).take pos ++ bytes ++ f.drop (pos + bytes.length)

/-- `"%s %u\n"`. -/
def header (tag : Bytes) (length : UInt32) : Bytes := tag ++ 32 :: (decimal length.toNat ++ [10])

/-- `metadata_add`: the offset of the new region, and the file. -/
def metadataAdd (f : Bytes) (start : Nat) (tag : Bytes) (length : UInt32) : Nat × Bytes :=
  let f := writeAt f start (header tag length)
  let offset := start + (header tag length).length
  (offset, writeAt f (offset + length.toNat) (header METADATA_EOD 0))

/-- The sign that `%u` accepts. -/
def scanSign : Bytes → Bool × Bytes
  | 45 :: s => (true, s)
  | 43 :: s => (false, s)
  | s => (false, s)

/-- `%u`, behind white space. -/
def scanUnsigned (s : Bytes) : Option (UInt32 × Bytes) :=
  let (negative, body) := scanSign (s.dropWhile isSpace)
  let ds := body.takeWhile isDigit
  if ds = [] then none
  else
    let n := UInt32.ofNat (decimalValue ds)
    some (if negative then 0 - n else n, body.drop ds.length)

/-- `fscanf(fp, "%63s %u\n", tag, &length)`, where it returns 2. -/
def scanRecord (s : Bytes) : Option (Bytes × UInt32 × Bytes) :=
  let s := s.dropWhile isSpace
  let tag := (s.takeWhile fun c => !isSpace c).take METADATA_TAG_MAX_LENGTH
  if tag = [] then none
  else
    match scanUnsigned (s.drop tag.length) with
    | none => none
    | some (length, rest) => some (tag, length, rest.dropWhile isSpace)

theorem length_dropWhile_le (p : UInt8 → Bool) (s : Bytes) :
    (s.dropWhile p).length ≤ s.length :=
  (dropWhile_suffix p).length_le

theorem length_scanSign_le (s : Bytes) : (scanSign s).2.length ≤ s.length := by
  unfold scanSign
  split <;> simp

variable {rest tag : Bytes} {n : UInt32} {c : UInt8}

theorem length_scanUnsigned_le {s : Bytes} (h : scanUnsigned s = some (n, rest)) :
    rest.length ≤ s.length := by
  have hspace := length_dropWhile_le isSpace s
  have hsign := length_scanSign_le (s.dropWhile isSpace)
  unfold scanUnsigned at h
  dsimp only at h
  split at h
  · cases h
  · rw [← (Prod.mk.inj (Option.some.inj h)).2, length_drop]
    omega

theorem length_scanRecord_lt {s : Bytes} (h : scanRecord s = some (tag, n, rest)) :
    rest.length < s.length := by
  have hspace := length_dropWhile_le isSpace s
  unfold scanRecord at h
  dsimp only at h
  split at h
  · cases h
  · rename_i hne
    have hpos := length_pos_iff.mpr hne
    have htag : ((s.dropWhile isSpace).takeWhile fun c => !isSpace c).length ≤
        (s.dropWhile isSpace).length := (takeWhile_sublist _).length_le
    split at h
    · cases h
    · rename_i length rest' hscan
      have hrest := length_scanUnsigned_le hscan
      have hlast := length_dropWhile_le isSpace rest'
      rw [length_drop, length_take] at hrest
      rw [length_take] at hpos
      rw [← (Prod.mk.inj (Prod.mk.inj (Option.some.inj h)).2).2]
      omega

/-- A string up to its terminator, as `strcmp` compares it. -/
def cString (s : Bytes) : Bytes := s.takeWhile (· ≠ 0)

inductive Search where
  | found (offset : Nat)
  | absent (start : Nat)
  deriving DecidableEq, Repr

/-- The loop of `metadata_find`, with the bytes `s` of the file left to read. -/
def search (stag : Bytes) (slength : UInt32) (size : Nat) (s : Bytes) (start : Nat) : Search :=
  match _h : scanRecord s with
  | none => .absent start
  | some (tag, length, rest) =>
    if cString tag = METADATA_EOD then .absent start
    else
      let start := size - rest.length
      if cString tag = stag ∧ length = slength then .found start
      else search stag slength size (rest.drop length.toNat) (start + length.toNat)
termination_by s.length
decreasing_by
  have := length_scanRecord_lt _h
  rw [List.length_drop]
  omega

/-- `metadata_find`: the offset and the file, or `none` where it returns -1. -/
def metadataFind (f : Bytes) (stag : Bytes) (slength : UInt32) : Option (Nat × Bytes) :=
  if f.length < METADATA_START + 4 then none
  else if (f.drop METADATA_START).take 4 ≠ METADATA_MAGIC then
    some (metadataAdd (writeAt f METADATA_START METADATA_MAGIC) (METADATA_START + 4) stag slength)
  else
    match search stag slength f.length (f.drop (METADATA_START + 4)) (METADATA_START + 4) with
    | .found offset => some (offset, f)
    | .absent start => some (metadataAdd f start stag slength)

/-! ## Records -/

/-- A tag that `%63s` reads back. -/
structure IsTag (tag : Bytes) : Prop where
  nonempty : tag ≠ []
  length_le : tag.length ≤ METADATA_TAG_MAX_LENGTH
  plain : ∀ c ∈ tag, isSpace c = false ∧ c ≠ 0

def BeginsPlain (s : Bytes) : Prop := ∀ c ∈ s.head?, isSpace c = false

theorem dropWhile_of_beginsPlain {s : Bytes} (h : BeginsPlain s) : s.dropWhile isSpace = s := by
  cases s with
  | nil => rfl
  | cons c s => rw [dropWhile_cons_of_neg (by rw [h c rfl]; decide)]

theorem IsTag.beginsPlain (h : IsTag tag) : BeginsPlain (tag ++ rest) := by
  obtain ⟨c, s, rfl⟩ := exists_cons_of_ne_nil h.nonempty
  intro d hd
  rw [← Option.some.inj hd]
  exact (h.plain c mem_cons_self).1

theorem IsTag.cString (h : IsTag tag) : cString tag = tag := by
  rw [Metadata.cString, takeWhile_eq_self_iff]
  intro c hc
  exact decide_eq_true (h.plain c hc).2

theorem isTag_eod : IsTag METADATA_EOD where
  nonempty := by decide
  length_le := by decide
  plain := by
    intro c hc
    simp only [METADATA_EOD, mem_cons, not_mem_nil, or_false] at hc
    obtain rfl | rfl | rfl := hc <;> decide

theorem isSpace_of_isDigit (h : isDigit c = true) : isSpace c = false := by
  have hd : 48 ≤ c ∧ c ≤ 57 := of_decide_eq_true h
  rw [UInt8.le_iff_toNat_le, UInt8.le_iff_toNat_le, show (48 : UInt8).toNat = 48 from rfl] at hd
  apply decide_eq_false
  rw [← UInt8.toNat_inj, UInt8.le_iff_toNat_le, UInt8.le_iff_toNat_le,
    show (32 : UInt8).toNat = 32 from rfl, show (13 : UInt8).toNat = 13 from rfl]
  omega

theorem scanSign_of_isDigit (s : Bytes) (h : isDigit c = true) :
    scanSign (c :: s) = (false, c :: s) := by
  unfold scanSign
  split
  · rename_i heq
    rw [(List.cons.inj heq).1] at h
    exact absurd h (by decide)
  · rename_i heq
    rw [(List.cons.inj heq).1] at h
    exact absurd h (by decide)
  · rfl

/-- The number of a line is read back. -/
theorem scanUnsigned_decimal (n : UInt32) (rest : Bytes) :
    scanUnsigned (32 :: (decimal n.toNat ++ 10 :: rest)) = some (n, 10 :: rest) := by
  obtain ⟨c, s, hds⟩ := exists_cons_of_ne_nil (decimal_ne_nil n.toNat)
  have hdigits : ∀ d ∈ c :: s, isDigit d = true := fun d hd =>
    isDigit_of_mem_decimal (n := n.toNat) (by rw [hds]; exact hd)
  have hfirst := hdigits c mem_cons_self
  have hspace : (32 :: (c :: s ++ 10 :: rest)).dropWhile isSpace = c :: (s ++ 10 :: rest) := by
    rw [dropWhile_cons_of_pos (by decide), cons_append,
      dropWhile_cons_of_neg (by rw [isSpace_of_isDigit hfirst]; decide)]
  have htake : (c :: (s ++ 10 :: rest)).takeWhile isDigit = c :: s := by
    rw [← cons_append, takeWhile_append_of_pos hdigits,
      takeWhile_cons_of_neg (by decide), append_nil]
  rw [hds, scanUnsigned, hspace, scanSign_of_isDigit _ hfirst]
  dsimp only
  rw [htake, if_neg (cons_ne_nil _ _), ← cons_append, drop_left, ← hds,
    decimalValue_decimal, UInt32.ofNat_toNat]
  rfl

/-- A line is read back, and the white space behind it is skipped. -/
theorem scanRecord_header (h : IsTag tag) (n : UInt32) (rest : Bytes) :
    scanRecord (header tag n ++ rest) = some (tag, n, rest.dropWhile isSpace) := by
  have hbegins : BeginsPlain (header tag n ++ rest) := by
    rw [header, append_assoc]
    exact h.beginsPlain
  have hword : (header tag n ++ rest).takeWhile (fun c => !isSpace c) = tag := by
    rw [header, append_assoc, takeWhile_append_of_pos fun c hc => by
      rw [(h.plain c hc).1]; rfl, cons_append, takeWhile_cons_of_neg (by decide),
      append_nil]
  have hbehind : (header tag n ++ rest).drop tag.length =
      32 :: (decimal n.toNat ++ 10 :: rest) := by
    rw [header, append_assoc, drop_left, cons_append, append_assoc,
      singleton_append]
  rw [scanRecord, dropWhile_of_beginsPlain hbegins, hword, take_of_length_le h.length_le,
    if_neg h.nonempty, hbehind, scanUnsigned_decimal]
  dsimp only
  rw [dropWhile_cons_of_pos (by decide)]

/-! ## Where the records lie -/

/-- What a call returned: the region of a tag and a length. -/
structure Region where
  tag : Bytes
  length : UInt32
  offset : Nat
  deriving DecidableEq, Repr

/-- The first byte of its line. -/
def Region.start (r : Region) : Nat := r.offset - (header r.tag r.length).length

def Region.IsOf (r : Region) (tag : Bytes) (length : UInt32) : Prop := r.tag = tag ∧ r.length = length

instance (r : Region) (tag : Bytes) (length : UInt32) : Decidable (r.IsOf tag length) :=
  inferInstanceAs (Decidable (_ ∧ _))

/-- The bytes of the file from `pos` on, as many as there are up to `n`. -/
def part (f : Bytes) (pos n : Nat) : Bytes := (f.drop pos).take n

/-- The bytes lie in the file at `pos`. -/
def Lies (f : Bytes) (pos : Nat) (bytes : Bytes) : Prop := part f pos bytes.length = bytes

variable {f g line bytes : Bytes} {l : List Region} {r : Region} {length : UInt32}
  {start stop pos a k : Nat}

theorem Lies.drop_eq (h : Lies f a line) : f.drop a = line ++ f.drop (a + line.length) := by
  rw [← drop_drop]
  exact (take_append_drop line.length (f.drop a)).symm.trans (congrArg (· ++ _) h)

theorem Lies.length_le (h : Lies f a line) : line.length ≤ f.length - a := by
  rw [← length_drop, h.drop_eq, length_append]
  exact Nat.le_add_right _ _

theorem length_writeAt_front (f : Bytes) (pos : Nat) :
    ((f ++ List.replicate pos 0).take pos).length = pos := by
  rw [length_take, length_append, length_replicate]
  omega

theorem length_writeAt (f : Bytes) (pos : Nat) (bytes : Bytes) :
    pos + bytes.length ≤ (writeAt f pos bytes).length ∧ f.length ≤ (writeAt f pos bytes).length := by
  rw [writeAt, length_append, length_append, length_writeAt_front, length_drop]
  omega

theorem lies_writeAt (f : Bytes) (pos : Nat) (bytes : Bytes) : Lies (writeAt f pos bytes) pos bytes := by
  rw [Lies, part, writeAt, append_assoc, drop_left' (length_writeAt_front f pos)]
  exact take_left' rfl

/-- A write changes no byte in front of it, nor behind it. -/
theorem part_writeAt (hfile : k ≤ f.length - a) (h : a + k ≤ pos ∨ pos + bytes.length ≤ a) :
    part (writeAt f pos bytes) a k = part f a k := by
  have hlen := length_writeAt_front f pos
  rcases h with h | h
  · rw [part, part, writeAt, append_assoc, drop_append_of_le_length (by omega),
      take_append_of_le_length (by rw [length_drop]; omega), drop_take, take_take,
      Nat.min_eq_left (by omega), drop_append, take_append_of_le_length (by rwa [length_drop])]
  · rw [part, part, writeAt, drop_append, drop_of_length_le (by rw [length_append]; omega),
      nil_append, drop_drop, length_append, hlen, Nat.add_sub_cancel' h]

theorem Lies.write (h : Lies f a line) (hout : a + line.length ≤ pos ∨ pos + bytes.length ≤ a) :
    Lies (writeAt f pos bytes) a line :=
  (part_writeAt h.length_le hout).trans h

/-- The lines of the regions `l` lie one behind the other, each behind the bytes of the region
before it; the bytes of the last region end at `stop`. -/
inductive Lines (f : Bytes) : Nat → List Region → Nat → Prop
  | nil (start : Nat) : Lines f start [] start
  | cons {tag : Bytes} {length : UInt32} {l : List Region} {start stop : Nat}
      (line : Lies f start (header tag length))
      (rest : Lines f (start + (header tag length).length + length.toNat) l stop) :
      Lines f start (⟨tag, length, start + (header tag length).length⟩ :: l) stop

theorem Lines.snoc (h : Lines f start l stop) (hline : Lies f stop (header tag length)) :
    Lines f start (l ++ [⟨tag, length, stop + (header tag length).length⟩])
      (stop + (header tag length).length + length.toNat) := by
  induction h with
  | nil start => exact .cons hline (.nil _)
  | cons line _ ih => exact .cons line (ih hline)

theorem Lines.le (h : Lines f start l stop) : start ≤ stop := by
  induction h with
  | nil => exact Nat.le_refl _
  | cons _ _ ih => omega

/-- A region lies between the ends. -/
theorem Lines.bounds (h : Lines f start l stop) (hr : r ∈ l) :
    start ≤ r.start ∧ r.start + (header r.tag r.length).length = r.offset ∧
      r.offset + r.length.toNat ≤ stop := by
  induction h with
  | nil => cases hr
  | cons _ rest ih =>
    rcases mem_cons.mp hr with rfl | hr
    · have := rest.le
      simp only [Region.start]
      omega
    · have := ih hr
      omega

/-- Two regions are the same one, or one lies behind the other. -/
theorem Lines.apart {r' : Region} (h : Lines f start l stop) (hr : r ∈ l) (hr' : r' ∈ l) :
    r = r' ∨ r.offset + r.length.toNat ≤ r'.start ∨ r'.offset + r'.length.toNat ≤ r.start := by
  induction h with
  | nil => cases hr
  | cons _ rest ih =>
    rcases mem_cons.mp hr with rfl | hr <;> rcases mem_cons.mp hr' with rfl | hr'
    · exact .inl rfl
    · exact .inr (.inl (rest.bounds hr').1)
    · exact .inr (.inr (rest.bounds hr).1)
    · exact ih hr hr'

/-- The lines stay where they are if each of them does. -/
theorem Lines.transfer (h : Lines f start l stop)
    (hf : ∀ r ∈ l, ∀ line, Lies f r.start line → r.start + line.length = r.offset → Lies g r.start line) :
    Lines g start l stop := by
  induction h with
  | nil start => exact .nil start
  | @cons tag length _ _ _ line _ ih =>
    refine .cons ?_ (ih fun r hr => hf r (mem_cons_of_mem _ hr))
    have hfirst := hf _ mem_cons_self (header tag length)
    rw [Region.start, Nat.add_sub_cancel] at hfirst
    exact hfirst line rfl

/-! ## The search -/

/-- The scan passes a region exactly behind its bytes if these do not begin with white space. -/
structure Scans (f : Bytes) (r : Region) : Prop where
  isTag : IsTag r.tag
  ne_eod : r.tag ≠ METADATA_EOD
  plain : BeginsPlain (part f r.offset r.length.toNat)

theorem Lies.beginsPlain (h : Lies f a (header tag length)) (htag : IsTag tag) :
    BeginsPlain (f.drop a) := by
  rw [h.drop_eq, header, append_assoc]
  exact htag.beginsPlain

theorem beginsPlain_of_part (h : BeginsPlain (part f a k)) (hrest : BeginsPlain (f.drop (a + k))) :
    BeginsPlain (f.drop a) := by
  rw [← take_append_drop k (f.drop a), drop_drop]
  rw [part] at h
  cases hs : (f.drop a).take k with
  | nil => exact hrest
  | cons c s => rwa [hs] at h

/-- One turn of the search that reads a line. -/
theorem search_of_scan {stag s : Bytes} {slength : UInt32} {size : Nat}
    (hscan : scanRecord s = some (tag, n, rest)) :
    search stag slength size s start =
      if cString tag = METADATA_EOD then .absent start
      else if cString tag = stag ∧ n = slength then .found (size - rest.length)
      else search stag slength size (rest.drop n.toNat) (size - rest.length + n.toNat) := by
  rw [search]
  split
  · rename_i hnone
    rw [hscan] at hnone
    cases hnone
  · rename_i hsome
    rw [hscan] at hsome
    cases hsome
    rfl

theorem Lies.scanRecord (h : Lies f a (header tag n)) (htag : IsTag tag) :
    scanRecord (f.drop a) = some (tag, n, (f.drop (a + (header tag n).length)).dropWhile isSpace) := by
  rw [h.drop_eq, scanRecord_header htag]

theorem Lines.beginsPlain (h : Lines f start l stop) (heod : Lies f stop (header METADATA_EOD 0))
    (hl : ∀ r ∈ l, Scans f r) : BeginsPlain (f.drop start) := by
  cases h with
  | nil => exact heod.beginsPlain isTag_eod
  | cons line _ => exact line.beginsPlain (hl _ mem_cons_self).isTag

theorem Lines.search (h : Lines f start l stop) (heod : Lies f stop (header METADATA_EOD 0))
    (hl : ∀ r ∈ l, Scans f r) (tag : Bytes) (length : UInt32) :
    search tag length f.length (f.drop start) start =
      match l.find? fun r => r.IsOf tag length with
      | some r => .found r.offset
      | none => .absent stop := by
  induction h with
  | nil start =>
    rw [search_of_scan (heod.scanRecord isTag_eod), isTag_eod.cString, if_pos rfl]
    rfl
  | @cons tag' length' l start stop line rest ih =>
    have hr := hl _ mem_cons_self
    have hrest : ∀ r ∈ l, Scans f r := fun r hr => hl r (mem_cons_of_mem _ hr)
    have hscan := line.scanRecord hr.isTag
    rw [dropWhile_of_beginsPlain (beginsPlain_of_part hr.plain (rest.beginsPlain heod hrest))] at hscan
    have hlen := line.length_le
    have hpos : 0 < (header tag' length').length := length_pos_iff.mpr (append_ne_nil_of_left_ne_nil
      hr.isTag.nonempty _)
    have hoffset : f.length - (f.drop (start + (header tag' length').length)).length =
        start + (header tag' length').length := by
      rw [length_drop]
      omega
    have hof : Region.IsOf ⟨tag', length', start + (header tag' length').length⟩ tag length ↔
        tag' = tag ∧ length' = length := Iff.rfl
    rw [search_of_scan hscan, hr.isTag.cString, if_neg hr.ne_eod, hoffset, drop_drop]
    by_cases hmatch : tag' = tag ∧ length' = length
    · rw [if_pos hmatch, List.find?_cons, decide_eq_true (hof.mpr hmatch)]
    · rw [if_neg hmatch, List.find?_cons, decide_eq_false (mt hof.mp hmatch)]
      exact ih heod hrest

/-- A file in which the first call finds no record. -/
structure Unused (f : Bytes) : Prop where
  long : METADATA_START + 4 ≤ f.length
  unused : (f.drop METADATA_START).take 4 ≠ METADATA_MAGIC ∨
    scanRecord (f.drop (METADATA_START + 4)) = none

/-- Where the first record begins. -/
def FIRST : Nat := METADATA_START + 4

/-! ## Calls and writes -/

/-- The file, and the regions that calls returned. -/
structure State where
  file : Bytes
  regions : List Region
  deriving DecidableEq, Repr

variable {s : State} {f' : Bytes}

inductive Op where
  | find (tag : Bytes) (length : UInt32)
  | write (region pos : Nat) (bytes : Bytes)
  deriving DecidableEq, Repr

/-- A call that returns an offset, or a write inside a region that was returned. -/
def exec (s : State) : Op → Except Unit State
  | .find tag length =>
    match metadataFind s.file tag length with
    | none => .error ()
    | some (offset, f) => .ok ⟨f, s.regions ++ [⟨tag, length, offset⟩]⟩
  | .write region pos bytes =>
    match s.regions[region]? with
    | none => .error ()
    | some r =>
      if pos + bytes.length ≤ r.length.toNat then
        .ok { s with file := writeAt s.file (r.offset + pos) bytes }
      else .error ()

/-- The calls and writes in question. -/
def Allowed (s : State) : Op → Prop
  | .find tag _ => tag.length ≤ METADATA_TAG_MAX_LENGTH ∧
      (∀ c ∈ tag, isSpace c = false ∧ c ≠ 0) ∧ tag ≠ METADATA_EOD
  | .write region pos bytes => ∃ r ∈ s.regions[region]?, pos + bytes.length ≤ r.length.toNat

/-- The tag is not empty, and no region begins with white space when a call scans the store. -/
def Harmless (s : State) : Op → Prop
  | .find tag _ => tag ≠ [] ∧
      ∀ r ∈ s.regions, BeginsPlain ((s.file.drop r.offset).take r.length.toNat)
  | .write _ _ _ => True

instance (bytes : Bytes) : Decidable (BeginsPlain bytes) :=
  bytes.head?.decidableForallMem

instance (s : State) : (op : Op) → Decidable (Allowed s op)
  | .find tag _ =>
    -- The characters of the tag are looked through, not all bytes there are.
    have : Decidable (∀ c ∈ tag, isSpace c = false ∧ c ≠ 0) := List.decidableBAll _ tag
    inferInstanceAs (Decidable (tag.length ≤ METADATA_TAG_MAX_LENGTH ∧
      (∀ c ∈ tag, isSpace c = false ∧ c ≠ 0) ∧ tag ≠ METADATA_EOD))
  | .write region pos bytes =>
    inferInstanceAs (Decidable (∃ r ∈ s.regions[region]?, pos + bytes.length ≤ r.length.toNat))

instance (s : State) : (op : Op) → Decidable (Harmless s op)
  | .find tag _ => inferInstanceAs (Decidable (tag ≠ [] ∧
      ∀ r ∈ s.regions, BeginsPlain ((s.file.drop r.offset).take r.length.toNat)))
  | .write _ _ _ => isTrue trivial

/-- Regions of one tag and length are the same, and other regions have no byte in common. -/
def Consistent (s : State) : Prop :=
  ∀ r ∈ s.regions, ∀ r' ∈ s.regions,
    (r.tag = r'.tag ∧ r.length = r'.length → r.offset = r'.offset) ∧
    (¬ (r.tag = r'.tag ∧ r.length = r'.length) →
      r.offset + r.length.toNat ≤ r'.offset ∨ r'.offset + r'.length.toNat ≤ r.offset)

/-- The line and the bytes of a region are the same in both files. -/
def Leaves (f f' : Bytes) (r : Region) : Prop :=
  (f'.drop r.start).take (r.offset + r.length.toNat - r.start) =
    (f.drop r.start).take (r.offset + r.length.toNat - r.start)

/-- A call leaves what was there. -/
def Undisturbed (s : State) (op : Op) (s' : State) : Prop :=
  match op with
  | .find tag length => (∃ offset, s'.regions = s.regions ++ [⟨tag, length, offset⟩]) ∧
      ∀ r ∈ s.regions, Leaves s.file s'.file r
  | .write _ _ _ => True

/-- The store without its end mark: the lines of the regions `l`, which are those that calls
returned. -/
structure Stored (f : Bytes) (regions l : List Region) (stop : Nat) : Prop where
  magic : Lies f METADATA_START METADATA_MAGIC
  long : stop ≤ f.length
  lines : Lines f FIRST l stop
  tags : ∀ r ∈ l, IsTag r.tag ∧ r.tag ≠ METADATA_EOD
  returned : ∀ r, r ∈ regions ↔ r ∈ l
  distinct : ∀ r ∈ l, ∀ r' ∈ l, r.tag = r'.tag ∧ r.length = r'.length → r = r'

structure Held (s : State) (l : List Region) (stop : Nat) : Prop extends
    Stored s.file s.regions l stop where
  eod : Lies s.file stop (header METADATA_EOD 0)

def Inv (s : State) : Prop := (Unused s.file ∧ s.regions = []) ∨ ∃ l stop, Held s l stop

/-- A step that returns, and disturbs nothing. -/
def Keeps (s : State) (op : Op) : Prop := ∃ s', exec s op = .ok s' ∧ Inv s' ∧ Undisturbed s op s'

theorem Inv.consistent (h : Inv s) : Consistent s := by
  intro r hr r' hr'
  rcases h with ⟨-, hnil⟩ | ⟨l, stop, held⟩
  · rw [hnil] at hr
    cases hr
  · rw [held.returned] at hr hr'
    refine ⟨fun hsame => by rw [held.distinct r hr r' hr' hsame], fun hother => ?_⟩
    have hbound := held.lines.bounds hr
    have hbound' := held.lines.bounds hr'
    rcases held.lines.apart hr hr' with rfl | hapart | hapart
    · exact absurd ⟨rfl, rfl⟩ hother
    · omega
    · omega

/-- A call that finds its record returns its region again. -/
theorem step_found (held : Held s l stop) (hr : r ∈ l) (hof : r.IsOf tag length)
    (hfind : metadataFind s.file tag length = some (r.offset, s.file)) :
    Keeps s (.find tag length) := by
  have hregion : (⟨tag, length, r.offset⟩ : Region) = r := by rw [← hof.1, ← hof.2]
  refine ⟨⟨s.file, s.regions ++ [⟨tag, length, r.offset⟩]⟩, by simp only [exec, hfind],
    .inr ⟨l, stop, { held with returned := fun q => ?_ }⟩, ⟨_, rfl⟩, fun _ _ => rfl⟩
  rw [mem_append, held.returned, mem_singleton, hregion]
  refine ⟨fun hq => hq.elim id fun hq => ?_, .inl⟩
  rwa [hq]

/-- A call that finds none adds a record behind the others. -/
theorem step_added (stored : Stored g s.regions l stop) (htag : IsTag tag) (hne : tag ≠ METADATA_EOD)
    (hnew : ∀ q ∈ l, ¬ q.IsOf tag length)
    (hcall : metadataFind s.file tag length = some (metadataAdd g stop tag length))
    (hleaves : ∀ r ∈ s.regions, Leaves s.file g r) : Keeps s (.find tag length) := by
  have hlong := length_writeAt g stop (header tag length)
  -- what lies before the end of the store stays
  have hfront : ∀ a k, a + k ≤ stop → part (metadataAdd g stop tag length).2 a k = part g a k := by
    intro a k hk
    have hstop := stored.long
    exact (part_writeAt (by omega) (.inl (by omega))).trans (part_writeAt (by omega) (.inl hk))
  have hlies : ∀ {a bytes}, Lies g a bytes → a + bytes.length ≤ stop →
      Lies (metadataAdd g stop tag length).2 a bytes := fun h hk => (hfront _ _ hk).trans h
  have hlines : Lines (metadataAdd g stop tag length).2 FIRST l stop := by
    refine stored.lines.transfer fun r hr line hline hend => hlies hline ?_
    have := stored.lines.bounds hr
    omega
  have hline : Lies (metadataAdd g stop tag length).2 stop (header tag length) :=
    (lies_writeAt g stop _).write (.inl (by omega))
  have hend := length_writeAt (writeAt g stop (header tag length))
    (stop + (header tag length).length + length.toNat) (header METADATA_EOD 0)
  refine ⟨⟨_, s.regions ++ [⟨tag, length, stop + (header tag length).length⟩]⟩,
    by simp only [exec, hcall]; rfl, .inr ⟨l ++ [⟨tag, length, stop + (header tag length).length⟩], _,
    ⟨hlies stored.magic stored.lines.le, (Nat.le_add_right _ _).trans hend.1, hlines.snoc hline, ?_, fun q => ?_, ?_⟩,
    lies_writeAt _ _ _⟩, ⟨_, rfl⟩, fun r hr => ?_⟩
  · intro q hq
    rcases mem_append.mp hq with hq | hq
    · exact stored.tags q hq
    · rw [mem_singleton.mp hq]
      exact ⟨htag, hne⟩
  · rw [mem_append, mem_append, stored.returned]
  · intro q hq q' hq' hsame
    rcases mem_append.mp hq with hq | hq <;> rcases mem_append.mp hq' with hq' | hq'
    · exact stored.distinct q hq q' hq' hsame
    · rw [mem_singleton.mp hq'] at hsame
      exact absurd hsame (hnew q hq)
    · rw [mem_singleton.mp hq] at hsame
      exact absurd ⟨hsame.1.symm, hsame.2.symm⟩ (hnew q' hq')
    · rw [mem_singleton.mp hq, mem_singleton.mp hq']
  · obtain ⟨-, hstart, hstop⟩ := stored.lines.bounds ((stored.returned r).mp hr)
    exact (hfront _ _ (by omega)).trans (hleaves r hr)

theorem metadataFind_of_magic (hlong : METADATA_START + 4 ≤ f.length)
    (hmagic : (f.drop METADATA_START).take 4 = METADATA_MAGIC) (tag : Bytes) (length : UInt32) :
    metadataFind f tag length =
      match search tag length f.length (f.drop FIRST) FIRST with
      | .found offset => some (offset, f)
      | .absent start => some (metadataAdd f start tag length) := by
  rw [metadataFind, if_neg (Nat.not_lt.mpr hlong), if_neg (not_not.mpr hmagic)]
  rfl

/-- What the first call makes of an unused file. -/
theorem Unused.metadataFind (h : Unused f) (tag : Bytes) (length : UInt32) :
    ∃ g, metadataFind f tag length = some (metadataAdd g FIRST tag length) ∧
      Lies g METADATA_START METADATA_MAGIC ∧ FIRST ≤ g.length := by
  by_cases hmagic : (f.drop METADATA_START).take 4 = METADATA_MAGIC
  · have hsearch : search tag length f.length (f.drop FIRST) FIRST = .absent FIRST := by
      have hscan := h.unused.resolve_left (not_not.mpr hmagic)
      rw [search]
      split
      · rfl
      · rename_i hsome
        rw [FIRST, hscan] at hsome
        cases hsome
    refine ⟨f, ?_, hmagic, h.long⟩
    rw [metadataFind_of_magic h.long hmagic, hsearch]
  · refine ⟨_, ?_, lies_writeAt f METADATA_START METADATA_MAGIC,
      (length_writeAt f METADATA_START METADATA_MAGIC).1⟩
    rw [Metadata.metadataFind, if_neg (Nat.not_lt.mpr h.long), if_pos hmagic]
    rfl

theorem step_find (h : Inv s) (hallowed : Allowed s (.find tag length))
    (hharmless : Harmless s (.find tag length)) : Keeps s (.find tag length) := by
  obtain ⟨hlen, hplain, hne⟩ := hallowed
  have htag : IsTag tag := ⟨hharmless.1, hlen, hplain⟩
  rcases h with ⟨hunused, hnil⟩ | ⟨l, stop, held⟩
  · obtain ⟨g, hcall, hmagic, hlong⟩ := hunused.metadataFind tag length
    have hnone : ∀ {P : Region → Prop}, ∀ r ∈ s.regions, P r := by
      intro P r hr
      rw [hnil] at hr
      cases hr
    have stored : Stored g s.regions [] FIRST := ⟨hmagic, hlong, .nil _, by simp, by simp [hnil], by simp⟩
    exact step_added stored htag hne (by simp) hcall hnone
  · have hscans : ∀ r ∈ l, Scans s.file r := fun r hr =>
      ⟨(held.tags r hr).1, (held.tags r hr).2, hharmless.2 r ((held.returned r).mpr hr)⟩
    have hsearch := held.lines.search held.eod hscans tag length
    have hcall := metadataFind_of_magic (held.lines.le.trans held.long) held.magic tag length
    rw [hsearch] at hcall
    cases hfind : l.find? fun r => r.IsOf tag length with
    | some r =>
      rw [hfind] at hcall
      have hof := List.find?_some hfind
      exact step_found held (mem_of_find?_eq_some hfind) (of_decide_eq_true hof) hcall
    | none =>
      rw [hfind] at hcall
      refine step_added held.toStored htag hne (fun q hq hof => ?_) hcall fun _ _ => rfl
      exact List.find?_eq_none.mp hfind q hq (decide_eq_true hof)

/-- A write inside a region changes no line. -/
theorem Held.write (held : Held s l stop) (hr : r ∈ l) (hin : pos + bytes.length ≤ r.length.toNat) :
    Held { s with file := writeAt s.file (r.offset + pos) bytes } l stop := by
  obtain ⟨hfirst, hoffset, hstop⟩ := held.lines.bounds hr
  refine { held with
    magic := held.magic.write (.inl ?_)
    long := held.long.trans (length_writeAt s.file _ bytes).2
    lines := held.lines.transfer fun q hq line hline hend => hline.write ?_
    eod := held.eod.write (.inr (by omega)) }
  · exact (hfirst.trans (by omega))
  · have := held.lines.bounds hq
    rcases held.lines.apart hr hq with rfl | hapart | hapart <;> omega

theorem step_write (h : Inv s) {region : Nat} (hallowed : Allowed s (.write region pos bytes)) :
    Keeps s (.write region pos bytes) := by
  obtain ⟨r, hr, hin⟩ := hallowed
  have hget : s.regions[region]? = some r := hr
  refine ⟨{ s with file := writeAt s.file (r.offset + pos) bytes }, ?_, ?_, trivial⟩
  · simp only [exec, hget, hin, if_true]
  · rcases h with ⟨-, hnil⟩ | ⟨l, stop, held⟩
    · rw [hnil] at hget
      cases hget
    · exact .inr ⟨l, stop, held.write ((held.returned r).mp (mem_of_getElem? hget)) hin⟩

/-- From an unused file on: if every call has a tag and finds no region that begins with white
space, then every call returns, regions of one tag and length are the same and others disjoint, and
no call changes the line or the bytes of a region that is there. -/
theorem metadata_store_consistent (f : Bytes) (unused : Unused f) (ops : List Op)
    (h : Runs.Along exec (fun s op => Allowed s op ∧ Harmless s op) ⟨f, []⟩ ops) :
    (∃ s, Runs.run exec ⟨f, []⟩ ops = .ok s) ∧
      Runs.Throughout exec Consistent ⟨f, []⟩ ops ∧
      Runs.Along exec (fun s op => ∃ s', exec s op = .ok s' ∧ Undisturbed s op s') ⟨f, []⟩ ops := by
  have hstep : ∀ s op, Inv s → Allowed s op ∧ Harmless s op → Keeps s op := by
    rintro s op hinv ⟨hallowed, hharmless⟩
    cases op with
    | find tag length => exact step_find hinv hallowed hharmless
    | write region pos bytes => exact step_write hinv hallowed
  obtain ⟨hruns, hthroughout, halong⟩ :=
    Runs.served_of_along hstep ops ⟨f, []⟩ (.inl ⟨unused, rfl⟩) h
  exact ⟨hruns, hthroughout.imp fun _ hinv => hinv.consistent, halong⟩

theorem writeAt_front {n : Nat} (hfront : front.length = n) (rest : Bytes) (k : Nat) (bytes : Bytes) :
    writeAt (front ++ rest) (n + k) bytes = front ++ writeAt rest k bytes := by
  subst hfront
  have hzeros : (rest ++ List.replicate (front.length + k) 0).take k =
      (rest ++ List.replicate k (0 : UInt8)).take k := by
    rw [Nat.add_comm, ← replicate_append_replicate, ← append_assoc,
      take_append_of_le_length (by rw [length_append, length_replicate]; omega)]
  rw [writeAt, writeAt, append_assoc front, take_length_add_append, hzeros, Nat.add_assoc,
    drop_length_add_append]
  simp only [append_assoc]

section Files

/-! A file that was not used yet, and the record of one call in it. -/

variable {front : Bytes} (hfront : front.length = METADATA_START)

def oneRecord (data : Bytes) : Bytes :=
  METADATA_MAGIC ++ header [97] 4 ++ data ++ header METADATA_EOD 0

include hfront

theorem exec_first : exec ⟨front ++ [0, 0, 0, 0], []⟩ (.find [97] 4) =
    .ok ⟨front ++ oneRecord [0, 0, 0, 0], [⟨[97], 4, 16392⟩]⟩ := by
  have hshort : ¬ (front ++ [0, 0, 0, 0]).length < METADATA_START + 4 := by
    rw [length_append, hfront]
    decide
  have hmagic : ((front ++ [0, 0, 0, 0]).drop METADATA_START).take 4 ≠ METADATA_MAGIC := by
    rw [drop_left' hfront]
    decide
  have hbegin := writeAt_front hfront [0, 0, 0, 0] 0 METADATA_MAGIC
  rw [Nat.add_zero] at hbegin
  have hline := writeAt_front hfront (writeAt [0, 0, 0, 0] 0 METADATA_MAGIC) 4 (header [97] 4)
  have heod := writeAt_front hfront
    (writeAt (writeAt [0, 0, 0, 0] 0 METADATA_MAGIC) 4 (header [97] 4)) 12 (header METADATA_EOD 0)
  have hsame : writeAt (writeAt (writeAt [0, 0, 0, 0] 0 METADATA_MAGIC) 4 (header [97] 4)) 12
      (header METADATA_EOD 0) = oneRecord [0, 0, 0, 0] := by decide +kernel
  have hoffset : METADATA_START + 4 + (header [97] 4).length = 16392 := by decide +kernel
  have hbehind : 16392 + UInt32.toNat 4 = METADATA_START + 12 := by decide
  have hfind : metadataFind (front ++ [0, 0, 0, 0]) [97] 4 =
      some (16392, front ++ oneRecord [0, 0, 0, 0]) := by
    rw [metadataFind, if_neg hshort, if_pos hmagic, metadataAdd, hbegin, hline, hoffset, hbehind,
      heod, hsame]
  simp only [exec, hfind, nil_append]

theorem exec_fill {data : Bytes} (hlen : data.length = 4)
    (hdata : writeAt (oneRecord [0, 0, 0, 0]) 8 data = oneRecord data) :
    exec ⟨front ++ oneRecord [0, 0, 0, 0], [⟨[97], 4, 16392⟩]⟩ (.write 0 0 data) =
      .ok ⟨front ++ oneRecord data, [⟨[97], 4, 16392⟩]⟩ := by
  have hin : 0 + data.length ≤ UInt32.toNat 4 := by
    rw [hlen]
    decide
  have hwrite : writeAt (front ++ oneRecord [0, 0, 0, 0]) (16392 + 0) data =
      front ++ oneRecord data := by
    rw [show 16392 + 0 = METADATA_START + 8 from rfl, writeAt_front hfront, hdata]
  simp only [exec, List.getElem?_cons_zero, if_pos hin, hwrite]

theorem exec_blank : exec ⟨front ++ oneRecord [32, 1, 2, 3], [⟨[97], 4, 16392⟩]⟩ (.find [97] 4) =
    .ok ⟨front ++ oneRecord [32, 1, 2, 3], [⟨[97], 4, 16392⟩, ⟨[97], 4, 16393⟩]⟩ := by
  have hsize : (oneRecord [32, 1, 2, 3]).length = 18 := by decide +kernel
  have hmagic : (oneRecord [32, 1, 2, 3]).take 4 = METADATA_MAGIC := by decide +kernel
  have hscan : search [97] 4 (METADATA_START + 18) ((oneRecord [32, 1, 2, 3]).drop 4)
      (METADATA_START + 4) = .found 16393 := by decide +kernel
  have hbehind : (front ++ oneRecord [32, 1, 2, 3]).drop (METADATA_START + 4) =
      (oneRecord [32, 1, 2, 3]).drop 4 := by
    rw [← hfront, drop_length_add_append]
  have hfind : metadataFind (front ++ oneRecord [32, 1, 2, 3]) [97] 4 =
      some (16393, front ++ oneRecord [32, 1, 2, 3]) := by
    rw [metadataFind, length_append, hfront, hsize, if_neg (by omega),
      drop_left' hfront, if_neg (not_not_intro hmagic), hbehind, hscan]
  simp only [exec, hfind, cons_append, nil_append]

end Files

def zeros : Bytes := List.replicate METADATA_START 0 ++ [0, 0, 0, 0]

theorem length_zeros : (List.replicate METADATA_START (0 : UInt8)).length = METADATA_START :=
  length_replicate

theorem metadata_store_consistent_digits :
    Runs.Throughout exec Consistent ⟨zeros, []⟩
      [.find [97] 4, .write 0 0 [48, 32, 32, 51], .find [97] 4] := by
  refine (metadata_store_consistent zeros ⟨?_, .inl ?_⟩
    [.find [97] 4, .write 0 0 [48, 32, 32, 51], .find [97] 4] ⟨?_, fun s hs => ?_⟩).2.1
  · rw [zeros, length_append, length_zeros]
    decide
  · rw [zeros, drop_left' length_zeros]
    decide
  · decide
  · have hfirst := exec_first length_zeros
    rw [← zeros, hs] at hfirst
    rw [Except.ok.inj hfirst]
    refine ⟨by decide, fun s hs => ?_⟩
    rw [exec_fill length_zeros rfl (by decide +kernel)] at hs
    rw [← Except.ok.inj hs]
    refine ⟨⟨by decide, by decide, fun r hr => ?_⟩, fun _ _ => trivial⟩
    rw [mem_singleton.mp hr]
    dsimp only
    rw [show 16392 = (List.replicate METADATA_START (0 : UInt8)).length + 8 by rw [length_zeros]; rfl,
      drop_length_add_append]
    decide +kernel

/-- A hash that begins with a blank: the same tag and length give another region. -/
theorem blank_hash_moves_region :
    (Runs.run exec ⟨zeros, []⟩
        [.find [97] 4, .write 0 0 [32, 1, 2, 3], .find [97] 4]).map State.regions =
      .ok [⟨[97], 4, 16392⟩, ⟨[97], 4, 16393⟩] := by
  rw [zeros, Runs.run_cons_ok (exec_first length_zeros),
    Runs.run_cons_ok (exec_fill length_zeros rfl (by decide +kernel)), Runs.run_cons_ok (exec_blank length_zeros)]
  rfl

end SystemCore.FsMgr.Metadata
