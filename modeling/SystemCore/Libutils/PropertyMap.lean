import Mathlib.Data.List.Nodup
import Mathlib.Data.List.ReduceOption
import Mathlib.Data.List.TakeWhile
import SystemCore.Lib.Outcome

/-!
# Property files

`PropertyMap::Parser::parse` reads a property file with a tokenizer that has one cursor. The cursor
is the rest of the text here. A token and a run of delimiters end at the end of a line, where
`nextChar` would go on to the next one; a zero byte is a delimiter like any other, as `strchr` finds
the end of the list of delimiters.

The map is the list of its properties in the order they were added. The location in the messages is
left out.
-/
namespace SystemCore.Libutils.PropertyMap

open Lib List

/-! ## The tokenizer -/

def newline : UInt8 := 10

def isDelimiter (ch : UInt8) (delimiters : List UInt8) : Bool := ch = 0 || delimiters.contains ch

def isEol : List UInt8 → Bool
  | [] => true
  | ch :: _ => ch = newline

/-- The character at the cursor, which is zero at the end of the file. -/
def peekChar : List UInt8 → UInt8
  | [] => 0
  | ch :: _ => ch

/-- The loop of `nextToken` goes on at the character. -/
def inToken (delimiters : List UInt8) (ch : UInt8) : Bool :=
  !(ch = newline || isDelimiter ch delimiters)

def nextToken (delimiters : List UInt8) (rest : List UInt8) : List UInt8 × List UInt8 :=
  (rest.takeWhile (inToken delimiters), rest.dropWhile (inToken delimiters))

def nextLine : List UInt8 → List UInt8
  | [] => []
  | ch :: rest => if ch = newline then rest else nextLine rest

/-- The loop of `skipDelimiters` goes on at the character. -/
def isSkipped (delimiters : List UInt8) (ch : UInt8) : Bool :=
  !(ch = newline || !isDelimiter ch delimiters)

def skipDelimiters (delimiters : List UInt8) (rest : List UInt8) : List UInt8 :=
  rest.dropWhile (isSkipped delimiters)

/-! ## The parser -/

/-- Blank, tab and carriage return. -/
def WHITESPACE : List UInt8 := [32, 9, 13]

def WHITESPACE_OR_PROPERTY_DELIMITER : List UInt8 := [32, 9, 13, 61]

abbrev Property := List UInt8 × List UInt8

def hasProperty (key : List UInt8) (map : List Property) : Bool := map.any fun p => p.1 = key

/-- The places where `BAD_VALUE` is returned. -/
inductive BadValue where
  | emptyKey
  | expectedEquals
  | reservedCharacter
  | expectedEndOfLine
  | duplicateKey
  deriving DecidableEq, Repr

/-- A property, from the first character of its key. -/
def parseProperty (rest : List UInt8) (map : List Property) :
    Except BadValue (List UInt8 × List Property) :=
  let (keyToken, rest) := nextToken WHITESPACE_OR_PROPERTY_DELIMITER rest
  if keyToken = [] then .error .emptyKey
  else
    let rest := skipDelimiters WHITESPACE rest
    if peekChar rest ≠ 61 then .error .expectedEquals
    else
      let rest := skipDelimiters WHITESPACE rest.tail
      let (valueToken, rest) := nextToken WHITESPACE rest
      if valueToken.contains 92 = true ∨ valueToken.contains 34 = true then
        .error .reservedCharacter
      else
        let rest := skipDelimiters WHITESPACE rest
        if isEol rest = false then .error .expectedEndOfLine
        else if hasProperty keyToken map = true then .error .duplicateKey
        else .ok (rest, map ++ [(keyToken, valueToken)])

/-- The body of the loop, up to `nextLine`. -/
def parseLine (rest : List UInt8) (map : List Property) :
    Except BadValue (List UInt8 × List Property) :=
  let rest := skipDelimiters WHITESPACE rest
  if isEol rest = false ∧ peekChar rest ≠ 35 then parseProperty rest map
  else .ok (rest, map)

theorem length_nextLine_le (rest : List UInt8) : (nextLine rest).length ≤ rest.length := by
  induction rest with
  | nil => exact Nat.le_refl 0
  | cons ch rest ih =>
    rw [nextLine]
    split
    · exact Nat.le_succ rest.length
    · exact Nat.le_succ_of_le ih

variable {rest line rest' : List UInt8} {map map' : List Property} {c : UInt8} {e : Option Property}

/-- Each line uses up some of the text. -/
theorem length_nextLine_lt (h : rest ≠ []) : (nextLine rest).length < rest.length := by
  cases rest with
  | nil => exact absurd rfl h
  | cons ch rest =>
    rw [nextLine]
    split
    · exact Nat.lt_succ_self rest.length
    · exact Nat.lt_succ_of_le (length_nextLine_le rest)

theorem length_dropWhile_le (p : UInt8 → Bool) (rest : List UInt8) :
    (rest.dropWhile p).length ≤ rest.length :=
  (dropWhile_sublist p).length_le

theorem parseProperty_length_le (h : parseProperty rest map = .ok (rest', map')) :
    rest'.length ≤ rest.length := by
  unfold parseProperty at h
  simp only [nextToken] at h
  obtain ⟨-, h⟩ := ok_of_check h
  obtain ⟨-, h⟩ := ok_of_check h
  obtain ⟨-, h⟩ := ok_of_check h
  obtain ⟨-, h⟩ := ok_of_check h
  obtain ⟨-, h⟩ := ok_of_check h
  rw [← (Prod.mk.inj (Except.ok.inj h)).1]
  apply List.Sublist.length_le
  -- from the last delimiters back to the key
  apply (dropWhile_sublist _).trans
  apply (dropWhile_sublist _).trans
  apply (dropWhile_sublist _).trans
  apply (tail_sublist _).trans
  apply (dropWhile_sublist _).trans
  exact dropWhile_sublist _

theorem parseLine_length_le (h : parseLine rest map = .ok (rest', map')) :
    rest'.length ≤ rest.length := by
  unfold parseLine at h
  simp only [] at h
  split at h
  case isTrue => exact Nat.le_trans (parseProperty_length_le h) (length_dropWhile_le _ rest)
  case isFalse =>
    rw [← (Prod.mk.inj (Except.ok.inj h)).1]
    exact length_dropWhile_le _ rest

/-- `PropertyMap::Parser::parse` from the rest of a text. -/
def parse (rest : List UInt8) (map : List Property) : Except BadValue (List Property) :=
  if rest = [] then .ok map
  else
    match _hparsed : parseLine rest map with
    | .error e => .error e
    | .ok (rest', map') => parse (nextLine rest') map'
termination_by rest.length
decreasing_by
  rename_i hrest
  have hle := parseLine_length_le _hparsed
  by_cases hend : rest' = []
  · rw [hend, nextLine, List.length_nil]
    exact List.length_pos_of_ne_nil hrest
  · exact Nat.lt_of_lt_of_le (length_nextLine_lt hend) hle

/-! ## The grammar -/

def isSpace (ch : UInt8) : Bool := WHITESPACE.contains ch

/-- The forms of a line, with the property it gives. A line whose first character is `#` is a comment,
whatever follows. -/
inductive LineForm : List UInt8 → Option Property → Prop
  | blank {w : List UInt8} (hw : ∀ c ∈ w, isSpace c = true) : LineForm w none
  | comment {w text : List UInt8} (hw : ∀ c ∈ w, isSpace c = true) : LineForm (w ++ 35 :: text) none
  | property {w₁ key w₂ w₃ value w₄ : List UInt8} (hw₁ : ∀ c ∈ w₁, isSpace c = true)
      (hw₂ : ∀ c ∈ w₂, isSpace c = true) (hw₃ : ∀ c ∈ w₃, isSpace c = true)
      (hw₄ : ∀ c ∈ w₄, isSpace c = true) (hkey : key ≠ []) (hcomment : key.head? ≠ some 35)
      (hkeyChars : ∀ c ∈ key, isSpace c = false ∧ c ≠ 61)
      (hvalueChars : ∀ c ∈ value, isSpace c = false ∧ c ≠ 92 ∧ c ≠ 34) :
      LineForm (w₁ ++ (key ++ (w₂ ++ 61 :: (w₃ ++ (value ++ w₄))))) (some (key, value))

/-! ## One line -/

/-- A character that can be in a line of a text without zero bytes. -/
def InLine (ch : UInt8) : Prop := ch ≠ newline ∧ ch ≠ 0

section Scan

variable {p : UInt8 → Bool} {tail : List UInt8}

/-- A scan takes a run, where the next character stops it. -/
theorem scan_run (run rest : List UInt8) (hrun : ∀ c ∈ run, p c = true)
    (hstop : ∀ c ∈ rest.head?, p c = false) :
    (run ++ rest).takeWhile p = run ∧ (run ++ rest).dropWhile p = rest := by
  rw [takeWhile_append_of_pos hrun, dropWhile_append_of_pos hrun]
  cases rest with
  | nil => exact ⟨append_nil run, rfl⟩
  | cons c rest =>
    have hc : ¬ p c = true := by
      rw [hstop c rfl]
      exact Bool.false_ne_true
    rw [takeWhile_cons_of_neg hc, dropWhile_cons_of_neg hc, append_nil]
    exact ⟨rfl, rfl⟩

theorem head_dropWhile (line : List UInt8) : ∀ c ∈ (line.dropWhile p).head?, p c = false := by
  intro c hc
  have hne := List.head?_dropWhile_not p line
  rw [Option.mem_def.mp hc] at hne
  exact hne

theorem head_append {P : UInt8 → Prop} {run rest : List UInt8} (hrun : ∀ c ∈ run.head?, P c)
    (hrest : ∀ c ∈ rest.head?, P c) : ∀ c ∈ (run ++ rest).head?, P c := by
  cases run with
  | nil => exact hrest
  | cons c run => exact hrun

theorem stop_of_isEol (hp : p newline = false) (hend : isEol tail = true) :
    ∀ c ∈ tail.head?, p c = false := by
  intro c hc
  cases tail with
  | nil => cases hc
  | cons d tail =>
    rw [← Option.mem_some_iff.mp hc, show d = newline from of_decide_eq_true hend, hp]

/-- A scan stops at the end of the line. -/
theorem scan_line (hp : p newline = false) (hend : isEol tail = true) (line : List UInt8) :
    ∃ run more, line = run ++ more ∧ (∀ c ∈ run, p c = true) ∧
      (line ++ tail).takeWhile p = run ∧ (line ++ tail).dropWhile p = more ++ tail := by
  have hsplit : line.takeWhile p ++ (line.dropWhile p ++ tail) = line ++ tail := by
    rw [← append_assoc, takeWhile_append_dropWhile]
  have hscan := scan_run (line.takeWhile p) _ (fun c hc => mem_takeWhile_imp hc)
    (head_append (head_dropWhile line) (stop_of_isEol hp hend))
  rw [hsplit] at hscan
  exact ⟨_, _, takeWhile_append_dropWhile.symm, fun c hc => mem_takeWhile_imp hc, hscan⟩

end Scan

theorem isSkipped_eq (h : InLine c) : isSkipped WHITESPACE c = isSpace c := by
  rw [isSkipped, isDelimiter, decide_eq_false h.1, decide_eq_false h.2, Bool.false_or, Bool.false_or,
    Bool.not_not]
  rfl

theorem skipped_iff {w : List UInt8} (h : ∀ c ∈ w, InLine c) :
    (∀ c ∈ w, isSkipped WHITESPACE c = true) ↔ ∀ c ∈ w, isSpace c = true :=
  forall₂_congr fun c hc => by rw [isSkipped_eq (h c hc)]

theorem inToken_eq (h : InLine c) (delimiters : List UInt8) :
    inToken delimiters c = !delimiters.contains c := by
  rw [inToken, isDelimiter, decide_eq_false h.1, decide_eq_false h.2, Bool.false_or, Bool.false_or]

theorem inToken_key (h : InLine c) :
    inToken WHITESPACE_OR_PROPERTY_DELIMITER c = true ↔ isSpace c = false ∧ c ≠ 61 := by
  rw [inToken_eq h]
  simp [WHITESPACE_OR_PROPERTY_DELIMITER, isSpace, WHITESPACE, and_assoc]

theorem inToken_value (h : InLine c) : inToken WHITESPACE c = true ↔ isSpace c = false := by
  rw [inToken_eq h, Bool.not_eq_true']
  rfl

theorem inToken_of_isSkipped {delimiters : List UInt8} (h : isSkipped delimiters c = true) :
    inToken delimiters c = false := by
  simp only [isSkipped, Bool.not_eq_true', Bool.or_eq_false_iff, Bool.not_eq_false'] at h
  simp only [inToken, h.2, Bool.or_true, Bool.not_true]

theorem isSkipped_newline : isSkipped WHITESPACE newline = false := rfl

theorem inToken_newline (delimiters : List UInt8) : inToken delimiters newline = false := rfl

theorem parse_nil (map : List Property) : parse [] map = .ok map := by
  rw [parse, if_pos rfl]

theorem parse_line (h : rest ≠ []) (map : List Property) :
    parse rest map =
      match parseLine rest map with
      | .error e => .error e
      | .ok (rest', map') => parse (nextLine rest') map' := by
  rw [parse, if_neg h]
  split
  case h_1 e he => rw [he]
  case h_2 rest' map' hok => rw [hok]

theorem nextLine_append {r : List UInt8} (h : ∀ c ∈ r, InLine c) (tail : List UInt8) :
    nextLine (r ++ tail) = nextLine tail := by
  induction r with
  | nil => rfl
  | cons c r ih =>
    rw [cons_append, nextLine, if_neg (h c mem_cons_self).1]
    exact ih fun d hd => h d (mem_cons_of_mem c hd)

section Line

variable {tail : List UInt8} (hline : ∀ c ∈ line, InLine c) (hend : isEol tail = true)

include hend

theorem isEol_line (hline : ∀ c ∈ line, InLine c) : isEol (line ++ tail) = decide (line = []) := by
  cases line with
  | nil => exact hend
  | cons c line => exact decide_eq_false (hline c mem_cons_self).1

/-- At the end of a line there is none of the characters that the parser looks for. -/
theorem peekChar_line (hc : InLine c) (h : peekChar (line ++ tail) = c) : ∃ more, line = c :: more := by
  cases line with
  | nil =>
    cases tail with
    | nil => exact absurd h.symm hc.2
    | cons d tail => exact absurd (h.symm.trans (of_decide_eq_true hend)) hc.1
  | cons d line => exact ⟨line, congrArg (· :: line) h⟩

include hline

/-- A line that the parser accepts has one of the forms. -/
theorem form_of_parseLine (h : parseLine (line ++ tail) map = .ok (rest', map')) :
    ∃ e, LineForm line e ∧ map' = map ++ e.toList ∧ (∀ p ∈ e, ¬ hasProperty p.1 map = true) ∧
      nextLine rest' = nextLine tail := by
  obtain ⟨w₁, l₁, rfl, hw₁, -, hdrop₁⟩ := scan_line isSkipped_newline hend line
  simp only [parseLine, skipDelimiters, hdrop₁] at h
  rw [forall_mem_append] at hline
  obtain ⟨hl₁, hline⟩ := hline
  rw [skipped_iff hl₁] at hw₁
  split at h
  case isFalse hstop =>
    obtain ⟨rfl, rfl⟩ := Prod.mk.inj (Except.ok.inj h)
    refine ⟨none, ?_, (append_nil map).symm, by simp, nextLine_append hline tail⟩
    rw [isEol_line hend hline, decide_eq_false_iff_not, not_and, not_not] at hstop
    by_cases hnil : l₁ = []
    · rw [hnil, append_nil]
      exact .blank hw₁
    · obtain ⟨text, rfl⟩ := peekChar_line hend ⟨by decide, by decide⟩ (hstop hnil)
      exact .comment hw₁
  case isTrue hgo =>
    obtain ⟨key, l₂, rfl, hkey, htake₂, hdrop₂⟩ :=
      scan_line (inToken_newline WHITESPACE_OR_PROPERTY_DELIMITER) hend l₁
    obtain ⟨w₂, l₃, rfl, hw₂, -, hdrop₃⟩ := scan_line isSkipped_newline hend l₂
    simp only [parseProperty, nextToken, skipDelimiters, htake₂, hdrop₂, hdrop₃] at h
    obtain ⟨hne, h⟩ := ok_of_check h
    obtain ⟨hequals, h⟩ := ok_of_check h
    obtain ⟨l₄, rfl⟩ := peekChar_line hend ⟨by decide, by decide⟩ (not_not.mp hequals)
    obtain ⟨w₃, l₅, rfl, hw₃, -, hdrop₅⟩ := scan_line isSkipped_newline hend l₄
    obtain ⟨value, l₆, rfl, hvalue, htake₆, hdrop₆⟩ :=
      scan_line (inToken_newline WHITESPACE) hend l₅
    obtain ⟨w₄, l₇, rfl, hw₄, -, hdrop₇⟩ := scan_line isSkipped_newline hend l₆
    simp only [cons_append, tail_cons, hdrop₅, htake₆, hdrop₆, hdrop₇] at h
    obtain ⟨hreserved, h⟩ := ok_of_check h
    obtain ⟨heol, h⟩ := ok_of_check h
    obtain ⟨hnew, h⟩ := ok_of_check h
    simp only [forall_mem_append, forall_mem_cons] at hline
    obtain ⟨hkeyLine, hl₂, -, hl₃, hvalueLine, hl₄, hl₇⟩ := hline
    rw [isEol_line hend hl₇, decide_eq_false_iff_not, not_not] at heol
    subst heol
    obtain ⟨rfl, rfl⟩ := Prod.mk.inj (Except.ok.inj h)
    rw [not_or, contains_iff_mem, contains_iff_mem] at hreserved
    rw [append_nil]
    refine ⟨some (key, value), .property hw₁ ((skipped_iff hl₂).mp hw₂) ((skipped_iff hl₃).mp hw₃)
      ((skipped_iff hl₄).mp hw₄) hne (fun hhash => ?_)
      (fun c hc => (inToken_key (hkeyLine c hc)).mp (hkey c hc))
      (fun c hc => ⟨(inToken_value (hvalueLine c hc)).mp (hvalue c hc), ?_, ?_⟩), rfl, ?_, rfl⟩
    · obtain ⟨key', rfl⟩ := head?_eq_some_iff.mp hhash
      exact hgo.2 rfl
    · exact fun h92 => hreserved.1 (h92 ▸ hc)
    · exact fun h34 => hreserved.2 (h34 ▸ hc)
    · rintro p ⟨⟩
      exact hnew

omit hline in
/-- Behind an empty value all white space is skipped at once. -/
theorem space_around_value {w w' value : List UInt8}
    (hw : ∀ c ∈ w, isSkipped WHITESPACE c = true) (hw' : ∀ c ∈ w', isSkipped WHITESPACE c = true)
    (hvalue : ∀ c ∈ value, isSkipped WHITESPACE c = false) :
    ∃ u v, w ++ (value ++ w') = u ++ (value ++ v) ∧
      (∀ c ∈ u, isSkipped WHITESPACE c = true) ∧ (∀ c ∈ v, isSkipped WHITESPACE c = true) ∧
      ∀ c ∈ (value ++ (v ++ tail)).head?, isSkipped WHITESPACE c = false := by
  cases value with
  | nil =>
    exact ⟨w ++ w', [], by simp, forall_mem_append.mpr ⟨hw, hw'⟩, by simp,
      stop_of_isEol isSkipped_newline hend⟩
  | cons d value =>
    refine ⟨w, w', rfl, hw, hw', ?_⟩
    rintro c ⟨⟩
    exact hvalue d mem_cons_self

omit hline in
/-- From the key on, such a line is one property. -/
theorem parseProperty_of_form {key w u value v : List UInt8} (hkey : key ≠ [])
    (hkeyToken : ∀ c ∈ key, inToken WHITESPACE_OR_PROPERTY_DELIMITER c = true)
    (hw : ∀ c ∈ w, isSkipped WHITESPACE c = true)
    (hwStop : ∀ c ∈ w, inToken WHITESPACE_OR_PROPERTY_DELIMITER c = false)
    (hu : ∀ c ∈ u, isSkipped WHITESPACE c = true) (hv : ∀ c ∈ v, isSkipped WHITESPACE c = true)
    (hvalueStop : ∀ c ∈ (value ++ (v ++ tail)).head?, isSkipped WHITESPACE c = false)
    (hvalue : ∀ c ∈ value, inToken WHITESPACE c = true ∧ c ≠ 92 ∧ c ≠ 34)
    (hnew : ¬ hasProperty key map = true) :
    parseProperty (key ++ (w ++ 61 :: (u ++ (value ++ (v ++ tail))))) map =
      .ok (tail, map ++ [(key, value)]) := by
  have h₁ := scan_run key (w ++ 61 :: (u ++ (value ++ (v ++ tail)))) hkeyToken
    (head_append (fun d hd => hwStop d (mem_of_mem_head? hd)) (by rintro d ⟨⟩; rfl))
  have h₂ := scan_run w (61 :: (u ++ (value ++ (v ++ tail)))) hw (by rintro d ⟨⟩; rfl)
  have h₃ := scan_run u (value ++ (v ++ tail)) hu hvalueStop
  have h₄ := scan_run value (v ++ tail) (fun d hd => (hvalue d hd).1)
    (head_append (fun d hd => inToken_of_isSkipped (hv d (mem_of_mem_head? hd)))
      (stop_of_isEol (inToken_newline _) hend))
  have h₅ := scan_run v tail hv (stop_of_isEol isSkipped_newline hend)
  have hreserved : ¬ (value.contains 92 = true ∨ value.contains 34 = true) := by
    rw [contains_iff_mem, contains_iff_mem]
    rintro (hmem | hmem)
    · exact (hvalue 92 hmem).2.1 rfl
    · exact (hvalue 34 hmem).2.2 rfl
  simp only [parseProperty, nextToken, skipDelimiters, h₁, h₂.2, tail_cons, h₃.2, h₄, h₅.2]
  rw [if_neg hkey, if_neg (show ¬ peekChar (61 :: _) ≠ 61 from not_not_intro rfl), if_neg hreserved,
    hend, if_neg nofun, if_neg hnew]

/-- A line of one of the forms is accepted, if its key is new. -/
theorem parseLine_of_form (h : LineForm line e) (hnew : ∀ p ∈ e, ¬ hasProperty p.1 map = true) :
    ∃ rest', parseLine (line ++ tail) map = .ok (rest', map ++ e.toList) ∧
      nextLine rest' = nextLine tail := by
  cases h with
  | blank hw =>
    have hskip := (scan_run line tail ((skipped_iff hline).mpr hw)
      (stop_of_isEol isSkipped_newline hend)).2
    refine ⟨tail, ?_, rfl⟩
    rw [parseLine, skipDelimiters, hskip, if_neg (by simp [hend]), Option.toList_none, append_nil]
  | @comment w text hw =>
    rw [forall_mem_append] at hline
    have hskip := (scan_run w (35 :: text ++ tail) ((skipped_iff hline.1).mpr hw)
      (by rintro c ⟨⟩; rfl)).2
    refine ⟨35 :: text ++ tail, ?_, nextLine_append hline.2 tail⟩
    rw [parseLine, skipDelimiters, append_assoc, hskip, if_neg (fun hgo => hgo.2 rfl),
      Option.toList_none, append_nil]
  | @property w₁ key w₂ w₃ value w₄ hw₁ hw₂ hw₃ hw₄ hkey hcomment hkeyChars hvalueChars =>
    simp only [forall_mem_append, forall_mem_cons] at hline
    obtain ⟨hl₁, hkeyLine, hl₂, -, hl₃, hvalueLine, hl₄⟩ := hline
    rw [← skipped_iff hl₃] at hw₃
    rw [← skipped_iff hl₄] at hw₄
    obtain ⟨u, v, huv, hu, hv, hvalueStop⟩ := space_around_value hend hw₃ hw₄ fun d hd =>
      (isSkipped_eq (hvalueLine d hd)).trans (hvalueChars d hd).1
    obtain ⟨c, key, rfl⟩ := exists_cons_of_ne_nil hkey
    have h₁ := scan_run w₁ (c :: key ++ (w₂ ++ 61 :: (u ++ (value ++ (v ++ tail)))))
      ((skipped_iff hl₁).mpr hw₁) (by
      rintro d ⟨⟩
      exact (isSkipped_eq (hkeyLine c mem_cons_self)).trans (hkeyChars c mem_cons_self).1)
    have hgo : isEol (c :: key ++ (w₂ ++ 61 :: (u ++ (value ++ (v ++ tail))))) = false ∧
        peekChar (c :: key ++ (w₂ ++ 61 :: (u ++ (value ++ (v ++ tail))))) ≠ 35 :=
      ⟨decide_eq_false (hkeyLine c mem_cons_self).1, fun hhash => hcomment (congrArg some hhash)⟩
    have htext : w₁ ++ (c :: key ++ (w₂ ++ 61 :: (w₃ ++ (value ++ w₄)))) ++ tail =
        w₁ ++ (c :: key ++ (w₂ ++ 61 :: (u ++ (value ++ (v ++ tail))))) := by
      simp only [huv, append_assoc, cons_append]
    refine ⟨tail, ?_, rfl⟩
    rw [htext, parseLine, skipDelimiters, h₁.2, if_pos hgo]
    refine parseProperty_of_form hend hkey (fun d hd => ?_) ((skipped_iff hl₂).mpr hw₂)
      (fun d hd => ?_) hu hv hvalueStop (fun d hd => ⟨?_, (hvalueChars d hd).2⟩) (hnew _ rfl)
    · exact (inToken_key (hkeyLine d hd)).mpr (hkeyChars d hd)
    · refine Bool.eq_false_iff.mpr fun htoken => ?_
      have hspace := hw₂ d hd
      rw [((inToken_key (hl₂ d hd)).mp htoken).1] at hspace
      cases hspace
    · exact (inToken_value (hvalueLine d hd)).mpr (hvalueChars d hd).1

end Line

/-! ## The whole text -/

theorem hasProperty_iff (key : List UInt8) (map : List Property) :
    hasProperty key map = true ↔ key ∈ map.map Prod.fst := by
  rw [hasProperty, any_eq_true, mem_map]
  simp only [decide_eq_true_eq]

theorem nodup_concat_iff (hmap : (map.map Prod.fst).Nodup) (p : Property) :
    ((map ++ [p]).map Prod.fst).Nodup ↔ ¬ hasProperty p.1 map = true := by
  rw [hasProperty_iff, map_append, map_singleton, nodup_append_comm,
    singleton_append, nodup_cons]
  exact and_iff_left hmap

/-- A text is parsed if its first line has one of the forms and gives no key that is there already,
and the rest is parsed. -/
theorem parse_first_line {tail : List UInt8} (hline : ∀ c ∈ line, InLine c)
    (hend : isEol tail = true) (hmap : (map.map Prod.fst).Nodup) (result : List Property) :
    parse (line ++ tail) map = .ok result ↔
      ∃ e, LineForm line e ∧ ((map ++ e.toList).map Prod.fst).Nodup
        ∧ parse (nextLine tail) (map ++ e.toList) = .ok result := by
  have hnodup : ∀ e : Option Property,
      ((map ++ e.toList).map Prod.fst).Nodup ↔ ∀ p ∈ e, ¬ hasProperty p.1 map = true := by
    intro e
    cases e with
    | none => simpa using hmap
    | some p => simpa using nodup_concat_iff hmap p
  have hstep : parse (line ++ tail) map =
      match parseLine (line ++ tail) map with
      | .error e => .error e
      | .ok (rest', map') => parse (nextLine rest') map' := by
    by_cases hnil : line ++ tail = []
    · rw [hnil]
      rfl
    · exact parse_line hnil map
  rw [hstep]
  constructor
  · intro h
    cases hparse : parseLine (line ++ tail) map with
    | error e =>
      rw [hparse] at h
      cases h
    | ok r =>
      obtain ⟨e, hform, hmap', hnew, hnext⟩ := form_of_parseLine hline hend hparse
      rw [hparse] at h
      refine ⟨e, hform, (hnodup e).mpr hnew, ?_⟩
      rw [← hnext, ← hmap']
      exact h
  · rintro ⟨e, hform, hnew, h⟩
    obtain ⟨rest', hparse, hnext⟩ := parseLine_of_form hline hend hform ((hnodup e).mp hnew)
    rw [hparse]
    simp only [hnext, h]

theorem reduceOption_cons (e : Option Property) (entries : List (Option Property)) :
    (e :: entries).reduceOption = e.toList ++ entries.reduceOption := by
  cases e with
  | none => rw [reduceOption_cons_of_none, Option.toList_none, nil_append]
  | some p => rw [reduceOption_cons_of_some]; rfl

theorem parse_lines {text : List UInt8} (hzero : 0 ∉ text) (hmap : (map.map Prod.fst).Nodup)
    (result : List Property) :
    parse text map = .ok result ↔
      ∃ entries, List.Forall₂ LineForm (text.splitOn newline) entries
        ∧ (result.map Prod.fst).Nodup ∧ result = map ++ entries.reduceOption := by
  -- on the length of the text, line by line
  induction hlength : text.length using Nat.strong_induction_on generalizing text map with
  | h n ih =>
    have hsplit : text.takeWhile (fun c => c ≠ newline) ++ text.dropWhile (fun c => c ≠ newline) = text :=
      takeWhile_append_dropWhile
    have hline : ∀ c ∈ text.takeWhile (fun c => c ≠ newline), InLine c := by
      intro c hc
      have hne := mem_takeWhile_imp hc
      rw [decide_eq_true_eq] at hne
      refine ⟨hne, ?_⟩
      intro hc0
      exact hzero (hc0 ▸ (takeWhile_sublist _).mem hc)
    have hhead := head_dropWhile (p := fun c => decide (c ≠ newline)) text
    generalize text.takeWhile (fun c => decide (c ≠ newline)) = line at *
    generalize text.dropWhile (fun c => decide (c ≠ newline)) = tail at *
    subst hsplit
    have hsep : newline ∉ line := fun hmem => (hline newline hmem).1 rfl
    obtain ⟨hend, lines, hlines, hrest⟩ : isEol tail = true ∧ ∃ lines,
        (line ++ tail).splitOn newline = line :: lines ∧ ∀ m : List Property, (m.map Prod.fst).Nodup →
          (parse (nextLine tail) m = .ok result ↔ ∃ entries, List.Forall₂ LineForm lines entries
            ∧ (result.map Prod.fst).Nodup ∧ result = m ++ entries.reduceOption) := by
      cases tail with
      | nil =>
        refine ⟨rfl, [], ?_, fun m hm => ?_⟩
        · rw [append_nil, splitOn_eq_singleton hsep]
        · rw [nextLine, parse_nil, Except.ok.injEq]
          constructor
          · rintro rfl
            exact ⟨[], .nil, hm, (append_nil m).symm⟩
          · intro ⟨entries, hforms, _, hresult⟩
            rw [hresult, List.forall₂_nil_left_iff.mp hforms, reduceOption_nil, append_nil]
      | cons c tail =>
        obtain rfl : c = newline := of_decide_eq_false (hhead c rfl) |> not_not.mp
        have hshort : tail.length < n := by
          rw [← hlength, length_append, length_cons]
          omega
        have hzero' : 0 ∉ tail := fun hmem =>
          hzero (mem_append_right line (mem_cons_of_mem newline hmem))
        have hnext : nextLine (newline :: tail) = tail := if_pos rfl
        refine ⟨rfl, _, splitOn_append_cons_self_of_not_mem hsep tail, fun m hm => ?_⟩
        rw [hnext]
        exact ih tail.length hshort hzero' hm rfl
    rw [parse_first_line hline hend hmap result, hlines]
    constructor
    · intro ⟨e, hform, hnodup, hparse⟩
      obtain ⟨entries, hforms, hall, hresult⟩ := (hrest _ hnodup).mp hparse
      refine ⟨e :: entries, List.Forall₂.cons hform hforms, hall, ?_⟩
      rw [hresult, reduceOption_cons, append_assoc]
    · intro ⟨entries, hforms, hall, hresult⟩
      obtain ⟨e, rest, hform, hothers, rfl⟩ := List.forall₂_cons_left_iff.mp hforms
      rw [reduceOption_cons, ← append_assoc] at hresult
      have hnodup : ((map ++ e.toList).map Prod.fst).Nodup := by
        rw [hresult, map_append] at hall
        exact (nodup_append.mp hall).1
      exact ⟨e, hform, hnodup, (hrest _ hnodup).mpr ⟨rest, hothers, hall, hresult⟩⟩

/-- A text without zero bytes is accepted if and only if each of its lines has one of the forms and no
key comes twice, and then the map has exactly the properties of the lines. -/
theorem parse_accepts_iff (text : List UInt8) (hzero : 0 ∉ text) (properties : List Property) :
    parse text [] = .ok properties ↔
      ∃ entries, List.Forall₂ LineForm (text.splitOn newline) entries
        ∧ (properties.map Prod.fst).Nodup ∧ properties = entries.reduceOption := by
  have hempty : (([] : List Property).map Prod.fst).Nodup := nodup_nil
  rw [parse_lines hzero hempty]
  simp only [nil_append]

/-- The text `# c`, a blank line and `k = v`. -/
theorem parse_accepts_three :
    parse [35, 32, 99, 10, 32, 10, 107, 32, 61, 32, 118] [] = .ok [([107], [118])] := by
  have hlines : List.splitOn newline ([35, 32, 99, 10, 32, 10, 107, 32, 61, 32, 118] : List UInt8)
      = [[35, 32, 99], [32], [107, 32, 61, 32, 118]] := by
    decide
  have hspace : ∀ c ∈ ([32] : List UInt8), isSpace c = true :=
    forall_mem_singleton.mpr (by decide)
  have hnone : ∀ c ∈ ([] : List UInt8), isSpace c = true := forall_mem_nil _
  have hcomment : LineForm [35, 32, 99] none := LineForm.comment (w := []) hnone
  have hblank : LineForm [32] none := LineForm.blank hspace
  have hproperty : LineForm [107, 32, 61, 32, 118] (some ([107], [118])) :=
    @LineForm.property [] [107] [32] [32] [118] [] hnone hspace hspace hnone (by decide) (by decide)
      (forall_mem_singleton.mpr (by decide)) (forall_mem_singleton.mpr (by decide))
  refine (parse_accepts_iff _ (by decide) _).mpr ⟨[none, none, some ([107], [118])], ?_, by decide, rfl⟩
  rw [hlines]
  exact .cons hcomment (.cons hblank (.cons hproperty .nil))

end SystemCore.Libutils.PropertyMap
