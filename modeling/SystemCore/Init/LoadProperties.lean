import Mathlib.Data.List.DropRight
import SystemCore.Lib.Ascii
import SystemCore.Lib.Lines

/-!
# Loading a property file

`load_properties` works through a text in place. A line loses its blanks at both ends, then it is cut at
the first `=`, and the name loses the blanks in front of that. Both loops that go backwards stop at the
first character of the name, which is never a blank. A text is a C string and has no zero byte.
-/
namespace SystemCore.Init

open Lib Lib.Lines List

/-- `while ((tmp > key) && isspace(*tmp)) *tmp-- = 0`, from the last character on. -/
def trimBack : List UInt8 → List UInt8
  | [] => []
  | c :: s => c :: s.rdropWhile isSpace

/-- The characters `import `. -/
def importBlank : List UInt8 := [105, 109, 112, 111, 114, 116, 32]

/-- What a line makes `load_properties` call. -/
inductive Call where
  | propertySet (key value : List UInt8)
  | loadPropertiesFromFile (fn : List UInt8) (filter : Option (List UInt8))

/-- The test of a filter that is not empty. -/
def passesFilter (filter key : List UInt8) : Bool :=
  if filter.getLast? = some 42 then filter.take (filter.length - 1) <+: key else key = filter

/-- One round of the loop of `load_properties`. -/
def loadLine (filter : Option (List UInt8)) (sol : List UInt8) : Option Call :=
  let flen := (filter.getD []).length
  let key := sol.dropWhile isSpace
  if key.head? = some 35 then none
  else
    let key := trimBack key
    if importBlank <+: key ∧ flen = 0 then
      let fn := (key.drop importBlank.length).dropWhile isSpace
      match cut 32 fn with
      | none => some (.loadPropertiesFromFile fn none)
      | some (fn, key) => some (.loadPropertiesFromFile fn (some (key.dropWhile isSpace)))
    else
      match cut 61 key with
      | none => none
      | some (key, value) =>
        let key := trimBack key
        let value := value.dropWhile isSpace
        if 0 < flen ∧ passesFilter (filter.getD []) key = false then none
        else some (.propertySet key value)

/-- The loop, for as many lines as there are. -/
def loadLines (filter : Option (List UInt8)) : Nat → List UInt8 → List Call
  | 0, _ => []
  | n + 1, sol =>
    match cut 10 sol with
    | none => []
    | some (line, rest) => (loadLine filter line).toList ++ loadLines filter n rest

def loadProperties (data : List UInt8) (filter : Option (List UInt8)) : List Call :=
  loadLines filter data.length data

/-! ## What a line says -/

def trimEnd (s : List UInt8) : List UInt8 := s.rdropWhile isSpace

/-- No filter, a prefix with `*` behind it, or a key. -/
def Passes (filter : Option (List UInt8)) (key : List UInt8) : Bool :=
  match filter with
  | none => true
  | some f => f = [] || if f.getLast? = some 42 then f.dropLast <+: key else key = f

def assignment (filter : Option (List UInt8)) (line : List UInt8) :
    Option (List UInt8 × List UInt8) :=
  let body := line.dropWhile isSpace
  if body.head? = some 35 ∨ (filter.getD [] = [] ∧ importBlank <+: body) then none
  else
    match cut 61 body with
    | none => none
    | some (key, value) =>
      if Passes filter (trimEnd key) then some (trimEnd key, (trimEnd value).dropWhile isSpace)
      else none

def Call.set? : Call → Option (List UInt8 × List UInt8)
  | .propertySet key value => some (key, value)
  | .loadPropertiesFromFile _ _ => none

variable (filter : Option (List UInt8))

theorem passes_eq_false_iff (key : List UInt8) :
    Passes filter key = false ↔
      0 < (filter.getD []).length ∧ passesFilter (filter.getD []) key = false := by
  cases filter with
  | none => simp [Passes]
  | some f =>
    rw [Passes, Option.getD_some, passesFilter, dropLast_eq_take, length_pos_iff]
    simp only [Bool.or_eq_false_iff, decide_eq_false_iff_not, ne_eq]

variable {c : UInt8}

/-- Blanks are trimmed behind a character that is none. -/
theorem trimEnd_append (k v : List UInt8) (hc : isSpace c = false) :
    trimEnd (k ++ c :: v) = k ++ c :: trimEnd v := by
  have hstop : (c :: k.reverse).dropWhile isSpace = c :: k.reverse := by
    rw [dropWhile_cons, if_neg (by rw [hc]; exact Bool.false_ne_true)]
  have hdrop : (v.reverse ++ c :: k.reverse).dropWhile isSpace =
      v.reverse.dropWhile isSpace ++ c :: k.reverse := by
    rw [dropWhile_append, hstop]
    split
    case isTrue h => rw [isEmpty_iff.mp h, nil_append]
    case isFalse => rfl
  rw [trimEnd, List.rdropWhile, reverse_append, reverse_cons, append_assoc,
    singleton_append, hdrop, reverse_append, reverse_cons, reverse_reverse,
    append_assoc, singleton_append]
  rfl

theorem trimBack_eq {s : List UInt8} (h : ∀ c, s.head? = some c → isSpace c = false) :
    trimBack s = trimEnd s := by
  cases s with
  | nil => rfl
  | cons c s => exact (trimEnd_append [] s (h c rfl)).symm

/-- A prefix without the separator ends in front of it. -/
theorem prefix_before {pre k v : List UInt8} (h : c ∉ pre) : pre <+: k ++ c :: v ↔ pre <+: k := by
  constructor
  · intro hpre
    refine prefix_of_prefix_length_le hpre (prefix_append _ _) (Nat.not_lt.mp fun hlt => ?_)
    have hk : k ++ [c] <+: pre := prefix_of_prefix_length_le
      ((prefix_append (k ++ [c]) v).trans (by simp)) hpre (by rwa [length_append])
    exact h (hk.subset (mem_append_right _ (mem_singleton_self c)))
  · exact fun hpre => hpre.trans (prefix_append _ _)

theorem loadLine_set (line : List UInt8) :
    (loadLine filter line).bind Call.set? = assignment filter line := by
  have hhead : ∀ c, (line.dropWhile isSpace).head? = some c → isSpace c = false := by
    intro c hc
    have hnot := List.head?_dropWhile_not isSpace line
    rw [hc] at hnot
    exact hnot
  rw [loadLine, assignment]
  simp only
  generalize line.dropWhile isSpace = body at hhead ⊢
  by_cases hcomment : body.head? = some 35
  · rw [if_pos hcomment, if_pos (Or.inl hcomment)]
    rfl
  rw [if_neg hcomment, trimBack_eq hhead]
  cases hcut : cut 61 body with
  | none =>
    have hnone : cut 61 (trimEnd body) = none :=
      cut_eq_none_iff.mpr fun hmem => cut_eq_none_iff.mp hcut ((List.rdropWhile_prefix _ _).subset hmem)
    rw [hnone]
    simp only [ite_self]
    split
    · cases cut 32 ((trimEnd body).drop importBlank.length |>.dropWhile isSpace) <;> rfl
    · rfl
  | some p =>
    obtain ⟨hbody, hkey⟩ := cut_spec hcut
    have hname : trimBack p.1 = trimEnd p.1 := by
      refine trimBack_eq fun c hc => hhead c ?_
      rw [hbody, List.head?_append, hc, Option.some_or]
    have himport : importBlank <+: trimEnd body ↔ importBlank <+: body := by
      rw [hbody, trimEnd_append _ _ (by decide), prefix_before (by decide), prefix_before (by decide)]
    have htrim : cut 61 (trimEnd body) = some (p.1, trimEnd p.2) := by
      rw [hbody, trimEnd_append _ _ (by decide), cut_append hkey]
    rw [htrim]
    simp only [himport, hname, hcomment, false_or, length_eq_zero_iff, and_comm]
    split
    · cases cut 32 ((trimEnd body).drop importBlank.length |>.dropWhile isSpace) <;> rfl
    · have hpass := passes_eq_false_iff filter (trimEnd p.1)
      cases hcase : Passes filter (trimEnd p.1) with
      | true =>
        rw [if_neg fun h => Bool.noConfusion (hcase.symm.trans (hpass.mpr h))]
        rfl
      | false =>
        rw [if_pos (hpass.mp hcase)]
        rfl

/-- `property_set` is called for the lines that set a property, in their order, with what they say. -/
theorem load_properties_sets (lines : List (List UInt8)) (filter : Option (List UInt8))
    (h : ∀ line ∈ lines, 10 ∉ line) :
    (loadProperties (lines.map (· ++ [10])).flatten filter).filterMap Call.set? =
      lines.filterMap (assignment filter) := by
  have hlines : ∀ n, (lines.map (· ++ [10])).flatten.length ≤ n →
      (loadLines filter n (lines.map (· ++ [10])).flatten).filterMap Call.set? =
        lines.filterMap (assignment filter) := by
    induction lines with
    | nil =>
      intro n _
      cases n <;> rfl
    | cons line lines ih =>
      intro n hn
      simp only [map_cons, flatten_cons, length_append, length_cons,
        append_assoc, singleton_append] at hn ⊢
      obtain ⟨n, rfl⟩ := Nat.exists_eq_succ_of_ne_zero (show n ≠ 0 by omega)
      obtain ⟨hline, hrest⟩ := forall_mem_cons.mp h
      rw [loadLines, cut_append hline]
      rw [filterMap_cons, ← loadLine_set]
      simp only [filterMap_append, ih hrest n (by omega)]
      cases loadLine filter line with
      | none => rfl
      | some call => cases call <;> rfl
  exact hlines _ (Nat.le_refl _)

/-- A comment, and `a = b` with blanks in all places. -/
theorem load_properties_sets_trimmed :
    (loadProperties ([[35, 120], [32, 97, 32, 61, 32, 98, 32]].map (· ++ [10])).flatten none).filterMap
      Call.set? = [([97], [98])] :=
  (load_properties_sets _ none (by decide)).trans (by decide)

end SystemCore.Init
