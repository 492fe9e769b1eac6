import Mathlib.Data.List.Basic

/-!
# Text in lines of bounded length

A text is a list over any type with a separator. `cut` splits at the first separator, and
`readLines` reads a text line by line into a buffer of bounded size, so that a long line comes
in several pieces. Records that end in the only separator they have and fit the buffer are read
back as they were written.
-/
namespace SystemCore.Lib.Lines

open List

variable {α : Type*} {sep : α} {size : Nat} [DecidableEq α]

/-- The parts before and behind the first separator. -/
def cut (sep : α) : List α → Option (List α × List α)
  | [] => none
  | c :: l => if c = sep then some ([], l) else (cut sep l).map fun (pre, post) => (c :: pre, post)

theorem cut_append {pre : List α} (h : sep ∉ pre) (post : List α) :
    cut sep (pre ++ sep :: post) = some (pre, post) := by
  induction pre with
  | nil => simp [cut]
  | cons c pre ih =>
    obtain ⟨hc, hpre⟩ := ne_and_not_mem_of_not_mem_cons h
    simp [cut, Ne.symm hc, ih hpre]

theorem cut_spec {l pre post : List α} (h : cut sep l = some (pre, post)) :
    l = pre ++ sep :: post ∧ sep ∉ pre := by
  induction l generalizing pre with
  | nil => cases h
  | cons c l ih =>
    unfold cut at h
    split at h
    case isTrue hc =>
      cases h
      exact ⟨by rw [hc]; rfl, not_mem_nil⟩
    case isFalse hc =>
      obtain ⟨⟨pre', post'⟩, hcut, heq⟩ := Option.map_eq_some_iff.mp h
      cases heq
      obtain ⟨rfl, hpre⟩ := ih hcut
      exact ⟨rfl, not_mem_cons_of_ne_of_not_mem (Ne.symm hc) hpre⟩

theorem cut_eq_none_iff {l : List α} : cut sep l = none ↔ sep ∉ l := by
  constructor
  · intro h hmem
    obtain ⟨pre, post, rfl, hpre⟩ := eq_append_cons_of_mem hmem
    rw [cut_append hpre] at h
    cases h
  · intro h
    refine Option.eq_none_iff_forall_ne_some.mpr fun p hcut => h ?_
    rw [(cut_spec hcut).1]
    exact mem_append_right _ mem_cons_self

/-- Read lines of at most `size` items, the separator included. `line` is what was read of the
current one. -/
def readLines (sep : α) (size : Nat) : List α → List α → List (List α)
  | line, [] => if line = [] then [] else [line]
  | line, c :: l =>
    if c = sep ∨ line.length + 1 = size then (line ++ [c]) :: readLines sep size [] l
    else readLines sep size (line ++ [c]) l

theorem readLines_body {body : List α} (h : sep ∉ body) (line rest : List α)
    (hsize : line.length + body.length < size) :
    readLines sep size line (body ++ sep :: rest) =
      (line ++ body ++ [sep]) :: readLines sep size [] rest := by
  induction body generalizing line with
  | nil => simp [readLines]
  | cons c body ih =>
    obtain ⟨hc, hbody⟩ := ne_and_not_mem_of_not_mem_cons h
    rw [length_cons] at hsize
    have hgo : ¬ (c = sep ∨ line.length + 1 = size) := by
      rintro (rfl | hfull)
      · exact hc rfl
      · omega
    rw [cons_append, readLines, if_neg hgo, ih hbody (line ++ [c]) (by simp; omega)]
    simp

/-- A record: its only separator is at the end, and it fits the buffer. -/
def IsRecord (sep : α) (size : Nat) (r : List α) : Prop :=
  ∃ body, r = body ++ [sep] ∧ sep ∉ body ∧ body.length < size

/-- Records are read as they were written. -/
theorem readLines_flatten (records : List (List α)) (h : ∀ r ∈ records, IsRecord sep size r) :
    readLines sep size [] records.flatten = records := by
  induction records with
  | nil => simp [readLines]
  | cons r records ih =>
    obtain ⟨body, rfl, hbody, hsize⟩ := h r mem_cons_self
    have hrest := ih fun r hr => h r (mem_cons_of_mem _ hr)
    rw [flatten_cons, append_assoc, singleton_append,
      readLines_body hbody [] _ (by simpa using hsize), hrest, nil_append]

end SystemCore.Lib.Lines
