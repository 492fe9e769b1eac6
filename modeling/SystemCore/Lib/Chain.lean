import Mathlib.Data.List.Nodup
import Mathlib.Logic.Function.Basic

/-!
# Chains of singly linked nodes

A chain starts at a node or is empty, and each node links to the next or to nothing. The searches
take a number of steps that they may use, since the links might lead round in a circle.
-/
namespace SystemCore.Lib.Chain

variable {ι : Type*} {l pre post : List ι} {next : ι → Option ι} {p : ι}

/-- From the start along the links these nodes, and then nothing. -/
def Follows (next : ι → Option ι) : Option ι → List ι → Prop
  | start, [] => start = none
  | start, p :: l => start = some p ∧ Follows next (next p) l

def find (next : ι → Option ι) (test : ι → Bool) : Nat → Option ι → Option (Option ι)
  | _, none => some none
  | 0, some _ => none
  | fuel + 1, some p => if test p = true then some (some p) else find next test fuel (next p)

/-- The first node that passes the test, with the one before it. -/
def findWithPrev (next : ι → Option ι) (test : ι → Bool) :
    Nat → Option ι → Option ι → Option (Option ι × Option ι)
  | _, prev, none => some (prev, none)
  | 0, _, some _ => none
  | fuel + 1, prev, some p =>
    if test p = true then some (prev, some p) else findWithPrev next test fuel (some p) (next p)

def walk (next : ι → Option ι) : Nat → Option ι → List ι
  | 0, _ => []
  | _, none => []
  | fuel + 1, some p => p :: walk next fuel (next p)

section Search

variable {next : ι → Option ι} {test : ι → Bool}

theorem Follows.find_eq :
    ∀ {start : Option ι} {fuel : Nat}, Follows next start l → l.length ≤ fuel →
      find next test fuel start = some (l.find? test) := by
  induction l with
  | nil =>
    rintro _ fuel rfl _
    cases fuel <;> rfl
  | cons p l ih =>
    rintro _ fuel ⟨rfl, hrest⟩ hfuel
    obtain ⟨n, rfl⟩ : ∃ n, fuel = n + 1 := ⟨fuel - 1, by simp at hfuel; omega⟩
    rw [find, List.find?_cons]
    cases htest : test p with
    | true => rfl
    | false =>
      exact ih hrest (Nat.le_of_succ_le_succ hfuel)

theorem Follows.findWithPrev_none (htest : ∀ p ∈ l, test p = false) :
    ∀ {start prev : Option ι} {fuel : Nat}, Follows next start l → l.length ≤ fuel →
      ∃ last, findWithPrev next test fuel prev start = some (last, none) := by
  induction l with
  | nil =>
    rintro _ prev fuel rfl _
    exact ⟨prev, by cases fuel <;> rfl⟩
  | cons p l ih =>
    rintro _ prev fuel ⟨rfl, hrest⟩ hfuel
    obtain ⟨n, rfl⟩ : ∃ n, fuel = n + 1 := ⟨fuel - 1, by simp at hfuel; omega⟩
    rw [findWithPrev, htest p List.mem_cons_self, if_neg Bool.false_ne_true]
    exact ih (fun q hq => htest q (List.mem_cons_of_mem p hq)) hrest (Nat.le_of_succ_le_succ hfuel)

theorem Follows.findWithPrev_some (hpre : ∀ q ∈ pre, test q = false) (hp : test p = true) :
    ∀ {start prev : Option ι} {fuel : Nat}, Follows next start (pre ++ p :: post) →
      pre.length < fuel →
      findWithPrev next test fuel prev start = some (pre.getLast?.or prev, some p) := by
  induction pre with
  | nil =>
    rintro _ prev fuel ⟨rfl, -⟩ hfuel
    obtain ⟨n, rfl⟩ : ∃ n, fuel = n + 1 := ⟨fuel - 1, by simp at hfuel; omega⟩
    rw [findWithPrev, if_pos hp]
    rfl
  | cons q pre ih =>
    rintro _ prev fuel ⟨rfl, hrest⟩ hfuel
    obtain ⟨n, rfl⟩ : ∃ n, fuel = n + 1 := ⟨fuel - 1, by simp at hfuel; omega⟩
    rw [findWithPrev, hpre q List.mem_cons_self, if_neg Bool.false_ne_true,
      ih (fun x hx => hpre x (List.mem_cons_of_mem q hx)) hrest (Nat.lt_of_succ_lt_succ hfuel)]
    rcases List.eq_nil_or_concat pre with rfl | ⟨pre, x, rfl⟩
    · rfl
    · rw [List.concat_eq_append, ← List.cons_append, List.getLast?_concat, List.getLast?_concat]
      rfl

theorem Follows.walk_eq :
    ∀ {start : Option ι} {fuel : Nat}, Follows next start l → l.length ≤ fuel →
      walk next fuel start = l := by
  induction l with
  | nil =>
    rintro _ fuel rfl _
    cases fuel <;> rfl
  | cons p l ih =>
    rintro _ fuel ⟨rfl, hrest⟩ hfuel
    obtain ⟨n, rfl⟩ : ∃ n, fuel = n + 1 := ⟨fuel - 1, by simp at hfuel; omega⟩
    rw [walk, ih hrest (Nat.le_of_succ_le_succ hfuel)]

end Search

/-! ## Changing the links -/

/-- The links of the nodes in the chain are all that matters. -/
theorem Follows.congr {next' : ι → Option ι} (hsame : ∀ p ∈ l, next' p = next p) :
    ∀ {start : Option ι}, Follows next start l → Follows next' start l := by
  induction l with
  | nil => exact fun h => h
  | cons p l ih =>
    rintro start ⟨hstart, hrest⟩
    refine ⟨hstart, ?_⟩
    rw [hsame p List.mem_cons_self]
    exact ih (fun q hq => hsame q (List.mem_cons_of_mem p hq)) hrest

/-- The chain behind one of its nodes. -/
theorem Follows.behind :
    ∀ {start : Option ι}, Follows next start (pre ++ p :: post) → Follows next (next p) post := by
  induction pre with
  | nil => exact fun h => h.2
  | cons q pre ih => exact fun h => ih h.2

variable [DecidableEq ι]

/-- A new node at the start. -/
theorem Follows.push {start : Option ι} (h : Follows next start l) (hp : p ∉ l) :
    Follows (Function.update next p start) (some p) (p :: l) := by
  refine ⟨rfl, ?_⟩
  rw [Function.update_self]
  exact h.congr fun q hq => Function.update_of_ne (ne_of_mem_of_not_mem hq hp) _ _

/-- The node before it goes past it. -/
theorem Follows.skip {q : ι} :
    ∀ {start : Option ι}, (pre ++ q :: p :: post).Nodup →
      Follows next start (pre ++ q :: p :: post) →
      Follows (Function.update next q (next p)) start (pre ++ q :: post) := by
  induction pre with
  | nil =>
    rintro start hnodup ⟨hstart, -, hrest⟩
    have hq : q ∉ post := fun hmem =>
      (List.nodup_cons.mp hnodup).1 (List.mem_cons_of_mem p hmem)
    refine ⟨hstart, ?_⟩
    rw [Function.update_self]
    refine hrest.congr fun x hx => ?_
    have hne : x ≠ q := by
      rintro rfl
      exact hq hx
    exact Function.update_of_ne hne _ _
  | cons x pre ih =>
    rintro start hnodup ⟨hstart, hrest⟩
    obtain ⟨hx, hnodup⟩ := List.nodup_cons.mp hnodup
    have hne : x ≠ q := by
      rintro rfl
      exact hx (List.mem_append_right _ List.mem_cons_self)
    refine ⟨hstart, ?_⟩
    rw [Function.update_of_ne hne]
    exact ih hnodup hrest

end SystemCore.Lib.Chain
