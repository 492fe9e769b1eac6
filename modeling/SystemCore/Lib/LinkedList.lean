import Mathlib.Data.List.Nodup
import Mathlib.Logic.Function.Basic

/-!
# Doubly linked lists

Nodes have a link to the one before them and one to the one behind them, and there are links
to the two ends. `Lists` says which list of nodes the links stand for. A node is attached at
the young end and can be detached anywhere.
-/
namespace SystemCore.Lib.LinkedList

open List

variable {ι : Type*}

/-! ## Where a list is cut -/

theorem snoc_split {l pre post : List ι} {i j : ι} (h : l ++ [i] = pre ++ j :: post) :
    (pre = l ∧ j = i ∧ post = []) ∨ ∃ post', post = post' ++ [i] ∧ l = pre ++ j :: post' := by
  rcases eq_nil_or_concat post with rfl | ⟨post', x, rfl⟩
  · obtain ⟨h1, h2⟩ := append_inj' h rfl
    obtain rfl := head_eq_of_cons_eq h2
    exact .inl ⟨h1.symm, rfl, rfl⟩
  · rw [concat_eq_append, ← cons_append, ← append_assoc] at h
    obtain ⟨h1, h2⟩ := append_inj' h rfl
    obtain rfl := head_eq_of_cons_eq h2
    exact .inr ⟨post', concat_eq_append, h1⟩

theorem append_split {pre post pre' post' : List ι} {j : ι} (h : pre ++ post = pre' ++ j :: post') :
    (∃ r, pre = pre' ++ j :: r ∧ post' = r ++ post) ∨
      ∃ r, pre' = pre ++ r ∧ post = r ++ j :: post' := by
  rcases append_eq_append_iff.mp h with ⟨r, h1, h2⟩ | ⟨r, h1, h2⟩
  · exact .inr ⟨r, h1, h2⟩
  · cases r with
    | nil => exact .inr ⟨[], by simpa using h1.symm, by simpa using h2.symm⟩
    | cons x r =>
      obtain ⟨rfl, rfl⟩ := List.cons.inj h2
      exact .inl ⟨r, h1, rfl⟩

/-- The node before another one, and every node before it, is a different one. -/
theorem ne_of_split {pre post : List ι} {i : ι} (h : (pre ++ i :: post).Nodup) {j : ι} (hj : j ∈ pre ∨ j ∈ post) : j ≠ i := by
  have hnot := (nodup_middle.mp h).notMem
  rintro rfl
  exact hnot (mem_append.mpr hj)

/-! ## Links -/

@[ext] structure Links (ι : Type*) where
  parent : ι → Option ι
  child : ι → Option ι
  oldest : Option ι
  youngest : Option ι

namespace Links

/-- The links stand for the nodes of the list in its order. -/
structure Lists (s : Links ι) (l : List ι) : Prop where
  nodup : l.Nodup
  oldest : s.oldest = l.head?
  youngest : s.youngest = l.getLast?
  parent : ∀ {pre i post}, l = pre ++ i :: post → s.parent i = pre.getLast?
  child : ∀ {pre i post}, l = pre ++ i :: post → s.child i = post.head?

variable [DecidableEq ι]

def setParent (s : Links ι) (i : ι) (p : Option ι) : Links ι :=
  { s with parent := Function.update s.parent i p }

def setChild (s : Links ι) (i : ι) (c : Option ι) : Links ι :=
  { s with child := Function.update s.child i c }

def attach (s : Links ι) (i : ι) : Links ι :=
  match s.youngest with
  | none => { s with youngest := some i, oldest := some i }
  | some y => { (s.setParent i (some y)).setChild y (some i) with youngest := some i }

/-- The first half of detaching: go past the node from its parent. -/
def skipFromParent (s : Links ι) (i : ι) : Links ι :=
  match s.parent i with
  | some p => s.setChild p (s.child i)
  | none => { s with oldest := s.child i }

/-- The second half: go past the node from its child. -/
def skipFromChild (s : Links ι) (i : ι) : Links ι :=
  match s.child i with
  | some c => s.setParent c (s.parent i)
  | none => { s with youngest := s.parent i }

def detach (s : Links ι) (i : ι) : Links ι :=
  (((s.skipFromParent i).skipFromChild i).setParent i none).setChild i none

variable {s : Links ι} {l pre post : List ι} {i : ι}

@[simp] theorem setParent_parent (s : Links ι) (i : ι) (p : Option ι) (j : ι) :
    (s.setParent i p).parent j = if j = i then p else s.parent j := Function.update_apply ..

@[simp] theorem setChild_child (s : Links ι) (i : ι) (c : Option ι) (j : ι) :
    (s.setChild i c).child j = if j = i then c else s.child j := Function.update_apply ..

@[simp] theorem setParent_child (s : Links ι) (i : ι) (p : Option ι) :
    (s.setParent i p).child = s.child := rfl

@[simp] theorem setChild_parent (s : Links ι) (i : ι) (c : Option ι) :
    (s.setChild i c).parent = s.parent := rfl

@[simp] theorem setParent_ends (s : Links ι) (i : ι) (p : Option ι) :
    (s.setParent i p).oldest = s.oldest ∧ (s.setParent i p).youngest = s.youngest := ⟨rfl, rfl⟩

@[simp] theorem setChild_ends (s : Links ι) (i : ι) (c : Option ι) :
    (s.setChild i c).oldest = s.oldest ∧ (s.setChild i c).youngest = s.youngest := ⟨rfl, rfl⟩

theorem Lists.attach (h : s.Lists l) (hi : i ∉ l) (hp : s.parent i = none)
    (hc : s.child i = none) : (s.attach i).Lists (l ++ [i]) := by
  have hnodup : (l ++ [i]).Nodup := by
    rw [nodup_append]
    exact ⟨h.nodup, pairwise_singleton _ i, fun a ha b hb hab =>
      hi (by rwa [hab, mem_singleton.mp hb] at ha)⟩
  cases hy : s.youngest with
  | none =>
    obtain rfl : l = [] := List.getLast?_eq_none_iff.mp (h.youngest.symm.trans hy)
    simp only [Links.attach, hy]
    refine ⟨hnodup, rfl, rfl, ?_, ?_⟩
    all_goals
      intro pre j post hl
      rcases snoc_split hl with ⟨rfl, rfl, rfl⟩ | ⟨post', -, hl'⟩
      · assumption
      · simp at hl'
  | some y =>
    have hlast : l.getLast? = some y := h.youngest.symm.trans hy
    have hymem : y ∈ l := mem_of_getLast? hlast
    have hyi : i ≠ y := fun heq => hi (heq ▸ hymem)
    simp only [Links.attach, hy]
    refine ⟨hnodup, ?_, by simp, ?_, ?_⟩
    · have hne : l ≠ [] := ne_nil_of_mem hymem
      rw [List.head?_append_of_ne_nil _ hne]
      exact h.oldest
    · intro pre j post hl
      rcases snoc_split hl with ⟨rfl, rfl, rfl⟩ | ⟨post', rfl, hl'⟩
      · simp [hlast]
      · have hji : j ≠ i := fun heq => hi (heq ▸ hl' ▸ by simp)
        simpa [hji] using h.parent hl'
    · intro pre j post hl
      rcases snoc_split hl with ⟨rfl, rfl, rfl⟩ | ⟨post', rfl, hl'⟩
      · simp [hyi, hc]
      · rcases eq_nil_or_concat post' with rfl | ⟨r, x, rfl⟩
        · obtain rfl : j = y := by simpa [hl'] using hlast
          simp
        · have hl'' : l = (pre ++ j :: r) ++ [x] := by simp [hl']
          rw [hl'', List.getLast?_concat] at hlast
          obtain rfl := Option.some.inj hlast
          have hne : j ≠ x := (ne_of_split (hl' ▸ h.nodup) (.inr (by simp))).symm
          simpa [hne] using h.child hl'

section Detach

variable (h : s.Lists (pre ++ i :: post))
include h

/-- Detaching with the links of the node put in. -/
theorem Lists.detach_eq : s.detach i =
    { parent := fun j => if j = i then none
        else if post.head? = some j then pre.getLast? else s.parent j
      child := fun j => if j = i then none
        else if pre.getLast? = some j then post.head? else s.child j
      oldest := if pre.getLast? = none then post.head? else s.oldest
      youngest := if post.head? = none then pre.getLast? else s.youngest } := by
  have hp : s.parent i = pre.getLast? := h.parent rfl
  have hc : s.child i = post.head? := h.child rfl
  have hparent : ∀ p, pre.getLast? = some p → i ≠ p := fun p hpre =>
    (ne_of_split h.nodup (.inl (mem_of_getLast? hpre))).symm
  cases hpre : pre.getLast? with
  | none =>
    rw [hpre] at hp
    cases hpost : post.head? <;> rw [hpost] at hc <;>
      simp only [Links.detach, skipFromParent, skipFromChild, hp, hc] <;>
      refine Links.ext (funext fun j => ?_) (funext fun j => ?_) ?_ ?_ <;> simp [eq_comm]
  | some p =>
    have hpi := hparent p hpre
    rw [hpre] at hp
    cases hpost : post.head? <;> rw [hpost] at hc <;>
      simp only [Links.detach, skipFromParent, skipFromChild, hp, hc, setChild_child, hpi,
        if_false] <;>
      refine Links.ext (funext fun j => ?_) (funext fun j => ?_) ?_ ?_ <;> simp [eq_comm, hp]

theorem Lists.detach : (s.detach i).Lists (pre ++ post) := by
  have hnodup := h.nodup
  rw [h.detach_eq]
  constructor
  case nodup => exact (nodup_middle.mp hnodup).of_cons
  case oldest =>
    cases pre with
    | nil => rfl
    | cons a pre => simpa using h.oldest
  case youngest =>
    cases post with
    | nil => simp
    | cons a post => simpa [List.getLast?_append] using h.youngest
  case parent =>
    intro pre' j post' hl
    change (if j = i then none else if post.head? = some j then pre.getLast? else s.parent j) = _
    rcases append_split hl with ⟨r, rfl, rfl⟩ | ⟨r, rfl, rfl⟩
    · have hji : j ≠ i := ne_of_split hnodup (.inl (by simp))
      have hsplit : pre' ++ j :: r ++ i :: post = pre' ++ j :: (r ++ i :: post) := by simp
      have hpost : post.head? ≠ some j := fun heq =>
        ne_of_split (hsplit ▸ hnodup) (.inr (by simp [mem_of_head? heq])) rfl
      rw [if_neg hji, if_neg hpost, h.parent hsplit]
    · have hji : j ≠ i := ne_of_split hnodup (.inr (by simp))
      have hsplit : pre ++ i :: (r ++ j :: post') = (pre ++ i :: r) ++ j :: post' := by simp
      rw [if_neg hji, h.parent hsplit]
      cases r with
      | nil => simp
      | cons a r =>
        have haj : a ≠ j := ne_of_split (hsplit ▸ hnodup) (.inl (by simp))
        simp [haj, List.getLast?_append]
  case child =>
    intro pre' j post' hl
    change (if j = i then none else if pre.getLast? = some j then post.head? else s.child j) = _
    rcases append_split hl with ⟨r, rfl, rfl⟩ | ⟨r, rfl, rfl⟩
    · have hji : j ≠ i := ne_of_split hnodup (.inl (by simp))
      have hsplit : pre' ++ j :: r ++ i :: post = pre' ++ j :: (r ++ i :: post) := by simp
      rw [if_neg hji, h.child hsplit]
      rcases eq_nil_or_concat r with rfl | ⟨r', a, rfl⟩
      · simp
      · have haj : a ≠ j := ne_of_split (hsplit ▸ hnodup) (.inr (by simp))
        have hlast : (pre' ++ j :: (r' ++ [a])).getLast? = some a := by
          rw [← cons_append, ← append_assoc, List.getLast?_concat]
        simp [hlast, haj]
    · have hji : j ≠ i := ne_of_split hnodup (.inr (by simp))
      have hsplit : pre ++ i :: (r ++ j :: post') = (pre ++ i :: r) ++ j :: post' := by simp
      have hpre : pre.getLast? ≠ some j := fun heq =>
        ne_of_split (hsplit ▸ hnodup) (.inl (by simp [mem_of_getLast? heq])) rfl
      rw [if_neg hji, if_neg hpre, h.child hsplit]

end Detach

end Links

end SystemCore.Lib.LinkedList
