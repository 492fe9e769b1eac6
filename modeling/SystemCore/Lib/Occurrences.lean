import Mathlib.Data.List.Infix

/-!
# Removing the occurrences of a pattern

A text is read from the left. Where the pattern begins it is left out as a whole, and everything else
is kept; so the occurrences removed are the leftmost ones that do not overlap. A reader can stop at
a first element of some kind and keep the rest as it is.
-/
namespace SystemCore.Lib.Occurrences

open List

variable {α : Type} [DecidableEq α]

/-- The text without the occurrences of `p`, up to the first kept element where `stop` holds. The
number says how many elements of an occurrence are still to be left out. -/
def removeFrom (p : List α) (stop : α → Bool) : Nat → List α → List α
  | _, [] => []
  | k + 1, _ :: s => removeFrom p stop k s
  | 0, c :: s =>
    if p ≠ [] ∧ p <+: c :: s then removeFrom p stop (p.length - 1) s
    else if stop c then c :: s
    else c :: removeFrom p stop 0 s

/-- All leftmost occurrences that do not overlap are removed. -/
def removeOccurrences (p s : List α) : List α := removeFrom p (fun _ => false) 0 s

variable {p s : List α} {stop : α → Bool}

theorem removeFrom_drop (k : Nat) (s : List α) :
    removeFrom p stop k s = removeFrom p stop 0 (s.drop k) := by
  induction k generalizing s with
  | zero => rfl
  | succ k ih =>
    cases s with
    | nil => rfl
    | cons c s => exact ih s

theorem removeFrom_occurrence (hp : p ≠ []) (rest : List α) :
    removeFrom p stop 0 (p ++ rest) = removeFrom p stop 0 rest := by
  cases p with
  | nil => exact absurd rfl hp
  | cons c p =>
    rw [cons_append, removeFrom, if_pos ⟨hp, prefix_append (c :: p) rest⟩, removeFrom_drop,
      length_cons, Nat.add_sub_cancel, drop_left]

theorem removeFrom_stopped {c : α} (hfirst : ¬ p <+: c :: s) (hstop : stop c = true) :
    removeFrom p stop 0 (c :: s) = c :: s := by
  rw [removeFrom, if_neg fun h => hfirst h.2, if_pos hstop]

theorem removeFrom_kept {c : α} (hfirst : ¬ p <+: c :: s) (hstop : stop c = false) :
    removeFrom p stop 0 (c :: s) = c :: removeFrom p stop 0 s := by
  rw [removeFrom, if_neg fun h => hfirst h.2, if_neg (Bool.eq_false_iff.mp hstop)]

theorem length_removeFrom_le (k : Nat) (s : List α) : (removeFrom p stop k s).length ≤ s.length := by
  induction s generalizing k with
  | nil => exact Nat.le_of_eq (by rw [removeFrom])
  | cons c s ih =>
    cases k with
    | succ k => exact Nat.le_succ_of_le (ih k)
    | zero =>
      rw [removeFrom]
      split
      · exact Nat.le_succ_of_le (ih _)
      · split
        · exact Nat.le_refl _
        · exact Nat.succ_le_succ (ih 0)

/-- Nothing is removed from a text if and only if the pattern does not occur in it. -/
theorem removeOccurrences_eq_self_iff (hp : p ≠ []) (s : List α) :
    removeOccurrences p s = s ↔ ¬ p <:+: s := by
  unfold removeOccurrences
  induction s with
  | nil => exact iff_of_true rfl fun h => hp (infix_nil.mp h)
  | cons c s ih =>
    by_cases hfirst : p <+: c :: s
    · refine iff_of_false ?_ fun h => h hfirst.isInfix
      rw [removeFrom, if_pos ⟨hp, hfirst⟩]
      intro hsame
      have hle : (removeFrom p (fun _ => false) (p.length - 1) s).length ≤ s.length :=
        length_removeFrom_le (p.length - 1) s
      rw [hsame, length_cons] at hle
      omega
    · rw [removeFrom_kept hfirst rfl, cons_inj_right, ih, infix_cons_iff,
        or_iff_right hfirst]

/-- Where the reader stops nothing is missed, if and only if the pattern does not occur behind the
first element where it stops. -/
theorem removeFrom_eq_iff (hp : p ≠ []) (hclean : ∀ x ∈ p, stop x = false) (s : List α) :
    removeFrom p stop 0 s = removeOccurrences p s ↔ ¬ p <:+: s.dropWhile (fun x => !stop x) := by
  unfold removeOccurrences
  -- inside an occurrence the elements left to leave out are those of the pattern
  suffices hall : ∀ k, (∀ x ∈ s.take k, stop x = false) →
      (removeFrom p stop k s = removeFrom p (fun _ => false) k s ↔
        ¬ p <:+: s.dropWhile (fun x => !stop x)) by
    apply hall
    intro x hx
    rw [take_zero] at hx
    exact absurd hx not_mem_nil
  induction s with
  | nil =>
    intro k _
    exact iff_of_true (by rw [removeFrom, removeFrom]) fun h => hp (infix_nil.mp h)
  | cons c s ih =>
    intro k hk
    cases k with
    | succ k =>
      rw [take_succ_cons] at hk
      have hc := hk c mem_cons_self
      rw [dropWhile_cons_of_pos (by rw [hc]; rfl)]
      exact ih k fun x hx => hk x (mem_cons_of_mem c hx)
    | zero =>
      by_cases hfirst : p <+: c :: s
      · rw [removeFrom, if_pos ⟨hp, hfirst⟩, removeFrom, if_pos ⟨hp, hfirst⟩]
        obtain ⟨d, p', rfl⟩ := exists_cons_of_ne_nil hp
        obtain ⟨rfl, hprefix⟩ := cons_prefix_cons.mp hfirst
        have hc := hclean d mem_cons_self
        rw [dropWhile_cons_of_pos (by rw [hc]; rfl), length_cons, Nat.add_sub_cancel]
        apply ih
        intro x hx
        rw [← prefix_iff_eq_take.mp hprefix] at hx
        exact hclean x (mem_cons_of_mem d hx)
      · have hkept : removeFrom p (fun _ => false) 0 (c :: s) = c :: removeFrom p (fun _ => false) 0 s :=
          removeFrom_kept hfirst rfl
        rw [hkept]
        cases hc : stop c with
        | true =>
          rw [removeFrom_stopped hfirst hc, dropWhile_cons_of_neg (by rw [hc]; exact Bool.false_ne_true),
            cons_inj_right, eq_comm, infix_cons_iff, or_iff_right hfirst]
          exact removeOccurrences_eq_self_iff hp s
        | false =>
          rw [removeFrom_kept hfirst hc, dropWhile_cons_of_pos (by rw [hc]; rfl),
            cons_inj_right]
          apply ih
          intro x hx
          rw [take_zero] at hx
          exact absurd hx not_mem_nil

end SystemCore.Lib.Occurrences
