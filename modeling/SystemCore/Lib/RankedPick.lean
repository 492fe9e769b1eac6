import Mathlib.Data.List.Basic

/-!
# The oldest of the highest rank

A list holds its newest element first. Ranks are looked at from one downwards, and in each the
oldest element that will do is taken.
-/
namespace SystemCore.Lib.RankedPick

variable {α : Type*} (rank : α → Int) (ok : α → Bool)

/-- The oldest element of a rank that will do. -/
def oldest (i : Int) (l : List α) : Option α :=
  l.reverse.find? fun a => decide (rank a = i) && ok a

/-- The oldest element of the first of `n` ranks, from `i` down, that has one. -/
def pickDown : Nat → Int → List α → Option α
  | 0, _, _ => none
  | n + 1, i, l => (oldest rank ok i l).or (pickDown n (i - 1) l)

variable {rank ok} {i : Int} {l : List α} {a : α}

theorem oldest_none (h : oldest rank ok i l = none) (ha : a ∈ l) (hrank : rank a = i) :
    ok a = false := by
  have hnot := List.find?_eq_none.mp h a (List.mem_reverse.mpr ha)
  rw [decide_eq_true hrank, Bool.true_and, Bool.not_eq_true] at hnot
  exact hnot

theorem oldest_some (h : oldest rank ok i l = some a) :
    rank a = i ∧ ok a = true ∧ ∃ newer older, l = newer ++ a :: older ∧
      ∀ b ∈ older, rank b = i → ok b = false := by
  obtain ⟨hok, front, back, hsplit, hfront⟩ := List.find?_eq_some_iff_append.mp h
  rw [Bool.and_eq_true, decide_eq_true_eq] at hok
  refine ⟨hok.1, hok.2, back.reverse, front.reverse, ?_, fun b hb hrank => ?_⟩
  · have hrev := congrArg List.reverse hsplit
    rw [List.reverse_reverse, List.reverse_append, List.reverse_cons, List.append_assoc] at hrev
    exact hrev
  · have hnot := hfront b (List.mem_reverse.mp hb)
    rw [decide_eq_true hrank, Bool.true_and, Bool.not_eq_true'] at hnot
    exact hnot

theorem oldest_filter {keep : α → Bool}
    (h : ∀ a, rank a = i → ok a = true → keep a = true) :
    oldest rank ok i (l.filter keep) = oldest rank ok i l := by
  unfold oldest
  rw [← List.filter_reverse, List.find?_filter]
  congr 1
  funext a
  rw [Bool.eq_iff_iff, decide_eq_true_eq, and_iff_right_iff_imp, Bool.and_eq_true,
    decide_eq_true_eq]
  exact fun hok => h a hok.1 hok.2

/-- The last element of a rank is the oldest, if it will do. -/
theorem oldest_of_getLast? (h : (l.filter fun a => rank a = i).getLast? = some a)
    (hok : ok a = true) : oldest rank ok i l = some a := by
  have hself : oldest rank ok i (l.filter fun a => rank a = i) = oldest rank ok i l :=
    oldest_filter fun _ hrank _ => decide_eq_true hrank
  obtain ⟨front, hfront⟩ := List.getLast?_eq_some_iff.mp h
  have hmem : a ∈ l.filter fun a => rank a = i := List.mem_of_getLast? h
  have hrank : decide (rank a = i) = true := (List.mem_filter.mp hmem).2
  rw [← hself, hfront]
  unfold oldest
  rw [List.reverse_append, List.reverse_singleton, List.singleton_append]
  exact List.find?_cons_of_pos (by rw [hrank, hok]; rfl)

theorem oldest_of_filter_nil (h : (l.filter fun a => rank a = i) = []) :
    oldest rank ok i l = none := by
  refine List.find?_eq_none.mpr fun a ha hok => ?_
  rw [Bool.and_eq_true, decide_eq_true_eq] at hok
  exact List.filter_eq_nil_iff.mp h a (List.mem_reverse.mp ha) (decide_eq_true hok.1)

theorem pickDown_congr {l' : List α} :
    ∀ {n : Nat} {i : Int}, (∀ j ≤ i, oldest rank ok j l' = oldest rank ok j l) →
      pickDown rank ok n i l' = pickDown rank ok n i l := by
  intro n
  induction n with
  | zero => exact fun _ => rfl
  | succ n ih =>
    intro i h
    unfold pickDown
    rw [h i (Int.le_refl i), ih fun j hj => h j (by omega)]

theorem pickDown_none :
    ∀ {n : Nat} {i : Int}, pickDown rank ok n i l = none →
      ∀ a ∈ l, i - n < rank a → rank a ≤ i → ok a = false := by
  intro n
  induction n with
  | zero =>
    intro i _ a _ hlow hhigh
    omega
  | succ n ih =>
    intro i h a ha hlow hhigh
    obtain ⟨hnone, hrest⟩ := Option.or_eq_none_iff.mp h
    by_cases hrank : rank a = i
    · exact oldest_none hnone ha hrank
    · exact ih hrest a ha (by omega) (by omega)

/-- What is picked is in the range, nothing in the range that will do has a higher rank, and
nothing of its rank that will do is older. -/
theorem pickDown_some :
    ∀ {n : Nat} {i : Int} {a : α}, pickDown rank ok n i l = some a →
      ok a = true ∧ i - n < rank a ∧ (∀ b ∈ l, ok b = true → rank b ≤ i → rank b ≤ rank a) ∧
        ∃ newer older, l = newer ++ a :: older ∧
          ∀ b ∈ older, rank b = rank a → ok b = false := by
  intro n
  induction n with
  | zero =>
    intro i a h
    cases h
  | succ n ih =>
    intro i a h
    unfold pickDown at h
    rcases hold : oldest rank ok i l with _ | b
    · rw [hold, Option.none_or] at h
      obtain ⟨hok, hlow, hmax, hsplit⟩ := ih h
      refine ⟨hok, by omega, fun b hb hbok hhigh => ?_, hsplit⟩
      by_cases hrank : rank b = i
      · have hnot := oldest_none hold hb hrank
        rw [hbok] at hnot
        cases hnot
      · exact hmax b hb hbok (by omega)
    · rw [hold, Option.some_or] at h
      cases h
      obtain ⟨hrank, hok, hsplit⟩ := oldest_some hold
      rw [← hrank] at hsplit
      refine ⟨hok, by omega, fun b _ _ hhigh => by omega, hsplit⟩

end SystemCore.Lib.RankedPick
