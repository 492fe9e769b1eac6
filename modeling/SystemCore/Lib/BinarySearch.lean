import Mathlib.Order.Lattice
import Mathlib.Data.List.Basic

/-!
# Lists kept in strict order

A comparison function gives a negative number, zero or a positive number. Lists without
two equal items, in increasing order, are searched by halving; an item goes where the
search ends.
-/
namespace SystemCore.Lib

open List

/-! ## Halving -/

/-- Search the positions from `l` to `h`. `probe` compares the item at a position with the
one that is sought. The result says whether it is found and where the search ended. -/
def bisect {ε : Type} (probe : Int → Except ε Int) (l h : Int) : Except ε (Bool × Int) :=
  if l ≤ h then
    let mid := l + (h - l) / 2
    match probe mid with
    | .error e => .error e
    | .ok c =>
      if c = 0 then .ok (true, mid)
      else if c < 0 then bisect probe (mid + 1) h
      else bisect probe l (mid - 1)
  else .ok (false, l)
termination_by (h - l + 1).toNat

section Bisect

variable {ε : Type} {probe : Int → Except ε Int} {c : Nat → Int} {n : Nat}

/-- Among the first `n` positions the comparisons go from negative to positive. -/
def Increasing (c : Nat → Int) (n : Nat) : Prop :=
  ∀ i j, i < j → j < n → (c j ≤ 0 → c i < 0) ∧ (0 ≤ c i → 0 < c j)

/-- Position `k` is between the negative and the positive comparisons. -/
structure Splits (c : Nat → Int) (n k : Nat) : Prop where
  le : k ≤ n
  below : ∀ i, i < k → c i < 0
  above : ∀ i, k ≤ i → i < n → 0 < c i

theorem bisect_spec (inc : Increasing c n) (hprobe : ∀ i : Nat, i < n → probe i = .ok (c i))
    (l h : Int) (nonneg : 0 ≤ l) (bound : h < n) (near : l ≤ h + 1)
    (below : ∀ i : Nat, (i : Int) < l → c i < 0)
    (above : ∀ i : Nat, h < (i : Int) → i < n → 0 < c i) :
    (∃ k : Nat, bisect probe l h = .ok (true, (k : Int)) ∧ k < n ∧ c k = 0) ∨
      ∃ k : Nat, bisect probe l h = .ok (false, (k : Int)) ∧ Splits c n k := by
  -- the distance between the bounds decreases
  generalize hd : (h - l + 1).toNat = d
  induction d using Nat.strongRecOn generalizing l h with
  | ind d ih =>
  rw [bisect]
  by_cases go : l ≤ h
  · obtain ⟨m, hm⟩ : ∃ m : Nat, l + (h - l) / 2 = m := Int.eq_ofNat_of_zero_le (by omega)
    have hmn : m < n := by omega
    simp only [go, if_true, hm, hprobe m hmn]
    rcases Int.lt_trichotomy (c m) 0 with neg | zero | pos
    · simp only [Int.ne_of_lt neg, if_false, neg, if_true]
      refine ih _ (by omega) (m + 1) h (by omega) bound (by omega) ?_ above rfl
      intro i hi
      by_cases eq : i = m
      · rwa [eq]
      · exact (inc i m (by omega) hmn).1 (by omega)
    · simp only [zero, if_true]
      exact Or.inl ⟨m, rfl, hmn, zero⟩
    · simp only [(Int.ne_of_lt pos).symm, if_false, Int.not_lt.mpr (Int.le_of_lt pos)]
      refine ih _ (by omega) l (m - 1) nonneg (by omega) (by omega) below ?_ rfl
      intro i hi hin
      by_cases eq : i = m
      · rwa [eq]
      · exact (inc m i (by omega) hin).2 (by omega)
  · obtain ⟨k, hk⟩ : ∃ k : Nat, l = k := Int.eq_ofNat_of_zero_le nonneg
    simp only [go, if_false]
    refine Or.inr ⟨k, by rw [hk], by omega, fun i hi => below i (by omega), fun i hi hin => ?_⟩
    exact above i (by omega) hin

theorem bisect_all (inc : Increasing c n) (hprobe : ∀ i : Nat, i < n → probe i = .ok (c i)) :
    (∃ k : Nat, bisect probe 0 (n - 1) = .ok (true, (k : Int)) ∧ k < n ∧ c k = 0) ∨
      ∃ k : Nat, bisect probe 0 (n - 1) = .ok (false, (k : Int)) ∧ Splits c n k :=
  bisect_spec inc hprobe 0 (n - 1) (by omega) (by omega) (by omega) (fun i hi => by omega)
    fun i hi hin => by omega

/-- What is found was compared. -/
theorem bisect_found {l h k : Int} (found : bisect probe l h = .ok (true, k)) :
    l ≤ k ∧ k ≤ h ∧ probe k = .ok 0 := by
  generalize hd : (h - l + 1).toNat = d
  induction d using Nat.strongRecOn generalizing l h with
  | ind d ih =>
  rw [bisect] at found
  by_cases go : l ≤ h
  · simp only [go, if_true] at found
    cases hp : probe (l + (h - l) / 2) with
    | error e => simp [hp] at found
    | ok c =>
      simp only [hp] at found
      split at found
      · next zero =>
        cases found
        exact ⟨by omega, by omega, zero ▸ hp⟩
      · split at found
        · obtain ⟨lower, upper, zero⟩ := ih _ (by omega) found rfl
          exact ⟨by omega, upper, zero⟩
        · obtain ⟨lower, upper, zero⟩ := ih _ (by omega) found rfl
          exact ⟨lower, by omega, zero⟩
  · simp [go] at found

/-- An error of the search is an error of a comparison. -/
theorem bisect_error {P : ε → Prop} (hP : ∀ mid e, probe mid = .error e → P e) {l h : Int} {e : ε}
    (failed : bisect probe l h = .error e) : P e := by
  generalize hd : (h - l + 1).toNat = d
  induction d using Nat.strongRecOn generalizing l h with
  | ind d ih =>
  rw [bisect] at failed
  by_cases go : l ≤ h
  · simp only [go, if_true] at failed
    cases hp : probe (l + (h - l) / 2) with
    | error e' =>
      simp only [hp] at failed
      cases failed
      exact hP _ _ hp
    | ok c =>
      simp only [hp] at failed
      split at failed
      · cases failed
      · split at failed
        · exact ih _ (by omega) failed rfl
        · exact ih _ (by omega) failed rfl
  · simp [go] at failed

end Bisect

/-! ## Comparison functions -/

variable {α : Type*}

/-- `cmp` is a total preorder. -/
structure Compares (cmp : α → α → Int) : Prop where
  flip : ∀ x y, cmp x y < 0 ↔ 0 < cmp y x
  trans : ∀ x y z, cmp x y ≤ 0 → cmp y z ≤ 0 → cmp x z ≤ 0

namespace Compares

variable {cmp : α → α → Int} {x y z : α}

theorem self (hc : Compares cmp) (x : α) : cmp x x = 0 := by
  have := hc.flip x x
  omega

theorem symm (hc : Compares cmp) (h : cmp x y = 0) : cmp y x = 0 := by
  have := hc.flip x y
  have := hc.flip y x
  omega

theorem lt_of_lt_of_le (hc : Compares cmp) (hxy : cmp x y < 0) (hyz : cmp y z ≤ 0) :
    cmp x z < 0 := by
  by_contra not
  have hzx : cmp z x ≤ 0 := by
    have := hc.flip z x
    have := hc.flip x z
    omega
  have hyx := hc.trans y z x hyz hzx
  have := hc.flip x y
  omega

theorem lt_of_le_of_lt (hc : Compares cmp) (hxy : cmp x y ≤ 0) (hyz : cmp y z < 0) :
    cmp x z < 0 := by
  by_contra not
  have hzx : cmp z x ≤ 0 := by
    have := hc.flip z x
    have := hc.flip x z
    omega
  have hzy := hc.trans z x y hzx hxy
  have := hc.flip y z
  omega

/-- The comparison that an order gives. -/
theorem of_lt {β : Type*} [LinearOrder β] (f : α → β) :
    Compares fun x y => (if f y < f x then 1 else 0) - (if f x < f y then 1 else 0) where
  flip x y := by
    rcases lt_trichotomy (f x) (f y) with lt | eq | gt
    · simp [lt, lt_asymm lt]
    · simp [eq]
    · simp [gt, lt_asymm gt]
  trans x y z hxy hyz := by
    have le : ∀ {a b : β}, (if b < a then (1 : Int) else 0) - (if a < b then 1 else 0) ≤ 0 ↔
        a ≤ b := by
      intro a b
      rcases lt_trichotomy a b with lt | eq | gt
      · simp [lt, lt_asymm lt, le_of_lt lt]
      · simp [eq]
      · simp [gt, lt_asymm gt]
    exact le.mpr (le_trans (le.mp hxy) (le.mp hyz))

end Compares

/-! ## Strictly increasing lists -/

def Sorted (cmp : α → α → Int) (xs : List α) : Prop := xs.Pairwise fun x y => cmp x y < 0

/-- The comparisons of the items of a list with `y`. -/
def against (cmp : α → α → Int) (xs : List α) (y : α) (i : Nat) : Int :=
  match xs[i]? with
  | some x => cmp x y
  | none => 0

section Sorted

variable {cmp : α → α → Int} {xs ys : List α} {y z : α} {k : Nat}

theorem against_of_lt (hk : k < xs.length) : against cmp xs y k = cmp xs[k] y := by
  rw [against, List.getElem?_eq_getElem hk]

theorem Sorted.increasing (hc : Compares cmp) (sorted : Sorted cmp xs) (y : α) :
    Increasing (against cmp xs y) xs.length := by
  intro i j hij hj
  have step : cmp xs[i] xs[j] < 0 := pairwise_iff_getElem.mp sorted i j (by omega) hj hij
  rw [against_of_lt hj, against_of_lt (by omega)]
  refine ⟨hc.lt_of_lt_of_le step, fun ge => ?_⟩
  have below : cmp y xs[i] ≤ 0 := by
    have := hc.flip y xs[i]
    have := hc.flip xs[i] y
    omega
  exact (hc.flip _ _).mp (hc.lt_of_le_of_lt below step)

theorem Splits.take_below (split : Splits (against cmp xs y) xs.length k) :
    ∀ x ∈ xs.take k, cmp x y < 0 := by
  intro x hx
  obtain ⟨i, hi, rfl⟩ := getElem_of_mem hx
  rw [length_take] at hi
  have below := split.below i (by omega)
  rwa [against_of_lt (by omega), ← getElem_take] at below

theorem Splits.drop_above (split : Splits (against cmp xs y) xs.length k) :
    ∀ x ∈ xs.drop k, 0 < cmp x y := by
  intro x hx
  obtain ⟨i, hi, rfl⟩ := getElem_of_mem hx
  rw [length_drop] at hi
  have above := split.above (k + i) (by omega) (by omega)
  rwa [against_of_lt (by omega), ← getElem_drop] at above

theorem Sorted.insert (hc : Compares cmp) (sorted : Sorted cmp xs)
    (split : Splits (against cmp xs y) xs.length k) :
    Sorted cmp (xs.take k ++ [y] ++ xs.drop k) := by
  have parts := pairwise_append.mp (by rwa [take_append_drop] :
    (xs.take k ++ xs.drop k).Pairwise fun x y => cmp x y < 0)
  obtain ⟨front, back, across⟩ := parts
  have below := split.take_below
  have above : ∀ x ∈ xs.drop k, cmp y x < 0 := fun x hx =>
    (hc.flip y x).mpr (split.drop_above x hx)
  rw [Sorted, append_assoc]
  refine pairwise_append.mpr ⟨front, ?_, ?_⟩
  · exact pairwise_cons.mpr ⟨above, back⟩
  · intro x hx z hz
    rcases mem_cons.mp hz with rfl | hz
    · exact below x hx
    · exact across x hx z hz

/-- An item may be replaced by one that is equal to it. -/
theorem Sorted.set (hc : Compares cmp) (sorted : Sorted cmp xs) (hk : k < xs.length)
    (eq : cmp xs[k] y = 0) : Sorted cmp (xs.set k y) := by
  refine pairwise_iff_getElem.mpr fun i j hi hj hij => ?_
  rw [length_set] at hi hj
  have step : cmp xs[i] xs[j] < 0 := pairwise_iff_getElem.mp sorted i j hi hj hij
  rw [getElem_set, getElem_set]
  split
  · next ik =>
    subst ik
    rw [if_neg (by omega)]
    exact hc.lt_of_le_of_lt (Int.le_of_eq (hc.symm eq)) step
  · split
    · next jk =>
      subst jk
      exact hc.lt_of_lt_of_le step (Int.le_of_eq eq)
    · exact step

end Sorted

end SystemCore.Lib
