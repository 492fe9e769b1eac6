import Mathlib.Data.UInt

/-!
# Comparing UTF-16 strings

Two strings with their lengths are compared unit by unit. When one is the beginning of the other, the
result is the next unit of the longer one, and that unit can be zero.
-/
namespace SystemCore.Libutils.Unicode

/-- The loop and the last test of both functions; `load` is what is done with a unit of the second
string. -/
def compareUnits (load : UInt16 → UInt16) : List UInt16 → List UInt16 → Int
  | a :: s1, b :: s2 =>
    if (a.toNat : Int) - (load b).toNat ≠ 0 then (a.toNat : Int) - (load b).toNat
    else compareUnits load s1 s2
  | [], b :: _ => 0 - (load b).toNat
  | a :: _, [] => a.toNat - 0
  | [], [] => 0

def strzcmp16 (s1 s2 : List UInt16) : Int := compareUnits id s1 s2

def ntohs (x : UInt16) : UInt16 := x <<< 8 ||| x >>> 8

/-- `strzcmp16_h_n`, on a host with the low byte first. -/
def strzcmp16HN (s1H s2N : List UInt16) : Int := compareUnits ntohs s1H s2N

/-- The second string in network order is compared like one in the order of the host. -/
theorem strzcmp16HN_eq (s1H s2N : List UInt16) :
    strzcmp16HN s1H s2N = strzcmp16 s1H (s2N.map ntohs) := by
  unfold strzcmp16HN strzcmp16
  induction s1H generalizing s2N with
  | nil => cases s2N <;> rfl
  | cons a s1H ih =>
    cases s2N with
    | nil => rfl
    | cons b s2N =>
      rw [List.map_cons, compareUnits, compareUnits, ih]
      rfl

/-! ## The comparison and the order of lists -/

theorem strzcmp16_cons_same (a : UInt16) (s1 s2 : List UInt16) :
    strzcmp16 (a :: s1) (a :: s2) = strzcmp16 s1 s2 := by
  rw [strzcmp16, compareUnits, id, Int.sub_self, if_neg (not_not_intro rfl)]
  rfl

theorem strzcmp16_cons_ne {a b : UInt16} (h : a ≠ b) (s1 s2 : List UInt16) :
    strzcmp16 (a :: s1) (b :: s2) = (a.toNat : Int) - b.toNat := by
  have hne : (a.toNat : Int) - (id b).toNat ≠ 0 := by
    intro hzero
    have hsame : a.toNat = b.toNat := by
      rw [id] at hzero
      omega
    exact h (UInt16.toNat_inj.mp hsame)
  rw [strzcmp16, compareUnits, if_pos hne, id]

theorem strzcmp16_nil_cons (b : UInt16) (s : List UInt16) : strzcmp16 [] (b :: s) = 0 - b.toNat := rfl

theorem strzcmp16_cons_nil (a : UInt16) (s : List UInt16) : strzcmp16 (a :: s) [] = a.toNat - 0 := rfl

theorem strzcmp16_swap (s1 s2 : List UInt16) : strzcmp16 s2 s1 = -strzcmp16 s1 s2 := by
  induction s1 generalizing s2 with
  | nil =>
    cases s2 with
    | nil => rfl
    | cons b s2 =>
      rw [strzcmp16_nil_cons, strzcmp16_cons_nil]
      omega
  | cons a s1 ih =>
    cases s2 with
    | nil =>
      rw [strzcmp16_nil_cons, strzcmp16_cons_nil]
      omega
    | cons b s2 =>
      by_cases hab : a = b
      · subst hab
        rw [strzcmp16_cons_same, strzcmp16_cons_same]
        exact ih s2
      · rw [strzcmp16_cons_ne hab, strzcmp16_cons_ne (Ne.symm hab)]
        omega

/-- `s2` is `s1` with a zero unit behind it, and perhaps more. -/
def ZeroBehind (s1 s2 : List UInt16) : Prop := s1 ++ [0] <+: s2

instance (s1 s2 : List UInt16) : Decidable (ZeroBehind s1 s2) :=
  inferInstanceAs (Decidable (s1 ++ [0] <+: s2))

theorem zeroBehind_cons_iff (a : UInt16) (s1 s2 : List UInt16) :
    ZeroBehind (a :: s1) (a :: s2) ↔ ZeroBehind s1 s2 := by
  rw [ZeroBehind, ZeroBehind, List.cons_append, List.cons_prefix_cons]
  exact and_iff_right rfl

theorem toNat_pos_of_not_zeroBehind {a : UInt16} {s : List UInt16} (h : ¬ ZeroBehind [] (a :: s)) :
    0 < a.toNat := by
  rw [Nat.pos_iff_ne_zero]
  intro hzero
  obtain rfl : a = 0 := UInt16.toNat_inj.mp hzero
  exact h ⟨s, rfl⟩

variable {s1 s2 : List UInt16}

/-- Equal in the comparison although different: one is the other with a zero unit behind it. -/
theorem ZeroBehind.strzcmp16_eq (h : ZeroBehind s1 s2) : strzcmp16 s1 s2 = 0 ∧ s1 ≠ s2 := by
  obtain ⟨rest, rfl⟩ := h
  constructor
  · induction s1 with
    | nil => rfl
    | cons a s1 ih =>
      rw [List.cons_append, List.cons_append, strzcmp16_cons_same]
      exact ih
  · intro hsame
    have hlength := congrArg List.length hsame
    rw [List.append_assoc, List.length_append, List.length_append, List.length_singleton] at hlength
    omega

/-- Where no zero unit is behind the second string, the comparison is the order of lists. -/
theorem strzcmp16_le_iff (h : ¬ ZeroBehind s2 s1) : strzcmp16 s1 s2 ≤ 0 ↔ s1 ≤ s2 := by
  induction s1 generalizing s2 with
  | nil =>
    refine iff_of_true ?_ (List.nil_le s2)
    cases s2 with
    | nil => exact Int.le_refl 0
    | cons b s2 =>
      rw [strzcmp16_nil_cons]
      omega
  | cons a s1 ih =>
    cases s2 with
    | nil =>
      have hpos := toNat_pos_of_not_zeroBehind h
      refine iff_of_false ?_ fun hle => hle (List.nil_lt_cons a s1)
      rw [strzcmp16_cons_nil]
      omega
    | cons b s2 =>
      rw [List.cons_le_cons_iff]
      by_cases hab : a = b
      · subst hab
        rw [zeroBehind_cons_iff] at h
        have hrest := ih h
        rw [strzcmp16_cons_same]
        simp only [UInt16.lt_irrefl, true_and, false_or]
        exact hrest
      · have hne : a.toNat ≠ b.toNat := fun hsame => hab (UInt16.toNat_inj.mp hsame)
        rw [strzcmp16_cons_ne hab, UInt16.lt_iff_toNat_lt]
        simp only [hab, false_and, or_false]
        omega

/-! ## The order on strings -/

/-- Zero exactly for equal strings, and opposite signs. -/
def Decides (s1 s2 : List UInt16) : Prop :=
  (strzcmp16 s1 s2 = 0 ↔ s1 = s2) ∧ (strzcmp16 s1 s2).sign = -(strzcmp16 s2 s1).sign

/-- The strings of the list are in a total order by the comparison. -/
def Orders (l : List (List UInt16)) : Prop :=
  (∀ s1 ∈ l, ∀ s2 ∈ l, Decides s1 s2) ∧
    ∀ s1 ∈ l, ∀ s2 ∈ l, ∀ s3 ∈ l, strzcmp16 s1 s2 ≤ 0 → strzcmp16 s2 s3 ≤ 0 → strzcmp16 s1 s3 ≤ 0

theorem orders_iff (l : List (List UInt16)) :
    Orders l ↔ ∀ s1 ∈ l, ∀ s2 ∈ l, ¬ ZeroBehind s1 s2 := by
  constructor
  · intro horders s1 hs1 s2 hs2 hzero
    obtain ⟨hequal, hdifferent⟩ := hzero.strzcmp16_eq
    exact hdifferent ((horders.1 s1 hs1 s2 hs2).1.mp hequal)
  · intro hnone
    constructor
    · intro s1 hs1 s2 hs2
      have hle := strzcmp16_le_iff (hnone s2 hs2 s1 hs1)
      have hge := strzcmp16_le_iff (hnone s1 hs1 s2 hs2)
      have hswap := strzcmp16_swap s1 s2
      refine ⟨⟨fun hzero => ?_, ?_⟩, by rw [hswap, Int.sign_neg, Int.neg_neg]⟩
      · exact List.le_antisymm (hle.mp (by omega)) (hge.mp (by omega))
      · rintro rfl
        omega
    · intro s1 hs1 s2 hs2 s3 hs3 h12 h23
      rw [strzcmp16_le_iff (hnone s2 hs2 s1 hs1)] at h12
      rw [strzcmp16_le_iff (hnone s3 hs3 s2 hs2)] at h23
      rw [strzcmp16_le_iff (hnone s3 hs3 s1 hs1)]
      exact List.le_trans h12 h23

/-- For all strings: they are ordered by the comparison if and only if none of them is another one
with a zero unit behind it. -/
theorem strzcmp16_orders_iff (a b c : List UInt16) :
    Orders [a, b, c] ↔ ∀ s1 ∈ [a, b, c], ∀ s2 ∈ [a, b, c], ¬ ZeroBehind s1 s2 :=
  orders_iff [a, b, c]

/-- Different strings that compare equal, and three strings that are not in order. -/
theorem zero_units_not_ordered :
    strzcmp16 [] [0] = 0 ∧
      strzcmp16 [0, 5] [] ≤ 0 ∧ strzcmp16 [] [0] ≤ 0 ∧ 0 < strzcmp16 [0, 5] [0] := by
  decide

end SystemCore.Libutils.Unicode
