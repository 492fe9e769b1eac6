import SystemCore.Libutils.LinearTransform

/-!
# When a linear transform reports overflow

The distance is scaled as a magnitude. Where the magnitude has its top bit set, the code compares it
with the magnitude of the second basis. That test is strict on the negative side, where the smallest
value has no counterpart, and takes the magnitude of the smallest value for a negative number.
-/
namespace SystemCore.Libutils.LinearTransform

open Lib.FixedWidth

/-! ## The transform -/

/-- With a place for the result and a divisor, a representable result is reported as overflow
exactly at the edges. -/
theorem linear_true_iff {val basis1 basis2 : Int64} {N : Int32} {D : UInt32} (invertFrac : Bool)
    (hdivisor : (if invertFrac then (absS32 N).toUInt32 else D) ≠ 0)
    (hfits : Representable (scaledFloor val basis1 (fraction N D invertFrac)) basis2.toInt)
    (out : Option Int64) :
    (∃ out', linearTransformS64ToS64 val basis1 N D invertFrac basis2 out = .ok (true, out')) ↔
      out ≠ none ∧ ¬ AtEdge (scaledFloor val basis1 (fraction N D invertFrac)) basis2.toInt := by
  cases out with
  | none =>
    rw [linearTransformS64ToS64, if_pos rfl]
    refine iff_of_false ?_ fun h => h.1 rfl
    intro htrue
    obtain ⟨out', h⟩ := htrue
    exact Bool.false_ne_true (congrArg Prod.fst (Except.ok.inj h))
  | some stored =>
    obtain ⟨isNeg, magnitude, hfloor, heq⟩ := linear_eq val basis1 basis2 hdivisor stored
    have hmagnitude : magnitude < 2 ^ 64 := by
      have hword := hfits.1
      rw [hfloor, signed] at hword
      split at hword <;> omega
    have hback : (UInt64.ofNat magnitude).toNat = magnitude := by
      rw [UInt64.toNat_ofNat', Nat.mod_eq_of_lt hmagnitude]
    have hsum := addBasis_isSome_iff (UInt64.ofNat magnitude) isNeg basis2
    rw [hback, ← hfloor, and_iff_right hfits] at hsum
    rw [heq, if_pos hmagnitude, and_iff_right (Option.some_ne_none stored), ← hsum]
    cases addBasis (UInt64.ofNat magnitude) isNeg basis2 with
    | none =>
      refine iff_of_false ?_ Bool.false_ne_true
      intro htrue
      obtain ⟨out', h⟩ := htrue
      exact Bool.false_ne_true (congrArg Prod.fst (Except.ok.inj h))
    | some res => exact iff_of_true ⟨some res, rfl⟩ rfl

def Transform.forwardFloor (t : Transform) (aIn : Int64) : Int :=
  ⌊((aIn.toInt - t.aZero.toInt : Int) * t.aToBNumer.toInt : ℚ) / t.aToBDenom.toNat⌋

def Transform.reverseFloor (t : Transform) (bIn : Int64) : Int :=
  ⌊((bIn.toInt - t.bZero.toInt : Int) * t.aToBDenom.toNat : ℚ) / t.aToBNumer.toInt⌋

/-- Both transforms succeed on every representable result with a place to store it, if and only if
it is not at one of the edges. -/
theorem transforms_complete_iff (t : Transform) (x : Int64) (out : Option Int64) :
    (t.aToBDenom ≠ 0 → Representable (t.forwardFloor x) t.bZero.toInt →
      ((∃ out', t.doForwardTransform x out = .ok (true, out')) ↔
        out ≠ none ∧ ¬ AtEdge (t.forwardFloor x) t.bZero.toInt))
    ∧ (t.aToBNumer ≠ 0 → Representable (t.reverseFloor x) t.aZero.toInt →
      ((∃ out', t.doReverseTransform x out = .ok (true, out')) ↔
        out ≠ none ∧ ¬ AtEdge (t.reverseFloor x) t.aZero.toInt)) := by
  constructor
  · intro hdenom hfits
    unfold Transform.doForwardTransform
    rw [if_neg (Ne.symm hdenom)]
    exact linear_true_iff false hdenom hfits out
  · intro hnumer hfits
    unfold Transform.doReverseTransform
    rw [if_neg (Ne.symm hnumer)]
    exact linear_true_iff true (absS32_ne_zero hnumer) hfits out

/-- A place for the result, and a result of 4 behind the doubled distance. -/
theorem transforms_complete_double :
    ∃ out', Transform.doForwardTransform ⟨1, 2, 2, 1⟩ 2 (some 0) = .ok (true, out') := by
  have hfloor : Transform.forwardFloor ⟨1, 2, 2, 1⟩ 2 = 2 := by
    have hin : (2 : Int64).toInt = 2 ∧ (1 : Int64).toInt = 1 := by decide
    have hratio : (2 : Int32).toInt = 2 ∧ (1 : UInt32).toNat = 1 := by decide
    rw [Transform.forwardFloor, hin.1, hin.2, hratio.1, hratio.2]
    norm_num
  have hbasis : (2 : Int64).toInt = 2 := by decide
  refine ((transforms_complete_iff ⟨1, 2, 2, 1⟩ 2 (some 0)).1 (by decide) ?_).mpr
    ⟨Option.some_ne_none 0, ?_⟩
  · rw [hfloor, hbasis]
    exact ⟨by decide, by decide, by decide⟩
  · rw [hfloor, hbasis]
    unfold AtEdge
    decide

/-- Twice the distance -2^62 is the smallest value, and is reported as overflow. So is a result of
zero whose basis is the smallest value. -/
theorem smallest_value_refused :
    Transform.doForwardTransform ⟨0, 0, 2, 1⟩ (-2 ^ 62) (some 0) = .ok (false, some 0)
    ∧ Transform.forwardFloor ⟨0, 0, 2, 1⟩ (-2 ^ 62) + (0 : Int64).toInt = -2 ^ 63
    ∧ Transform.doForwardTransform ⟨0, -2 ^ 63, 2, 1⟩ (2 ^ 62) (some 0) = .ok (false, some 0)
    ∧ Transform.forwardFloor ⟨0, -2 ^ 63, 2, 1⟩ (2 ^ 62) + (-2 ^ 63 : Int64).toInt = 0 := by
  have hratio : (2 : Int32).toInt = 2 ∧ (1 : UInt32).toNat = 1 := by decide
  have hdown : (-2 ^ 62 : Int64).toInt = -2 ^ 62 ∧ (0 : Int64).toInt = 0 := by decide +kernel
  have hup : (2 ^ 62 : Int64).toInt = 2 ^ 62 ∧ (-2 ^ 63 : Int64).toInt = -2 ^ 63 := by decide +kernel
  refine ⟨by decide +kernel, ?_, by decide +kernel, ?_⟩
  · rw [Transform.forwardFloor, hdown.1, hdown.2, hratio.1, hratio.2]
    norm_num
  · rw [Transform.forwardFloor, hup.1, hup.2, hdown.2, hratio.1, hratio.2]
    norm_num

end SystemCore.Libutils.LinearTransform
