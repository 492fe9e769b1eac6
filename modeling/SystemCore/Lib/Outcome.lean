import Mathlib.Logic.Basic

/-!
# How a computation that may fail ends

`Outcome E P` says of a computation that its value meets `P`, or its error meets `E`. The rules
follow the computation: a sequence goes on from any value that meets the first part's `P`.
-/
namespace SystemCore.Lib

universe u

variable {ε : Type*} {α β : Type u} {E E' : ε → Prop} {P : α → Prop} {Q : β → Prop} {p : Prop}

def Outcome (E : ε → Prop) (P : α → Prop) : Except ε α → Prop
  | .ok a => P a
  | .error e => E e

namespace Outcome

variable {x : Except ε α}

theorem bind {f : α → Except ε β} (hx : Outcome E P x) (hf : ∀ a, P a → Outcome E Q (f a)) :
    Outcome E Q (x >>= f) := by
  cases x with
  | ok a => exact hf a hx
  | error e => exact hx

theorem ite [Decidable p] {y : Except ε α} (hx : p → Outcome E P x) (hy : ¬ p → Outcome E P y) :
    Outcome E P (if p then x else y) := by
  split
  · exact hx ‹_›
  · exact hy ‹_›

theorem mono {P' : α → Prop} (h : Outcome E P x) (hE : ∀ e, E e → E' e) (hP : ∀ a, P a → P' a) :
    Outcome E' P' x := by
  cases x with
  | ok a => exact hP a h
  | error e => exact hE e h

theorem any (x : Except ε α) : Outcome (fun _ => True) (fun _ => True) x := by
  cases x <;> trivial

theorem of_ok {a : α} (h : Outcome E P x) (hx : x = .ok a) : P a := by
  subst hx
  exact h

theorem of_error {e : ε} (h : Outcome E P x) (hx : x = .error e) : E e := by
  subst hx
  exact h

end Outcome

theorem ok_of_check [Decidable p] {e : ε} {x : Except ε α} {a : α}
    (h : (if p then .error e else x) = .ok a) : ¬ p ∧ x = .ok a := by
  by_cases hp : p
  · rw [if_pos hp] at h
    cases h
  · rw [if_neg hp] at h
    exact ⟨hp, h⟩

end SystemCore.Lib
