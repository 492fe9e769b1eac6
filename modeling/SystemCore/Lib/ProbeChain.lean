import Mathlib.Data.Nat.ModEq
import Mathlib.Data.Fintype.EquivFin

/-!
# Probe chains

A chain starts at `s` and goes on by steps of `d`, modulo the number `n` of places. When
the step has no factor in common with `n`, the first `n` members of the chain are all the
places, each of them once.
-/
namespace SystemCore.Lib.ProbeChain

/-- Member `k` of the chain. -/
def place (s d n k : Nat) : Nat := (s + k * d) % n

section

variable {s d n : Nat}

theorem place_zero (hs : s < n) : place s d n 0 = s := by
  rw [place, Nat.zero_mul, Nat.add_zero, Nat.mod_eq_of_lt hs]

theorem place_succ (s d n k : Nat) : place s d n (k + 1) = (place s d n k + d) % n := by
  rw [place, place, Nat.mod_add_mod, Nat.succ_mul, Nat.add_assoc]

theorem place_lt (hn : 0 < n) (k : Nat) : place s d n k < n := Nat.mod_lt _ hn

variable (hc : Nat.Coprime d n)
include hc

theorem place_inj {j k : Nat} (hj : j < n) (hk : k < n) (h : place s d n j = place s d n k) :
    j = k := by
  have hmod : j * d ≡ k * d [MOD n] := Nat.ModEq.add_left_cancel' s h
  have hjk : j ≡ k [MOD n] := Nat.ModEq.cancel_right_of_coprime (Nat.coprime_comm.mp hc) hmod
  exact Nat.ModEq.eq_of_lt_of_lt hjk hj hk

/-- Every place is a member. -/
theorem exists_place {i : Nat} (hi : i < n) : ∃ k < n, place s d n k = i := by
  have hn : 0 < n := by omega
  let f : Fin n → Fin n := fun k => ⟨place s d n k, place_lt hn k⟩
  have hinj : Function.Injective f := by
    intro j k h
    exact Fin.ext (place_inj hc j.isLt k.isLt (congrArg Fin.val h))
  obtain ⟨k, hk⟩ := Finite.surjective_of_injective hinj ⟨i, hi⟩
  exact ⟨k, k.isLt, congrArg Fin.val hk⟩

/-- Every place is met within `n` steps from any member on. -/
theorem exists_place_from {i : Nat} (hi : i < n) (j : Nat) :
    ∃ k, j ≤ k ∧ k < j + n ∧ place s d n k = i := by
  obtain ⟨k, hk, he⟩ := exists_place (s := place s d n j) hc hi
  refine ⟨j + k, Nat.le_add_right _ _, by omega, ?_⟩
  rw [← he, place, place, place, Nat.mod_add_mod, Nat.add_mul, Nat.add_assoc]

end

end SystemCore.Lib.ProbeChain
