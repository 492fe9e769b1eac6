import SystemCore.Lib.ProbeChain

/-!
# Linear probing

Entries are kept by key in a table of `n` slots. A key has a first slot, and the search for it
goes on to the next slot, round the end of the table, until it meets the key or an empty slot.
How the next slot is computed is left open, and the test of an entry may itself fail. The search
finds every entry as long as entries are only ever added, and it ends as long as one slot is
empty.
-/
namespace SystemCore.Lib.LinearProbe

open Lib.ProbeChain Function

variable {α κ ε : Type*}

/-- The slot where the search ends, and whether the key is there. `out` stands for a search that
goes round and round. -/
def probe (table : Nat → Option α) (next : Nat → Nat) (test : α → Except ε Bool) (out : ε) :
    Nat → Nat → Except ε (Nat × Bool)
  | 0, _ => .error out
  | fuel + 1, i =>
    match table i with
    | none => .ok (i, false)
    | some e =>
      match test e with
      | .error err => .error err
      | .ok true => .ok (i, true)
      | .ok false => probe table next test out fuel (next i)

section Search

variable {table : Nat → Option α} {n : Nat} {next : Nat → Nat} {test : α → Except ε Bool} {out : ε}

variable (out) in
/-- Going on from a member of the chain, past entries that are not the key. -/
theorem probe_skip (hnext : ∀ i < n, next i = (i + 1) % n) (hn : 0 < n) {s k : Nat} :
    ∀ {m fuel : Nat}, k < fuel →
      (∀ j < k, ∃ e, table (place s 1 n (m + j)) = some e ∧ test e = .ok false) →
      probe table next test out fuel (place s 1 n m) =
        probe table next test out (fuel - k) (place s 1 n (m + k)) := by
  induction k with
  | zero => exact fun _ _ => rfl
  | succ k ih =>
    intro m fuel hfuel hpast
    obtain ⟨f, rfl⟩ : ∃ f, fuel = f + 1 := ⟨fuel - 1, by omega⟩
    obtain ⟨e, he, htest⟩ := hpast 0 (Nat.succ_pos k)
    have hstep : probe table next test out (f + 1) (place s 1 n m) =
        probe table next test out f (place s 1 n (m + 1)) := by
      rw [Nat.add_zero] at he
      simp only [probe, he, htest, place_succ, hnext _ (place_lt hn m)]
    have hrest : ∀ j < k, ∃ e, table (place s 1 n (m + 1 + j)) = some e ∧ test e = .ok false := by
      intro j hj
      have h := hpast (j + 1) (Nat.succ_lt_succ hj)
      rwa [← Nat.add_assoc, Nat.add_right_comm] at h
    rw [hstep, ih (Nat.lt_of_succ_lt_succ hfuel) hrest, Nat.add_sub_add_right, Nat.add_right_comm]
    rfl

end Search

/-! ## Tables that a search can rely on -/

/-- No slot is empty between the first slot of a key and the slot where it is, and no key is
there twice. -/
structure Placed (n : Nat) (start : κ → Nat) (key : α → κ) (table : Nat → Option α) : Prop where
  path : ∀ {i e}, i < n → table i = some e →
    ∃ k < n, place (start (key e)) 1 n k = i ∧
      ∀ j < k, table (place (start (key e)) 1 n j) ≠ none
  distinct : ∀ {i j e e'}, i < n → j < n → table i = some e → table j = some e' →
    key e = key e' → i = j

theorem placed_empty (n : Nat) (start : κ → Nat) (key : α → κ) :
    Placed n start key fun _ => none :=
  ⟨fun _ h => (nomatch h), fun _ _ h _ _ => (nomatch h)⟩

variable {n : Nat} {start : κ → Nat} {key : α → κ} {table : Nat → Option α} {next : Nat → Nat}
  {test : α → Except ε Bool} {out : ε} {q : κ}

/-- An entry that is in the table is found where it is. -/
theorem Placed.probe_present [DecidableEq κ] (h : Placed n start key table)
    (hnext : ∀ i < n, next i = (i + 1) % n)
    (htest : ∀ i < n, ∀ e, table i = some e → test e = .ok (decide (key e = q)))
    (hstart : start q < n) {i : Nat} {e : α} (hi : i < n) (he : table i = some e)
    (hkey : key e = q) : probe table next test out n (start q) = .ok (i, true) := by
  obtain ⟨k, hk, hplace, hpath⟩ := h.path hi he
  rw [hkey] at hplace hpath
  have hn : 0 < n := Nat.lt_of_le_of_lt (Nat.zero_le _) hstart
  have hcop : Nat.Coprime 1 n := Nat.coprime_one_left n
  have hpast : ∀ j < k, ∃ e, table (place (start q) 1 n (0 + j)) = some e ∧ test e = .ok false := by
    intro j hj
    have hlt : place (start q) 1 n j < n := place_lt hn j
    obtain ⟨e', he'⟩ := Option.ne_none_iff_exists'.mp (hpath j hj)
    refine ⟨e', by rw [Nat.zero_add]; exact he', ?_⟩
    rw [htest _ hlt e' he', decide_eq_false]
    intro hsame
    -- the same key in two slots of the chain
    have heq := h.distinct hlt hi he' he (hsame.trans hkey.symm)
    rw [← hplace] at heq
    have := place_inj hcop (Nat.lt_trans hj hk) hk heq
    omega
  have hskip := probe_skip out hnext hn (m := 0) hk hpast
  rw [place_zero hstart, Nat.zero_add] at hskip
  obtain ⟨f, hf⟩ : ∃ f, n - k = f + 1 := ⟨n - k - 1, by omega⟩
  rw [hskip, hf, hplace]
  simp only [probe, he, htest i hi e he, hkey, decide_true]

/-- A key that is not in the table leads to an empty slot, with no empty slot before it. -/
theorem probe_absent [DecidableEq κ] (hnext : ∀ i < n, next i = (i + 1) % n)
    (htest : ∀ i < n, ∀ e, table i = some e → test e = .ok (decide (key e = q)))
    (hstart : start q < n) (hempty : ∃ i < n, table i = none)
    (habsent : ∀ i < n, ∀ e, table i = some e → key e ≠ q) :
    ∃ k < n, probe table next test out n (start q) = .ok (place (start q) 1 n k, false) ∧
      table (place (start q) 1 n k) = none ∧
      ∀ j < k, table (place (start q) 1 n j) ≠ none := by
  have hn : 0 < n := Nat.lt_of_le_of_lt (Nat.zero_le _) hstart
  have hex : ∃ k, k < n ∧ table (place (start q) 1 n k) = none := by
    obtain ⟨i, hi, hnone⟩ := hempty
    obtain ⟨k, hk, hplace⟩ := exists_place (s := start q) (Nat.coprime_one_left n) hi
    exact ⟨k, hk, by rw [hplace, hnone]⟩
  classical
  obtain ⟨hk, hnone⟩ := Nat.find_spec hex
  have hpath : ∀ j < Nat.find hex, table (place (start q) 1 n j) ≠ none := by
    intro j hj hnone'
    exact Nat.find_min hex hj ⟨Nat.lt_trans hj hk, hnone'⟩
  have hpast : ∀ j < Nat.find hex,
      ∃ e, table (place (start q) 1 n (0 + j)) = some e ∧ test e = .ok false := by
    intro j hj
    have hlt : place (start q) 1 n j < n := place_lt hn j
    obtain ⟨e, he⟩ := Option.ne_none_iff_exists'.mp (hpath j hj)
    refine ⟨e, by rw [Nat.zero_add]; exact he, ?_⟩
    rw [htest _ hlt e he, decide_eq_false (habsent _ hlt e he)]
  have hskip := probe_skip out hnext hn (m := 0) hk hpast
  rw [place_zero hstart, Nat.zero_add] at hskip
  obtain ⟨f, hf⟩ : ∃ f, n - Nat.find hex = f + 1 := ⟨n - Nat.find hex - 1, by omega⟩
  refine ⟨Nat.find hex, hk, ?_, hnone, hpath⟩
  rw [hskip, hf]
  simp only [probe, hnone]

/-- An entry with a new key goes to the empty slot that the search for it ends at. -/
theorem Placed.insert (h : Placed n start key table) {e : α} {k : Nat} (hk : k < n)
    (hpath : ∀ j < k, table (place (start (key e)) 1 n j) ≠ none)
    (habsent : ∀ i < n, ∀ e', table i = some e' → key e' ≠ key e) :
    Placed n start key (Function.update table (place (start (key e)) 1 n k) (some e)) := by
  have hkept : ∀ i, table i ≠ none →
      Function.update table (place (start (key e)) 1 n k) (some e) i ≠ none := by
    intro i hi
    by_cases heq : i = place (start (key e)) 1 n k
    · rw [heq, update_self]
      exact Option.some_ne_none e
    · rwa [update_of_ne heq]
  refine ⟨fun {i x} hi hx => ?_, fun {i j x y} hi hj hx hy hkey => ?_⟩
  · by_cases heq : i = place (start (key e)) 1 n k
    · rw [heq, update_self] at hx
      cases hx
      exact ⟨k, hk, heq.symm, fun j hj => hkept _ (hpath j hj)⟩
    · rw [update_of_ne heq] at hx
      obtain ⟨m, hm, hplace, hbefore⟩ := h.path hi hx
      exact ⟨m, hm, hplace, fun j hj => hkept _ (hbefore j hj)⟩
  · by_cases hi' : i = place (start (key e)) 1 n k
    · by_cases hj' : j = place (start (key e)) 1 n k
      · rw [hi', hj']
      · rw [hi', update_self] at hx
        rw [update_of_ne hj'] at hy
        cases hx
        exact absurd hkey.symm (habsent j hj y hy)
    · rw [update_of_ne hi'] at hx
      by_cases hj' : j = place (start (key e)) 1 n k
      · rw [hj', update_self] at hy
        cases hy
        exact absurd hkey (habsent i hi x hx)
      · rw [update_of_ne hj'] at hy
        exact h.distinct hi hj hx hy hkey

end SystemCore.Lib.LinearProbe
