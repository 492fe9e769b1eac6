import Mathlib.Data.List.Basic

/-!
# Runs of a step function that may stop

A step function takes a state and a request to the next state, or stops with an
error. `Along` and `Throughout` speak about every request and every state of a
run up to the point where it stops, so that a run that stops early says nothing
about the requests behind the stop. The rules below turn one fact about a single
step into a fact about whole runs.
-/
namespace SystemCore.Lib.Runs

variable {σ α ε : Type*} (step : σ → α → Except ε σ)

/-- Apply the requests in order, stopping at the first error. -/
def run : σ → List α → Except ε σ
  | s, [] => .ok s
  | s, a :: as =>
    match step s a with
    | .error e => .error e
    | .ok s' => run s' as

/-- Every request the run takes up meets `P` in the state it is taken up in. -/
def Along (P : σ → α → Prop) : σ → List α → Prop
  | _, [] => True
  | s, a :: as => P s a ∧ ∀ s', step s a = .ok s' → Along P s' as

/-- Every state the run passes through meets `Q`. -/
def Throughout (Q : σ → Prop) : σ → List α → Prop
  | s, [] => Q s
  | s, a :: as => Q s ∧ ∀ s', step s a = .ok s' → Throughout Q s' as

/-- Whether a run keeps to `P` can be found out by running it. -/
instance decidableAlong (P : σ → α → Prop) [∀ s a, Decidable (P s a)] :
    ∀ (s : σ) (as : List α), Decidable (Along step P s as)
  | _, [] => isTrue trivial
  | s, a :: as =>
    match hs : step s a with
    | .error _ =>
      if hp : P s a then
        isTrue ⟨hp, fun _ h => by rw [hs] at h; cases h⟩
      else isFalse fun h => hp h.1
    | .ok s' =>
      if hp : P s a then
        match decidableAlong P s' as with
        | isTrue h => isTrue ⟨hp, fun t ht => by
          rw [hs] at ht
          exact Except.ok.inj ht ▸ h⟩
        | isFalse h => isFalse fun hall => h (hall.2 s' hs)
      else isFalse fun h => hp h.1

variable {step} {as : List α}

theorem run_cons_ok {s s' : σ} {a : α} (h : step s a = .ok s') :
    run step s (a :: as) = run step s' as := by
  simp only [run, h]

theorem run_cons_inv {s t : σ} {a : α} (h : run step s (a :: as) = .ok t) :
    ∃ s', step s a = .ok s' ∧ run step s' as = .ok t := by
  cases hs : step s a with
  | error e => simp only [run, hs] at h; cases h
  | ok s' => exact ⟨s', rfl, by rwa [run_cons_ok hs] at h⟩

theorem run_append (as bs : List α) (s : σ) : run step s (as ++ bs) =
    match run step s as with
    | .error e => .error e
    | .ok t => run step t bs := by
  induction as generalizing s with
  | nil => rfl
  | cons a as ih =>
    cases hs : step s a with
    | error e => simp only [List.cons_append, run, hs]
    | ok s' => rw [List.cons_append, run_cons_ok hs, run_cons_ok hs, ih]

variable {P : σ → α → Prop} {Q : σ → Prop}

theorem Along.append {bs : List α} {s : σ} (h : Along step P s (as ++ bs)) :
    Along step P s as ∧ ∀ t, run step s as = .ok t → Along step P t bs := by
  induction as generalizing s with
  | nil => exact ⟨trivial, fun t ht => Except.ok.inj ht ▸ h⟩
  | cons a as ih =>
    refine ⟨⟨h.1, fun s' hs' => (ih (h.2 s' hs')).1⟩, fun t ht => ?_⟩
    obtain ⟨s', hs', ht⟩ := run_cons_inv ht
    exact (ih (h.2 s' hs')).2 t ht

theorem Throughout.first : ∀ {as : List α} {s : σ}, Throughout step Q s as → Q s
  | [], _, h => h
  | _ :: _, _, h => h.1

theorem Throughout.imp {P : σ → Prop} (h : ∀ s, P s → Q s) :
    ∀ {as : List α} {s : σ}, Throughout step P s as → Throughout step Q s as
  | [], _, hs => h _ hs
  | _ :: _, _, ⟨hs, rest⟩ => ⟨h _ hs, fun s' hs' => Throughout.imp h (rest s' hs')⟩

theorem along_of_forall :
    ∀ {as : List α} {s : σ}, (∀ a ∈ as, ∀ s, P s a) → Along step P s as
  | [], _, _ => trivial
  | a :: _, s, h => ⟨h a List.mem_cons_self s,
      fun _ _ => along_of_forall fun b hb => h b (List.mem_cons_of_mem a hb)⟩

variable {I : σ → Prop} (hstep : ∀ s a s', Q s → P s a → step s a = .ok s' → Q s')
  (hI : ∀ s a s', I s → step s a = .ok s' → I s')

include hstep in
/-- A fact kept by every step that meets `P` holds throughout the run. -/
theorem throughout_of_along :
    ∀ (as : List α) (s : σ), Q s → Along step P s as → Throughout step Q s as := by
  intro as
  induction as with
  | nil => intro s hs _; exact hs
  | cons a as ih =>
    intro s hs ha
    exact ⟨hs, fun s' h => ih s' (hstep s a s' hs ha.1 h) (ha.2 s' h)⟩

include hstep in
/-- The same fact at the end of a run that does not stop. -/
theorem run_of_along :
    ∀ (as : List α) {s t : σ}, Q s → Along step P s as → run step s as = .ok t → Q t := by
  intro as
  induction as with
  | nil =>
    intro s t hs _ h
    cases h
    exact hs
  | cons a as ih =>
    intro s t hs ha h
    obtain ⟨s', h1, h2⟩ := run_cons_inv h
    exact ih (hstep s a s' hs ha.1 h1) (ha.2 s' h1) h2

include hstep in
/-- How a run can stop, from how its steps can. -/
theorem run_error_of_along {E : ε → Prop}
    (herror : ∀ s a e, Q s → P s a → step s a = .error e → E e) :
    ∀ (as : List α) {s : σ} {e : ε}, Q s → Along step P s as → run step s as = .error e → E e := by
  intro as
  induction as with
  | nil => intro s e _ _ h; cases h
  | cons a as ih =>
    intro s e hs ha h
    cases hstep' : step s a with
    | error e' =>
      simp only [run, hstep'] at h
      cases h
      exact herror s a e hs ha.1 hstep'
    | ok s' =>
      rw [run_cons_ok hstep'] at h
      exact ih (hstep s a s' hs ha.1 hstep') (ha.2 s' hstep') h

/-- When a step that meets `P` succeeds, keeps `Q` and is related to its result by `R`, so is
every step of a run whose steps meet `P`. -/
theorem served_of_along {R : σ → α → σ → Prop}
    (hstep : ∀ s a, Q s → P s a → ∃ s', step s a = .ok s' ∧ Q s' ∧ R s a s') :
    ∀ (as : List α) (s : σ), Q s → Along step P s as →
      (∃ t, run step s as = .ok t) ∧ Throughout step Q s as ∧
        Along step (fun s a => ∃ s', step s a = .ok s' ∧ R s a s') s as := by
  intro as
  induction as with
  | nil => intro s hs _; exact ⟨⟨s, rfl⟩, hs, trivial⟩
  | cons a as ih =>
    intro s hs ha
    obtain ⟨s', h, hs', hr⟩ := hstep s a hs ha.1
    obtain ⟨hrun, hthrough, halong⟩ := ih s' hs' (ha.2 s' h)
    refine ⟨by rwa [run_cons_ok h], ⟨hs, ?_⟩, ⟨s', h, hr⟩, ?_⟩
    · intro t ht
      obtain rfl : s' = t := Except.ok.inj (h.symm.trans ht)
      exact hthrough
    · intro t ht
      obtain rfl : s' = t := Except.ok.inj (h.symm.trans ht)
      exact halong

include hI in
/-- When a step keeps `I` and its result meets `Q` exactly if the step meets
`P`, the states of a run meet `Q` exactly if its steps meet `P`. -/
theorem throughout_iff_along (hQ : ∀ s a s', I s → Q s → step s a = .ok s' → (Q s' ↔ P s a))
    (hstop : ∀ s a e, step s a = .error e → P s a) :
    ∀ (as : List α) (s : σ), I s → Q s → (Throughout step Q s as ↔ Along step P s as) := by
  intro as
  induction as with
  | nil => intro s _ hs; simp only [Throughout, Along, hs]
  | cons a as ih =>
    intro s hi hs
    cases ha : step s a with
    | error e => simp [Throughout, Along, ha, hs, hstop s a e ha]
    | ok s' =>
      have hiff := hQ s a s' hi hs ha
      simp only [Throughout, Along, ha, Except.ok.injEq, forall_eq', hs, true_and]
      constructor
      · intro ht
        have hq : Q s' := by cases as <;> [exact ht; exact ht.1]
        exact ⟨hiff.mp hq, (ih s' (hI s a s' hi ha) hq).mp ht⟩
      · rintro ⟨hp, hrest⟩
        exact (ih s' (hI s a s' hi ha) (hiff.mpr hp)).mpr hrest

include hI in
/-- When a step keeps `I` and avoids the errors in `bad` exactly if it meets `P`, a run
avoids them exactly if its steps meet `P`. -/
theorem run_avoids_iff_along {bad : ε → Prop}
    (hP : ∀ s a, I s → ((∀ e, step s a = .error e → ¬ bad e) ↔ P s a)) :
    ∀ (as : List α) (s : σ), I s →
      ((∀ e, run step s as = .error e → ¬ bad e) ↔ Along step P s as) := by
  intro as
  induction as with
  | nil => intro s _; simp [run, Along]
  | cons a as ih =>
    intro s hi
    have hiff := hP s a hi
    cases ha : step s a with
    | error e =>
      simpa [run, Along, ha] using hiff
    | ok s' =>
      have hp : P s a := hiff.mp (by rw [ha]; intro e h; cases h)
      rw [run_cons_ok ha, ih s' (hI s a s' hi ha)]
      simp [Along, ha, hp]

/-- A result found by running, with a test that it passes. -/
theorem exists_ok_of_any {r : Except ε σ} {f : σ → Bool} (h : r.toOption.any f = true) :
    ∃ s, r = .ok s ∧ f s = true := by
  cases r with
  | error _ => cases h
  | ok s => exact ⟨s, rfl, h⟩

end SystemCore.Lib.Runs
