import Mathlib.Data.Finset.Union
import SystemCore.Lib.Runs

/-!
# Pending events in adb

An fdevent that `select` reports is pending until its turn comes in `fdevent_loop`. When its mask
is changed before that, `fdevent_set` takes away the events that are still wanted, and leaves those
that are not wanted any more.
-/
namespace SystemCore.Adb

open Lib.Runs Finset

/-- The bits of `FDE_EVENTMASK`. -/
abbrev Events := Finset (Fin 8)

structure Fdevent where
  mask : Events
  events : Events
  pending : Bool
  deriving DecidableEq

/-- The fdevents, and those in the list of pending ones. -/
structure Loop where
  fde : Nat → Fdevent
  listPending : List Nat

namespace Loop

def init : Loop := ⟨fun _ => ⟨∅, ∅, false⟩, []⟩

def put (s : Loop) (f : Nat) (x : Fdevent) : Loop := { s with fde := Function.update s.fde f x }

def plistRemove (s : Loop) (f : Nat) : Loop := { s with listPending := s.listPending.erase f }

/-- `fdevent_set`, which `fdevent_add` and `fdevent_del` call. -/
def set (s : Loop) (f : Nat) (events : Events) : Loop :=
  let x := s.fde f
  if x.mask = events then s
  else if x.pending then
    if x.events \ events = ∅ then (s.plistRemove f).put f ⟨events, ∅, false⟩
    else s.put f ⟨events, x.events \ events, true⟩
  else s.put f { x with mask := events }

def remove (s : Loop) (f : Nat) : Loop :=
  (if (s.fde f).pending then s.plistRemove f else s).put f ⟨∅, ∅, false⟩

/-- `fdevent_process` at the slot of an fdevent, whose events are those of the sets that `select`
left, or a read that is faked for a bad descriptor. -/
def process (s : Loop) (f : Nat) (events : Events) : Loop :=
  let x := s.fde f
  if events = ∅ then s
  else if x.pending then s.put f { x with events := x.events ∪ events }
  else { s.put f ⟨x.mask, x.events ∪ events, true⟩ with listPending := s.listPending ++ [f] }

def FDE_READ : Fin 8 := 0

/-- `fdevent_subproc_event_func`, for the fdevent of a subprocess that has left no data: a read is
added to its events and, unless it is pending, its callback is called at once. -/
def subproc (s : Loop) (f : Nat) : Loop :=
  let x := s.fde f
  if x.pending then s.put f { x with events := x.events ∪ {FDE_READ} }
  else s.put f ⟨x.mask, ∅, false⟩

end Loop

open Loop (FDE_READ)

/-- The calls, and a turn of `fdevent_loop`. What its callback does is in the calls behind it, also
the callback that `fdevent_subproc_setup` installs. -/
inductive Op where
  | install (f : Nat)
  | set (f : Nat) (events : Events)
  | remove (f : Nat)
  | process (f : Nat) (events : Events)
  | subproc (f : Nat)
  | dispatch

/-- `fdevent_install` clears an fdevent also when it is in the list, which is then broken. -/
def step (s : Loop) : Op → Except Unit Loop
  | .install f => .ok (s.put f ⟨∅, ∅, false⟩)
  | .set f events => .ok (s.set f events)
  | .remove f => .ok (s.remove f)
  | .process f events => .ok (s.process f events)
  | .subproc f => .ok (s.subproc f)
  | .dispatch =>
    match s.listPending with
    | [] => .ok s
    | f :: rest => .ok ({ s with listPending := rest }.put f ⟨(s.fde f).mask, ∅, false⟩)

/-- A callback is called with wanted events, and no wanted event is lost by a change of the mask. -/
def Honoured (s : Loop) : Op → Prop
  | .set f events => (s.fde f).pending = true →
      (s.fde f).events ∩ events ⊆ ((s.set f events).fde f).events
  | .subproc f => ¬ (s.fde f).pending = true → (s.fde f).events ∪ {FDE_READ} ⊆ (s.fde f).mask
  | .dispatch => ∀ f ∈ s.listPending.head?, (s.fde f).pending = true →
      (s.fde f).events ⊆ (s.fde f).mask
  | _ => True

instance : ∀ (s : Loop) (op : Op), Decidable (Honoured s op)
  | s, .set f _ => inferInstanceAs (Decidable ((s.fde f).pending = true → _))
  | s, .subproc f => inferInstanceAs (Decidable (¬ (s.fde f).pending = true → _))
  | s, .dispatch => inferInstanceAs (Decidable (∀ f ∈ s.listPending.head?, _))
  | _, .install _ | _, .remove _ | _, .process .. => inferInstanceAs (Decidable True)

def Linked (s : Loop) : Prop := ∀ f, f ∈ s.listPending ↔ (s.fde f).pending = true

/-! ## When masks are honoured -/

/-- The fdevents that have an event outside of their mask: those whose mask was changed while they
were pending, and those with a read that was faked or added and that they did not want. -/
def stale (s : Loop) (old : Finset Nat) : Op → Finset Nat
  | .set f events => if (s.fde f).pending ∧ (s.fde f).mask ≠ events then insert f old else old
  | .process f events => if events ⊆ (s.fde f).mask then old else insert f old
  | .subproc f => if (s.fde f).pending ∧ FDE_READ ∉ (s.fde f).mask then insert f old else old
  | .remove f => old.erase f
  | _ => old

/-- A pending fdevent is not installed, its mask is changed only to events that it has not, a
subprocess that ends is waited for with a read, and a stale fdevent is removed before its turn. -/
def CarefulAt (s : Loop) (old : Finset Nat) : Op → Prop
  | .install f => ¬ (s.fde f).pending = true
  | .set f events => (s.fde f).pending = true → (s.fde f).mask ≠ events →
      Disjoint (s.fde f).events events
  | .subproc f => ¬ (s.fde f).pending = true → FDE_READ ∈ (s.fde f).mask
  | .dispatch => ∀ f ∈ s.listPending.head?, f ∉ old
  | _ => True

def Careful : Finset Nat → Loop → List Op → Prop
  | _, _, [] => True
  | old, s, op :: ops => CarefulAt s old op ∧
      ∀ s', step s op = .ok s' → Careful (stale s old op) s' ops

/-- The state of every fdevent, with the ones that have an event outside of their mask. -/
structure Tracked (s : Loop) (old : Finset Nat) : Prop where
  nodup : s.listPending.Nodup
  linked : Linked s
  pending_iff : ∀ f, (s.fde f).pending = true ↔ (s.fde f).events ≠ ∅
  old_iff : ∀ f, f ∈ old ↔ ¬ (s.fde f).events ⊆ (s.fde f).mask

variable {s s' : Loop} {old old' : Finset Nat} {f : Nat} {x : Fdevent} {list : List Nat}
  {events : Events}

theorem put_self (s : Loop) (f : Nat) (x : Fdevent) : (s.put f x).fde f = x :=
  Function.update_self ..

/-- A change to one fdevent and its place in the list. -/
theorem Tracked.put (h : Tracked s old) (hnodup : list.Nodup)
    (hlist : ∀ g ≠ f, g ∈ list ↔ g ∈ s.listPending) (hf : f ∈ list ↔ x.pending = true)
    (hx : x.pending = true ↔ x.events ≠ ∅) (hold : ∀ g ≠ f, g ∈ old' ↔ g ∈ old)
    (hfold : f ∈ old' ↔ ¬ x.events ⊆ x.mask) :
    Tracked ({ s with listPending := list }.put f x) old' := by
  have hself := put_self { s with listPending := list } f x
  have hother : ∀ g ≠ f, ({ s with listPending := list }.put f x).fde g = s.fde g :=
    fun g hg => Function.update_of_ne hg ..
  refine ⟨hnodup, fun g => ?_, fun g => ?_, fun g => ?_⟩
  · by_cases hg : g = f
    · rw [hg, hself]
      exact hf
    · rw [hother g hg]
      exact (hlist g hg).trans (h.linked g)
  · by_cases hg : g = f
    · rw [hg, hself]
      exact hx
    · rw [hother g hg]
      exact h.pending_iff g
  · by_cases hg : g = f
    · rw [hg, hself]
      exact hfold
    · rw [hother g hg]
      exact (hold g hg).trans (h.old_iff g)

/-- Without events nothing is outside of a mask. -/
theorem Tracked.idle (h : Tracked s old) (hf : ¬ (s.fde f).pending = true) :
    (s.fde f).events = ∅ ∧ f ∉ s.listPending ∧ f ∉ old := by
  have hnone : (s.fde f).events = ∅ := by_contra fun hne => hf ((h.pending_iff f).mpr hne)
  refine ⟨hnone, fun hmem => hf ((h.linked f).mp hmem), fun hmem => (h.old_iff f).mp hmem ?_⟩
  rw [hnone]
  exact empty_subset _

/-- An fdevent that is installed in the list is in it without being pending. -/
theorem Tracked.idle_of_linked (h : Tracked s old) (hl : Linked (s.put f ⟨∅, ∅, false⟩)) :
    ¬ (s.fde f).pending = true := by
  intro hp
  have hbit := (hl f).mp ((h.linked f).mpr hp)
  rw [put_self] at hbit
  cases hbit

/-- A change of the mask keeps the wanted events only where there are none. -/
theorem Tracked.honoured_iff (h : Tracked s old) {op : Op}
    (hnew : ∀ f, op = .install f → ¬ (s.fde f).pending = true) :
    Honoured s op ↔ CarefulAt s old op := by
  cases op with
  | set f events =>
    refine imp_congr_right fun hp => ?_
    by_cases hm : (s.fde f).mask = events
    · have hsame : s.set f events = s := if_pos hm
      rw [hsame]
      exact iff_of_true inter_subset_left fun hne => absurd hm hne
    · have hevents : ((s.set f events).fde f).events = (s.fde f).events \ events := by
        unfold Loop.set
        simp only [if_neg hm, if_pos hp]
        split
        · rename_i hnone
          rw [hnone, put_self]
        · rw [put_self]
      rw [hevents, imp_iff_right hm, disjoint_left]
      constructor
      · intro hsub e he hmem
        exact (mem_sdiff.mp (hsub (mem_inter.mpr ⟨he, hmem⟩))).2 hmem
      · intro hdis e he
        obtain ⟨he, hmem⟩ := mem_inter.mp he
        exact absurd hmem (hdis he)
  | subproc f =>
    refine imp_congr_right fun hp => ?_
    rw [(h.idle hp).1, empty_union, singleton_subset_iff]
  | dispatch =>
    refine forall_congr' fun f => imp_congr_right fun hf => ?_
    have hp := (h.linked f).mp (List.mem_of_mem_head? hf)
    rw [imp_iff_right hp, h.old_iff, not_not]
  | install f => exact iff_of_true trivial (hnew f rfl)
  | remove f => rfl
  | process f events => rfl

/-! ## The steps -/

theorem Tracked.install (h : Tracked s old) (hp : ¬ (s.fde f).pending = true) :
    Tracked (s.put f ⟨∅, ∅, false⟩) old := by
  obtain ⟨-, hlist, hold⟩ := h.idle hp
  exact h.put h.nodup (fun _ _ => Iff.rfl) (by simp [hlist]) (by simp) (fun _ _ => Iff.rfl)
    (by simp [hold])

theorem Tracked.set (h : Tracked s old) (hop : CarefulAt s old (.set f events)) :
    Tracked (s.set f events) (stale s old (.set f events)) := by
  by_cases hm : (s.fde f).mask = events
  · simp only [Loop.set, stale, hm, ne_eq, not_true_eq_false, and_false, if_true, if_false]
    exact h
  by_cases hp : (s.fde f).pending = true
  · have hdis : (s.fde f).events \ events = (s.fde f).events :=
      sdiff_eq_self_of_disjoint (hop hp hm)
    have hne := (h.pending_iff f).mp hp
    simp only [Loop.set, stale, hm, hp, hdis, hne, ne_eq, not_false_eq_true, and_self, if_true,
      if_false]
    refine h.put h.nodup (fun _ _ => Iff.rfl) (by simp [h.linked f, hp]) (by simp [hne])
      (fun g hg => by simp [hg]) (iff_of_true (mem_insert_self ..) fun hsub => ?_)
    obtain ⟨e, he⟩ := nonempty_iff_ne_empty.mpr hne
    exact disjoint_left.mp (hop hp hm) he (hsub he)
  · obtain ⟨hnone, hlist, hold⟩ := h.idle hp
    simp only [Loop.set, stale, hm, hp, if_false]
    exact h.put h.nodup (fun _ _ => Iff.rfl) (by simp [hlist]) (by simp [hnone])
      (fun _ _ => Iff.rfl) (by simp [hold, hnone])

theorem Tracked.remove (h : Tracked s old) (f : Nat) : Tracked (s.remove f) (old.erase f) := by
  have hremove : s.remove f =
      { s with listPending := s.listPending.erase f }.put f ⟨∅, ∅, false⟩ := by
    unfold Loop.remove
    split
    · rfl
    · rename_i hp
      rw [List.erase_of_not_mem (h.idle hp).2.1]
  rw [hremove]
  exact h.put (h.nodup.erase f) (fun g hg => List.mem_erase_of_ne hg)
    (by simp [h.nodup.not_mem_erase]) (by simp) (fun g hg => by simp [hg]) (by simp)

/-- Events that are added to an fdevent make it stale exactly if it does not want all of them. -/
theorem Tracked.mem_stale (h : Tracked s old) (f : Nat) (events : Events) :
    (∀ g ≠ f, g ∈ stale s old (.process f events) ↔ g ∈ old) ∧
      (f ∈ stale s old (.process f events) ↔ ¬ (s.fde f).events ∪ events ⊆ (s.fde f).mask) := by
  rw [union_subset_iff, not_and_or, ← h.old_iff f]
  by_cases hsub : events ⊆ (s.fde f).mask
  · simp [stale, hsub]
  · simp only [stale, hsub, if_false, not_false_eq_true, or_true, iff_true]
    exact ⟨fun g hg => by simp [hg], mem_insert_self ..⟩

theorem Tracked.process (h : Tracked s old) (f : Nat) (events : Events) :
    Tracked (s.process f events) (stale s old (.process f events)) := by
  obtain ⟨hold, hfold⟩ := h.mem_stale f events
  unfold Loop.process
  by_cases he : events = ∅
  · simp only [he, if_true]
    simpa [stale] using h
  have hne : (s.fde f).events ∪ events ≠ ∅ :=
    fun hnone => he (union_eq_empty.mp hnone).2
  by_cases hp : (s.fde f).pending = true
  · simp only [he, hp, if_true, if_false]
    exact h.put h.nodup (fun _ _ => Iff.rfl) (by simp [h.linked f, hp]) (by simp [hne]) hold hfold
  · obtain ⟨-, hlist, -⟩ := h.idle hp
    simp only [he, hp, if_false]
    exact h.put (List.nodup_append.mpr ⟨h.nodup, List.nodup_singleton f, by
        intro a ha b hb
        rw [List.mem_singleton.mp hb]
        exact ne_of_mem_of_not_mem ha hlist⟩)
      (fun g hg => by simp [hg]) (by simp) (by simp [hne]) hold hfold

/-- A pending fdevent is told of the read like one that `select` reports. -/
theorem Tracked.subproc (h : Tracked s old) (f : Nat) :
    Tracked (s.subproc f) (stale s old (.subproc f)) := by
  unfold Loop.subproc
  by_cases hp : (s.fde f).pending = true
  · have hprocess := h.process f {FDE_READ}
    simp only [Loop.process, stale, singleton_ne_empty, hp, singleton_subset_iff, if_true,
      if_false] at hprocess
    simp only [stale, hp, true_and, if_true, ite_not]
    exact hprocess
  · obtain ⟨-, hlist, hold⟩ := h.idle hp
    simp only [stale, hp]
    exact h.put h.nodup (fun _ _ => Iff.rfl) (by simp [hlist]) (by simp) (fun _ _ => Iff.rfl)
      (by simp [hold])

theorem Tracked.dispatch (h : Tracked s old) {rest : List Nat} (hlist : s.listPending = f :: rest)
    (hold : f ∉ old) :
    Tracked ({ s with listPending := rest }.put f ⟨(s.fde f).mask, ∅, false⟩) old := by
  have hnodup := h.nodup
  rw [hlist, List.nodup_cons] at hnodup
  exact h.put hnodup.2 (fun g hg => by simp [hlist, hg]) (by simp [hnodup.1]) (by simp)
    (fun _ _ => Iff.rfl) (by simp [hold])

/-- A careful step keeps track of every fdevent. -/
theorem Tracked.step (h : Tracked s old) {op : Op} (hop : CarefulAt s old op)
    (hstep : Adb.step s op = .ok s') : Tracked s' (stale s old op) := by
  cases op with
  | install f =>
    cases hstep
    exact h.install hop
  | set f events =>
    cases hstep
    exact h.set hop
  | remove f =>
    cases hstep
    exact h.remove f
  | process f events =>
    cases hstep
    exact h.process f events
  | subproc f =>
    cases hstep
    exact h.subproc f
  | dispatch =>
    change (match s.listPending with | [] => _ | _ :: _ => _) = _ at hstep
    split at hstep
    · cases hstep
      exact h
    · rename_i f rest hlist
      cases hstep
      exact h.dispatch hlist (hop f (by rw [hlist]; rfl))

/-- Masks are honoured exactly in careful runs. -/
theorem masks_honoured_iff (ops : List Op) :
    Along step Honoured Loop.init ops ∧ Throughout step Linked Loop.init ops ↔
      Careful ∅ Loop.init ops := by
  suffices h : ∀ s old, Tracked s old →
      (Along step Honoured s ops ∧ Throughout step Linked s ops ↔ Careful old s ops) by
    refine h _ _ ⟨List.nodup_nil, fun f => ?_, fun f => ?_, fun f => ?_⟩
    · simp [Loop.init]
    · simp [Loop.init]
    · simp [Loop.init]
  induction ops with
  | nil => exact fun s old h => iff_of_true ⟨trivial, h.linked⟩ trivial
  | cons op ops ih =>
    intro s old h
    constructor
    · rintro ⟨⟨hop, hrest⟩, -, hlinked⟩
      have hop := (h.honoured_iff (by
        rintro f rfl
        exact h.idle_of_linked (hlinked _ rfl).first)).mp hop
      exact ⟨hop, fun s' hs' => (ih s' _ (h.step hop hs')).mp ⟨hrest s' hs', hlinked s' hs'⟩⟩
    · intro ⟨hop, hrest⟩
      have hnext := fun s' hs' => (ih s' _ (h.step hop hs')).mpr (hrest s' hs')
      have hop' := (h.honoured_iff (by rintro f rfl; exact hop)).mpr hop
      exact ⟨⟨hop', fun s' hs' => (hnext s' hs').1⟩, h.linked, fun s' hs' => (hnext s' hs').2⟩

/-- An fdevent that waits for both is told of a read and a write, and then `fdevent_del` takes the
read from its mask: it is called for the read. -/
theorem unwanted_read_delivered :
    ¬ Along step Honoured Loop.init [.install 0, .set 0 {0, 1}, .process 0 {0, 1}, .set 0 {1}] ∧
    ∃ s, run step Loop.init [.install 0, .set 0 {0, 1}, .process 0 {0, 1}, .set 0 {1}] = .ok s ∧
      s.listPending = [0] ∧ (s.fde 0).events = {0} ∧ (s.fde 0).mask = {1} := by
  refine ⟨by decide, _, rfl, ?_⟩
  decide

end SystemCore.Adb
