import Mathlib.Data.List.Nodup
import SystemCore.Lib.Lines
import SystemCore.Leproperties.PropertyList

/-!
# Property triggers

When a property changes, `queue_property_triggers` queues the actions that wait for it. The trigger of
the changed property is compared with the arguments of the call; the other ones are looked up, and
there an empty value counts as no value. An action that also waits for an empty property is then
queued only if that property is the one that changes.
-/
namespace SystemCore.Init

open Lib.Lines List
open Leproperties (PROP_NAME_MAX)

abbrev Text := List UInt8

/-- The properties that exist, with their values. -/
structure PropertyStore where
  value : Text → Option Text
  /-- `property_set` refuses other names. -/
  named : ∀ name v, value name = some v → 0 < name.length ∧ name.length < PROP_NAME_MAX

/-- `property_get`; what it returns is the length. -/
def PropertyStore.get (store : PropertyStore) (name : Text) : Text := (store.value name).getD []

/-- The characters `property:`. -/
def propertyColon : Text := [112, 114, 111, 112, 101, 114, 116, 121, 58]

/-- The character `=`. -/
def equals : UInt8 := 61

/-- The value `*`. -/
def anyValue : Text := [42]

structure Action where
  /-- The address, in the queue. -/
  addr : Nat
  /-- The names of the triggers. -/
  triggers : List Text

/-- The comparison with the arguments of the call. -/
def isChange (name value test : Text) : Bool :=
  test.take name.length = name && test[name.length]? = some equals &&
    (test.drop (name.length + 1) = value || test.drop (name.length + 1) = anyValue)

/-- Does the property exist, and match the trigger value? -/
def looksUp (store : PropertyStore) (test : Text) : Bool :=
  match cut equals test with
  | none => false
  | some (name, want) =>
    if name.length ≤ PROP_NAME_MAX then
      let value := store.get name
      0 < value.length && (want = value || want = anyValue)
    else false

/-- The loop over the triggers of an action; `found` is the variable `match`. -/
def matchTriggers (store : PropertyStore) (change : Option (Text × Text)) : Bool → List Text → Bool
  | found, [] => found
  | found, t :: ts =>
    if propertyColon <+: t then
      let test := t.drop propertyColon.length
      if !found && change.any (fun c => isChange c.1 c.2 test) then matchTriggers store change true ts
      else if looksUp store test then matchTriggers store change found ts
      else false
    else false

def actionAddQueueTail (addr : Nat) (queue : List Nat) : List Nat :=
  if addr ∈ queue then queue else queue ++ [addr]

/-- `queue_property_triggers`; without a name for `queue_all_property_triggers`. -/
def queuePropertyTriggers (store : PropertyStore) (change : Option (Text × Text)) (actions : List Action)
    (queue : List Nat) : List Nat :=
  actions.foldl (fun queue act =>
    if matchTriggers store change change.isNone act.triggers then actionAddQueueTail act.addr queue
    else queue) queue

/-! ## What a trigger asks for -/

/-- A trigger `property:name=want`. -/
structure Condition where
  name : Text
  want : Text
  noEquals : equals ∉ name

def Condition.trigger (c : Condition) : Text := propertyColon ++ (c.name ++ equals :: c.want)

def Condition.Accepts (c : Condition) (v : Text) : Prop := c.want = v ∨ c.want = anyValue

def Condition.Satisfied (store : PropertyStore) (c : Condition) : Prop :=
  ∃ v, store.value c.name = some v ∧ c.Accepts v

section
variable {store : PropertyStore} {name value : Text} (change : Option (Text × Text))

theorem isChange_iff (hname : equals ∉ name) (c : Condition) :
    isChange name value (c.name ++ equals :: c.want) = true ↔ c.name = name ∧ c.Accepts value := by
  have hcut := cut_append c.noEquals c.want
  simp only [isChange, Bool.and_eq_true, Bool.or_eq_true, decide_eq_true_iff]
  constructor
  · rintro ⟨⟨htake, hget⟩, hvalue⟩
    generalize htest : c.name ++ equals :: c.want = test at *
    -- Both decompositions are at the first `=`.
    have hsplit : test = name ++ equals :: test.drop (name.length + 1) := by
      obtain ⟨hlt, heq⟩ := List.getElem?_eq_some_iff.mp hget
      rw [← heq, getElem_cons_drop, ← htake, length_take, Nat.min_eq_left (Nat.le_of_lt hlt),
        take_append_drop]
    rw [hsplit, cut_append hname] at hcut
    obtain ⟨hsame, hwant⟩ := Prod.mk.inj (Option.some.inj hcut)
    rw [hwant] at hvalue
    exact ⟨hsame.symm, hvalue⟩
  · rintro ⟨rfl, hvalue⟩
    have hdrop : (c.name ++ equals :: c.want).drop (c.name.length + 1) = c.want := by
      rw [drop_append, Nat.add_sub_cancel_left]
      simp
    rw [hdrop]
    exact ⟨⟨take_left, by simp⟩, hvalue⟩

/-- The lookup asks for more than that the condition is satisfied. -/
theorem looksUp_iff (c : Condition) :
    looksUp store (c.name ++ equals :: c.want) = true ↔
      c.Satisfied store ∧ store.value c.name ≠ some [] := by
  rw [looksUp, cut_append c.noEquals]
  cases hvalue : store.value c.name with
  | none => simp [PropertyStore.get, Condition.Satisfied, hvalue]
  | some v =>
    have hshort := (store.named c.name v hvalue).2
    simp only [PropertyStore.get, hvalue, Option.getD_some, Nat.le_of_lt hshort, if_true,
      Bool.and_eq_true, Bool.or_eq_true, decide_eq_true_iff, Condition.Satisfied, Condition.Accepts,
      Option.some.injEq, exists_eq_left', length_pos_iff, ne_eq]
    exact and_comm

/-- One round of the loop, at a trigger of the form. -/
theorem matchTriggers_cons (found : Bool) (c : Condition) (ts : List Text) :
    matchTriggers store change found (c.trigger :: ts) =
      if !found && change.any (fun p => isChange p.1 p.2 (c.name ++ equals :: c.want)) then
        matchTriggers store change true ts
      else if looksUp store (c.name ++ equals :: c.want) then matchTriggers store change found ts
      else false := by
  have hform : propertyColon <+: c.trigger := prefix_append _ _
  rw [matchTriggers, if_pos hform, Condition.trigger, drop_left]

/-- Once the change is found, every other trigger is looked up. -/
theorem matchTriggers_found (cs : List Condition) :
    matchTriggers store change true (cs.map Condition.trigger) = true ↔
      ∀ c ∈ cs, c.Satisfied store ∧ store.value c.name ≠ some [] := by
  induction cs with
  | nil => simp [matchTriggers]
  | cons c cs ih =>
    rw [map_cons, matchTriggers_cons, forall_mem_cons, ← looksUp_iff, ← ih]
    by_cases hc : looksUp store (c.name ++ equals :: c.want) = true <;> simp [hc]

/-- Until then, the trigger of the changed property has to come. -/
theorem matchTriggers_change {cs : List Condition} (hnodup : (cs.map Condition.name).Nodup)
    (hname : equals ∉ name) (hvalue : store.value name = some value) :
    matchTriggers store (some (name, value)) false (cs.map Condition.trigger) = true ↔
      (∃ c ∈ cs, c.name = name) ∧
        ∀ c ∈ cs, c.Satisfied store ∧ (c.name ≠ name → store.value c.name ≠ some []) := by
  induction cs with
  | nil => simp [matchTriggers]
  | cons c cs ih =>
    obtain ⟨hnotMem, hrest⟩ := nodup_cons.mp hnodup
    have hchange := @isChange_iff name value hname c
    rw [map_cons, matchTriggers_cons, forall_mem_cons, Option.any_some, Bool.not_false,
      Bool.true_and]
    by_cases hc : c.name = name
    · -- Here the property changes; no other trigger has its name.
      have hothers : ∀ c' ∈ cs, c'.name ≠ name := fun c' hc' heq =>
        hnotMem (mem_map.mpr ⟨c', hc', heq.trans hc.symm⟩)
      have hsat : c.Satisfied store ↔ c.Accepts value := by
        simp [Condition.Satisfied, hc, hvalue]
      have hfound : matchTriggers store (some (name, value)) true (cs.map Condition.trigger) = true ↔
          ∀ c' ∈ cs, c'.Satisfied store ∧ (c'.name ≠ name → store.value c'.name ≠ some []) := by
        rw [matchTriggers_found]
        exact forall₂_congr fun c' hc' => by simp [hothers c' hc']
      by_cases hok : c.Accepts value
      · rw [if_pos (hchange.mpr ⟨hc, hok⟩), hfound]
        simp [hc, hsat, hok]
      · have hlook : ¬looksUp store (c.name ++ equals :: c.want) = true := by
          rw [looksUp_iff, hsat]
          exact fun h => hok h.1
        rw [if_neg fun h => hok (hchange.mp h).2, if_neg hlook]
        simp [hsat, hok]
    · rw [if_neg fun h => hc (hchange.mp h).1]
      by_cases hlook : looksUp store (c.name ++ equals :: c.want) = true
      · rw [if_pos hlook, ih hrest]
        rw [looksUp_iff] at hlook
        simp [hc, hlook]
      · rw [if_neg hlook]
        rw [looksUp_iff] at hlook
        simp only [Bool.false_eq_true, false_iff]
        exact fun h => hlook ⟨h.2.1.1, h.2.1.2 hc⟩

end

/-! ## The queue -/

theorem mem_queuePropertyTriggers (store : PropertyStore) (change : Option (Text × Text))
    (actions : List Action) (queue : List Nat) (addr : Nat) :
    addr ∈ queuePropertyTriggers store change actions queue ↔
      addr ∈ queue ∨
        ∃ act ∈ actions, act.addr = addr ∧ matchTriggers store change change.isNone act.triggers = true := by
  rw [queuePropertyTriggers]
  induction actions generalizing queue with
  | nil => simp
  | cons act actions ih =>
    rw [foldl_cons, ih, exists_mem_cons_iff]
    have hadd : addr ∈ actionAddQueueTail act.addr queue ↔ addr ∈ queue ∨ act.addr = addr := by
      rw [actionAddQueueTail]
      split
      case isTrue hmem => exact ⟨Or.inl, fun h => h.elim id fun heq => heq ▸ hmem⟩
      case isFalse => rw [mem_append, mem_singleton, eq_comm]
    by_cases hmatch : matchTriggers store change change.isNone act.triggers = true
    · rw [if_pos hmatch, hadd]
      simp [hmatch, or_assoc]
    · rw [if_neg hmatch]
      simp [hmatch]

/-- A change queues an action that waits for it exactly if all of its triggers are satisfied, but for
the actions with another trigger on an empty property. -/
theorem queue_property_triggers_any_order (store : PropertyStore) (actions : List Action) (act : Action)
    (queue : List Nat) (conditions : List Condition) (c : Condition) {v : Text}
    (hdistinct : (actions.map Action.addr).Nodup) (hact : act ∈ actions)
    (htriggers : act.triggers = conditions.map Condition.trigger)
    (hnames : (conditions.map Condition.name).Nodup) (hc : c ∈ conditions)
    (hvalue : store.value c.name = some v) :
    (act.addr ∈ queuePropertyTriggers store (some (c.name, v)) actions queue ↔
      act.addr ∈ queue ∨ ∀ c' ∈ conditions, c'.Satisfied store) ↔
    act.addr ∈ queue ∨ ¬((∀ c' ∈ conditions, c'.Satisfied store) ∧
      ∃ c' ∈ conditions, c'.name ≠ c.name ∧ store.value c'.name = some []) := by
  have hself : (∃ a ∈ actions, a.addr = act.addr ∧
      matchTriggers store (some (c.name, v)) false a.triggers = true) ↔
      matchTriggers store (some (c.name, v)) false act.triggers = true := by
    constructor
    · rintro ⟨a, ha, haddr, hmatch⟩
      rwa [← inj_on_of_nodup_map hdistinct ha hact haddr]
    · exact fun hmatch => ⟨act, hact, rfl, hmatch⟩
  rw [mem_queuePropertyTriggers, Option.isNone_some, hself, htriggers,
    matchTriggers_change hnames c.noEquals hvalue, and_iff_right ⟨c, hc, rfl⟩]
  by_cases hqueue : act.addr ∈ queue
  · simp [hqueue]
  · simp only [hqueue, false_or, forall_and, not_and, not_exists]
    constructor
    · exact fun h hall c' hc' hne => (h.mpr hall).2 c' hc' hne
    · exact fun h => ⟨fun hall => hall.1, fun hall => ⟨hall, fun c' hc' hne => h hall c' hc' hne⟩⟩

/-- Properties `a`, which is empty, and `b`. -/
def emptyAndSet : PropertyStore where
  value name := if name = [97] then some [] else if name = [98] then some [49] else none
  named name v h := by
    split_ifs at h with ha hb
    · exact ha ▸ ⟨by decide, by decide⟩
    · exact hb ▸ ⟨by decide, by decide⟩

/-- `property:a= && property:b=1` waits for both: the change of `b` does not queue it, that of `a`
does. -/
theorem change_with_empty_property_ignored :
    (∀ c ∈ [⟨[97], [], by decide⟩, ⟨[98], [49], by decide⟩], Condition.Satisfied emptyAndSet c) ∧
      queuePropertyTriggers emptyAndSet (some ([98], [49]))
        [⟨1, [propertyColon ++ [97, 61], propertyColon ++ [98, 61, 49]]⟩] [] = [] ∧
      queuePropertyTriggers emptyAndSet (some ([97], []))
        [⟨1, [propertyColon ++ [97, 61], propertyColon ++ [98, 61, 49]]⟩] [] = [1] := by
  refine ⟨?_, by decide, by decide⟩
  simp [Condition.Satisfied, Condition.Accepts, emptyAndSet]

theorem change_of_only_property_queued :
    1 ∈ queuePropertyTriggers emptyAndSet (some ([98], [49])) [⟨1, [propertyColon ++ [98, 61, 49]]⟩] [] := by
  have h := queue_property_triggers_any_order emptyAndSet [⟨1, [propertyColon ++ [98, 61, 49]]⟩]
    ⟨1, [propertyColon ++ [98, 61, 49]]⟩ [] [⟨[98], [49], by decide⟩] ⟨[98], [49], by decide⟩
    (by decide) (mem_singleton_self _) rfl (by decide) (mem_singleton_self _)
    (show emptyAndSet.value [98] = some [49] by decide)
  simpa [Condition.Satisfied, Condition.Accepts, emptyAndSet] using h

end SystemCore.Init
