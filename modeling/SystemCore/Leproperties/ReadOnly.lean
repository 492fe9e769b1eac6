import SystemCore.Leproperties.PersistFile

/-!
# Read-only properties

A property whose name has the read-only prefix is to keep its value. The check for it is in the
update of the list. A line of the persist file gets past it, so the file must not have a line
with such a name. The service writes persist properties only, but a newline in one of them, or
a value with no room for the newline, makes other lines out of it.
-/
namespace SystemCore.Leproperties

open Lib Lib.Lines List PropertyDb

/-! ## Clean states -/

/-- The persist properties in the list and those in the file read back as they are. -/
structure Clean (s : Service) : Prop where
  terminated : Terminated s.db
  writable : ∀ u ∈ s.db, isPersist u.propertyName = true → Writable u
  file : ∃ nodes : List PropertyUnit, (∀ u ∈ nodes, Writable u) ∧
    s.file = (nodes.map PropertyDb.stringToWrite).flatten

/-- What a message with a persist name must keep to, in the name and the value that the service
makes of it. -/
def SafeNode (u : PropertyUnit) : Prop :=
  isPersist u.propertyName = true →
    newline ∉ u.propertyName ∧ newline ∉ u.propertyValue ∧ u.propertyValue.length ≤ 90

instance (u : PropertyUnit) : Decidable (SafeNode u) := inferInstanceAs (Decidable (_ → _))

variable {u : PropertyUnit} {s : Service} {db : PropertyDb}
  (h : Clean s) (hname : u.propertyName.length < PROP_NAME_MAX)
  (hdelimiter : delimiter ∉ u.propertyName) (hsafe : SafeNode u)

include hname hdelimiter hsafe in
/-- The new node of an update is one that reads back. -/
theorem writable_stored (hpersist : isPersist u.propertyName = true) :
    Writable ⟨u.propertyName, PropertyDb.stored u.propertyValue⟩ := by
  obtain ⟨hnew, hvalue, hlen⟩ := hsafe hpersist
  exact ⟨hpersist, hname, hdelimiter, hnew, u.propertyValue, stored_of_le hlen, hvalue, hlen⟩

include h hname hdelimiter hsafe in
theorem Clean.update :
    Clean { s with db := s.db.updatePropValue u.nameString u.propertyValue } := by
  rw [nameString_of_lt hname]
  refine ⟨terminated_updatePropValue h.terminated hname _, fun x hx hpersist => ?_, h.file⟩
  rcases mem_updatePropValue h.terminated hname hx with hx | rfl
  · exact h.writable x hx hpersist
  · exact writable_stored hname hdelimiter hsafe hpersist

include h in
theorem Clean.save : Clean s.savePersistDsToFile := by
  refine ⟨h.terminated, h.writable, s.db.filter (fun u => isPersist u.nameString), ?_, rfl⟩
  exact writable_of_persist h.terminated h.writable

/-! ## Loading -/

/-- Adding persist nodes, one step and then all. -/
theorem foldl_listAdd_keeps {nodes : List PropertyUnit} (hnodes : ∀ u ∈ nodes, Writable u)
    (h : Terminated db) (hw : ∀ u ∈ db, isPersist u.propertyName = true → Writable u) :
    Terminated (nodes.foldl (fun db u => db.listAdd u) db) ∧
      (∀ u ∈ nodes.foldl (fun db u => db.listAdd u) db,
        isPersist u.propertyName = true → Writable u) ∧
      ∀ name, isReadOnly name = true →
        (nodes.foldl (fun db u => db.listAdd u) db).lookup name = db.lookup name := by
  induction nodes generalizing db with
  | nil => exact ⟨h, hw, fun _ _ => rfl⟩
  | cons u nodes ih =>
    have hu := hnodes u mem_cons_self
    have hw' : ∀ x ∈ db.updatePropValue u.propertyName u.propertyValue.dropLast,
        isPersist x.propertyName = true → Writable x := by
      intro x hx hpersist
      rcases mem_updatePropValue h hu.name_lt hx with hx | rfl
      · exact hw x hx hpersist
      · exact hu.stored_eq.symm ▸ hu
    obtain ⟨hterm, hwritable, hro⟩ := ih (fun x hx => hnodes x (mem_cons_of_mem u hx))
      (terminated_updatePropValue h hu.name_lt _) hw'
    rw [foldl_cons, hu.listAdd_eq]
    refine ⟨hterm, hwritable, fun name hname => (hro name hname).trans ?_⟩
    rw [lookup_updatePropValue h hu.name_lt, if_neg]
    rintro rfl
    rw [isReadOnly_of_isPersist hu.persist] at hname
    cases hname

include h in
theorem Clean.load :
    Clean s.loadPersistProperties ∧
      ∀ name, isReadOnly name = true →
        s.loadPersistProperties.db.lookup name = s.db.lookup name := by
  obtain ⟨nodes, hnodes, hfile⟩ := h.file
  have hdb : s.loadPersistProperties.db = nodes.foldl (fun db u => db.listAdd u) s.db := by
    unfold Service.loadPersistProperties
    rw [hfile]
    exact searchAndAdd_records nodes hnodes s.db
  obtain ⟨hterm, hwritable, hro⟩ := foldl_listAdd_keeps hnodes h.terminated h.writable
  exact ⟨⟨hdb ▸ hterm, hdb ▸ hwritable, h.file⟩, fun name hname => hdb ▸ hro name hname⟩

/-! ## Runs -/

include h hname hdelimiter hsafe in
/-- A set message keeps the state clean and the read-only properties as they are. -/
theorem setNode_keeps :
    Clean (s.setNode u) ∧ ∀ name value, isReadOnly name = true →
      s.db.lookup name = some value → (s.setNode u).db.lookup name = some value := by
  let s₁ : Service := { s with db := s.db.updatePropValue u.nameString u.propertyValue }
  have hclean₁ : Clean s₁ := h.update hname hdelimiter hsafe
  have hkeep₁ : ∀ name value, isReadOnly name = true → s.db.lookup name = some value →
      s₁.db.lookup name = some value := by
    intro name value hro hvalue
    change (s.db.updatePropValue u.nameString u.propertyValue).lookup name = _
    rw [nameString_of_lt hname, lookup_updatePropValue h.terminated hname]
    split
    case isTrue heq =>
      rw [← heq, hvalue]
      simp [hro]
    case isFalse => exact hvalue
  obtain ⟨hload, hro⟩ := hclean₁.load
  unfold Service.setNode
  simp only []
  -- saving changes the file only
  split <;> split
  · exact ⟨hload.save.save, fun name value hname hvalue =>
      (hro name hname).trans (hkeep₁ name value hname hvalue)⟩
  · exact ⟨hload.save, fun name value hname hvalue =>
      (hro name hname).trans (hkeep₁ name value hname hvalue)⟩
  · exact ⟨hclean₁.save, hkeep₁⟩
  · exact ⟨hclean₁, hkeep₁⟩

/-- A call of `property_set`, its key and its value. -/
abbrev SetCall := List UInt8 × List UInt8

def Service.setAll (s : Service) (calls : List SetCall) : Service :=
  calls.foldl (fun s call => s.propertySet call.1 call.2) s

/-- A call that passes the length checks of `property_set` is safe in what the service makes
of it. -/
def SafeCall (call : SetCall) : Prop :=
  call.1.length < PROP_NAME_MAX → call.2.length < PROP_VALUE_MAX → SafeNode (parsed call.1 call.2)

instance (call : SetCall) : Decidable (SafeCall call) := inferInstanceAs (Decidable (_ → _))

include h in
theorem propertySet_keeps {call : SetCall} (hsafe : SafeCall call) :
    Clean (s.propertySet call.1 call.2) ∧ ∀ name value, isReadOnly name = true →
      s.db.lookup name = some value →
        (s.propertySet call.1 call.2).db.lookup name = some value := by
  by_cases hkey : call.1.length < PROP_NAME_MAX
  · by_cases hvalue : call.2.length < PROP_VALUE_MAX
    · obtain ⟨hname, hdelimiter⟩ := parsed_name hkey call.2
      rw [propertySet_eq hkey hvalue]
      exact setNode_keeps h hname hdelimiter (hsafe hkey hvalue)
    · have hnone : s.propertySet call.1 call.2 = s := by
        unfold Service.propertySet
        rw [if_neg (Nat.not_le_of_lt hkey), if_pos (Nat.le_of_not_lt hvalue)]
      rw [hnone]
      exact ⟨h, fun _ _ _ h => h⟩
  · have hnone : s.propertySet call.1 call.2 = s := if_pos (Nat.le_of_not_lt hkey)
    rw [hnone]
    exact ⟨h, fun _ _ _ h => h⟩

include h in
theorem setAll_keeps {calls : List SetCall} (hsafe : ∀ call ∈ calls, SafeCall call) :
    Clean (s.setAll calls) ∧ ∀ name value, isReadOnly name = true →
      s.db.lookup name = some value → (s.setAll calls).db.lookup name = some value := by
  induction calls generalizing s with
  | nil => exact ⟨h, fun _ _ _ h => h⟩
  | cons call calls ih =>
    obtain ⟨hclean, hkeep⟩ := propertySet_keeps h (hsafe call mem_cons_self)
    obtain ⟨hclean', hkeep'⟩ := ih hclean fun c hc => hsafe c (mem_cons_of_mem call hc)
    exact ⟨hclean', fun name value hro hvalue => hkeep' name value hro (hkeep name value hro hvalue)⟩

/-- In a run from a clean state whose calls are safe, the value of a read-only property never
changes once the property is in the list. -/
theorem read_only_immutable (s : Service) (hs : Clean s) (before later : List SetCall)
    (hsafe : ∀ call ∈ before ++ later, SafeCall call) (name value : List UInt8)
    (hro : isReadOnly name = true) (hvalue : (s.setAll before).db.lookup name = some value) :
    (s.setAll (before ++ later)).db.lookup name = some value := by
  have hbefore := (setAll_keeps hs fun c hc => hsafe c (mem_append_left later hc)).1
  have hlater := (setAll_keeps hbefore fun c hc => hsafe c (mem_append_right before hc)).2
  unfold Service.setAll at *
  rw [foldl_append]
  exact hlater name value hro hvalue

def Service.empty : Service := ⟨[], false, []⟩

theorem clean_empty : Clean Service.empty where
  terminated := fun _ h => absurd h not_mem_nil
  writable := fun _ h => absurd h not_mem_nil
  file := ⟨[], fun _ h => absurd h not_mem_nil, rfl⟩

def roName : List UInt8 := roPrefix ++ ascii "b"

/-- The read-only property and a persist property, before the file is enabled. -/
def setBoth (persistValue : List UInt8) : List SetCall :=
  [(roName, ascii "1"), (persistKey, persistValue), (enableName, enableValue)]

/-- The file is enabled again, and another value is tried. -/
theorem read_only_immutable_reload :
    (Service.empty.setAll (setBoth (ascii "y") ++
      [(enableName, enableValue), (roName, ascii "2")])).db.lookup roName =
        some (ascii "1" ++ [newline]) :=
  read_only_immutable Service.empty clean_empty (setBoth (ascii "y"))
    [(enableName, enableValue), (roName, ascii "2")] (by decide +kernel) roName _
    (by decide +kernel) (by decide +kernel)

/-- A value with a newline becomes two lines of the file. When the file is loaded again, the
second line sets the read-only property. -/
theorem read_only_overwritten :
    (Service.empty.setAll
      (setBoth (ascii "y\n" ++ roName ++ ascii "=2"))).db.lookup roName =
        some (ascii "1" ++ [newline]) ∧
    (Service.empty.setAll (setBoth (ascii "y\n" ++ roName ++ ascii "=2") ++
      [(enableName, enableValue)])).db.lookup roName = some (ascii "2" ++ [newline]) ∧
    ∀ call ∈ setBoth (ascii "y\n" ++ roName ++ ascii "=2") ++
      [(enableName, enableValue)],
      call.1.length < PROP_NAME_MAX ∧ call.2.length < PROP_VALUE_MAX := by
  decide +kernel

end SystemCore.Leproperties
