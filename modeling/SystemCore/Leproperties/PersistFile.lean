import SystemCore.Leproperties.PropertyService

/-!
# The list and the persist file

What each operation on the list does to the value of a name, as long as every name in the list
has its terminator. And the file: when the nodes that are written have no newline but the one
at the end of the value, the lines that are read are the nodes that were written.
-/
namespace SystemCore.Leproperties

open Lib Lib.Lines List

/-! ## Values by name -/

def Terminated (db : PropertyDb) : Prop := ∀ u ∈ db, u.propertyName.length < PROP_NAME_MAX

variable {u : PropertyUnit} {key value : List UInt8}

theorem nameString_of_lt (h : u.propertyName.length < PROP_NAME_MAX) :
    u.nameString = u.propertyName :=
  if_pos h

namespace PropertyDb

variable {db : PropertyDb} {name value k : List UInt8} {u : PropertyUnit}

/-- The value of a name, with its newline. -/
def lookup (name : List UInt8) (db : PropertyDb) : Option (List UInt8) :=
  (listMatchesPropName name db).map (·.propertyValue)

theorem lookup_cons (u : PropertyUnit) (db : PropertyDb) (k : List UInt8) :
    lookup k (u :: db) = if u.nameString = k then some u.propertyValue else lookup k db := by
  unfold lookup listMatchesPropName
  by_cases h : u.nameString = k <;> simp [h]

theorem lookup_append_singleton (db : PropertyDb) (u : PropertyUnit) (k : List UInt8) :
    lookup k (db ++ [u]) =
      (lookup k db).or (if u.nameString = k then some u.propertyValue else none) := by
  induction db with
  | nil => simp [lookup, listMatchesPropName]
  | cons x db ih =>
    rw [cons_append, lookup_cons, lookup_cons, ih]
    split <;> simp

theorem lookup_setValue (h : Terminated db) (name value k : List UInt8) :
    lookup k (setValue name value db) =
      if k = name then (lookup name db).map fun _ => value else lookup k db := by
  induction db with
  | nil => simp [setValue, lookup, listMatchesPropName]
  | cons u db ih =>
    have hu := h u mem_cons_self
    have hrest := ih fun x hx => h x (mem_cons_of_mem u hx)
    unfold setValue
    split
    case isTrue hname =>
      have hset : ({ u with propertyValue := value } : PropertyUnit).nameString = name :=
        (if_pos hu).trans ((nameString_of_lt hu).symm.trans hname)
      rw [lookup_cons, lookup_cons, lookup_cons, hset, hname]
      by_cases hk : k = name
      · simp [hk]
      · simp [hk, Ne.symm hk]
    case isFalse hname =>
      rw [lookup_cons, hrest, lookup_cons, lookup_cons, if_neg hname]
      by_cases hk : k = name
      · simp [hk, hname]
      · simp [hk]

theorem map_name_setValue (name value : List UInt8) (db : PropertyDb) :
    (setValue name value db).map (·.propertyName) = db.map (·.propertyName) := by
  induction db with
  | nil => rfl
  | cons u db ih =>
    unfold setValue
    split
    · rfl
    · rw [map_cons, map_cons, ih]

theorem Terminated.of_names {db' : PropertyDb} (h : Terminated db)
    (hnames : db'.map (·.propertyName) = db.map (·.propertyName)) : Terminated db' := by
  intro u hu
  have hmem : u.propertyName ∈ db.map (·.propertyName) := hnames ▸ mem_map_of_mem hu
  obtain ⟨x, hx, hname⟩ := mem_map.mp hmem
  exact hname ▸ h x hx

theorem lookup_eq_none_iff : lookup k db = none ↔ ∀ u ∈ db, u.nameString ≠ k := by
  simp [lookup, listMatchesPropName]

theorem match_lookup (k : List UInt8) (db : PropertyDb) :
    lookup k db = none ↔ listMatchesPropName k db = none := by
  simp [lookup]

/-- What adding a node does, the case of the empty list included. -/
theorem listAdd_eq (u : PropertyUnit) (db : PropertyDb) :
    listAdd u db = match lookup u.nameString db with
      | none => db ++ [u]
      | some _ => setValue u.nameString (strlcpy PROP_VALUE_MAX u.propertyValue) db := by
  unfold listAdd lookup
  cases db with
  | nil => rfl
  | cons x db => cases hm : listMatchesPropName u.nameString (x :: db) <;> simp

/-- The value as it is stored: with the newline, if there is room. -/
def stored (value : List UInt8) : List UInt8 := strlcpy PROP_VALUE_MAX (withNewline value)

theorem stored_of_le (h : value.length ≤ 90) : stored value = value ++ [newline] := by
  unfold stored withNewline strlcpy PROP_VALUE_MAX
  rw [take_of_length_le (l := value) (by omega), take_of_length_le (by simp; omega)]

theorem updatePropValue_eq (hname : name.length < PROP_NAME_MAX) (value : List UInt8)
    (db : PropertyDb) :
    updatePropValue name value db = match lookup name db with
      | none => db ++ [⟨name, stored value⟩]
      | some _ => if isReadOnly name then db else setValue name (stored value) db := by
  have hcopy : strlcpy PROP_NAME_MAX name = name := take_of_length_le (by omega)
  have hstr : (⟨name, stored value⟩ : PropertyUnit).nameString = name := nameString_of_lt hname
  unfold updatePropValue
  cases hm : listMatchesPropName name db with
  | some u => simp [lookup, hm, stored]
  | none =>
    have hnone : lookup name db = none := (match_lookup name db).mpr hm
    have hadd : createListAndAdd name (withNewline value) db =
        listAdd ⟨name, stored value⟩ db := by
      rw [createListAndAdd, hcopy]
      rfl
    simp only [hadd, listAdd_eq, hstr, hnone]

theorem lookup_updatePropValue (h : Terminated db) (hname : name.length < PROP_NAME_MAX)
    (value k : List UInt8) :
    lookup k (updatePropValue name value db) =
      if k = name then
        if isReadOnly name = true ∧ (lookup name db).isSome then lookup name db
        else some (stored value)
      else lookup k db := by
  have hstr : (⟨name, stored value⟩ : PropertyUnit).nameString = name := nameString_of_lt hname
  rw [updatePropValue_eq hname]
  cases hl : lookup name db with
  | none =>
    rw [lookup_append_singleton, hstr]
    by_cases hk : k = name
    · simp [hk, hl]
    · simp [hk, Ne.symm hk]
  | some old =>
    cases hro : isReadOnly name with
    | true =>
      by_cases hk : k = name
      · simp [hk, hl]
      · simp [hk]
    | false =>
      simp only [Bool.false_eq_true, if_false, lookup_setValue h, hl, Option.map_some, false_and]

theorem terminated_updatePropValue (h : Terminated db) (hname : name.length < PROP_NAME_MAX)
    (value : List UInt8) : Terminated (updatePropValue name value db) := by
  rw [updatePropValue_eq hname]
  split
  · intro x hx
    rcases mem_append.mp hx with hx | hx
    · exact h x hx
    · exact mem_singleton.mp hx ▸ hname
  · split
    · exact h
    · exact Terminated.of_names h (map_name_setValue _ _ _)

theorem mem_setValue (hu : u ∈ setValue name value db) :
    u ∈ db ∨ ∃ x ∈ db, x.nameString = name ∧ u = { x with propertyValue := value } := by
  induction db with
  | nil => cases hu
  | cons x db ih =>
    unfold setValue at hu
    split at hu
    case isTrue hx =>
      rcases mem_cons.mp hu with rfl | hu
      · exact .inr ⟨x, mem_cons_self, hx, rfl⟩
      · exact .inl (mem_cons_of_mem x hu)
    case isFalse =>
      rcases mem_cons.mp hu with rfl | hu
      · exact .inl mem_cons_self
      · rcases ih hu with hu | ⟨y, hy, hrest⟩
        · exact .inl (mem_cons_of_mem x hu)
        · exact .inr ⟨y, mem_cons_of_mem x hy, hrest⟩

/-- A node of the list after an update is an old one or has the new value. -/
theorem mem_updatePropValue (h : Terminated db) (hname : name.length < PROP_NAME_MAX)
    (hu : u ∈ updatePropValue name value db) : u ∈ db ∨ u = ⟨name, stored value⟩ := by
  rw [updatePropValue_eq hname] at hu
  split at hu
  · rcases mem_append.mp hu with hu | hu
    · exact .inl hu
    · exact .inr (mem_singleton.mp hu)
  · split at hu
    · exact .inl hu
    · rcases mem_setValue hu with hu | ⟨x, hx, hxname, rfl⟩
      · exact .inl hu
      · rw [nameString_of_lt (h x hx)] at hxname
        exact .inr (by rw [hxname])

end PropertyDb

/-! ## Messages -/

/-- The node that the service makes of a call of `property_set`. -/
def parsed (key value : List UInt8) : PropertyUnit := pullOneLineData (key ++ delimiter :: value)

theorem parsed_of_not_mem (hkey : delimiter ∉ key) (hlen : key.length < PROP_NAME_MAX)
    (hvalue : value.length < PROP_VALUE_MAX) : parsed key value = ⟨key, value⟩ := by
  unfold parsed pullOneLineData
  rw [cut_append hkey]
  simp only [take_of_length_le (Nat.le_of_lt hlen), take_of_length_le (Nat.le_of_lt hvalue)]

theorem cut_length_le {α : Type} [DecidableEq α] (sep : α) (key value : List α) :
    ∃ pre post, cut sep (key ++ sep :: value) = some (pre, post) ∧ pre.length ≤ key.length := by
  induction key with
  | nil => exact ⟨[], value, by simp [cut], Nat.le_refl _⟩
  | cons c key ih =>
    by_cases hc : c = sep
    · exact ⟨[], key ++ sep :: value, by simp [cut, hc], Nat.zero_le _⟩
    · obtain ⟨pre, post, hcut, hle⟩ := ih
      exact ⟨c :: pre, post, by simp [cut, hc, hcut], Nat.succ_le_succ hle⟩

/-- The name in a message has a terminator and no delimiter. -/
theorem parsed_name (hlen : key.length < PROP_NAME_MAX) (value : List UInt8) :
    (parsed key value).propertyName.length < PROP_NAME_MAX ∧
      delimiter ∉ (parsed key value).propertyName := by
  obtain ⟨pre, post, hcut, hle⟩ := cut_length_le delimiter key value
  have hpre : pre.length < PROP_NAME_MAX := Nat.lt_of_le_of_lt hle hlen
  have hname : (parsed key value).propertyName = pre := by
    unfold parsed pullOneLineData
    rw [hcut]
    exact take_of_length_le (Nat.le_of_lt hpre)
  rw [hname]
  exact ⟨hpre, (cut_spec hcut).2⟩

theorem propertySet_eq (hkey : key.length < PROP_NAME_MAX) (hvalue : value.length < PROP_VALUE_MAX)
    (s : Service) : s.propertySet key value = s.setNode (parsed key value) := by
  have hfits : Service.setMessage key value =
      PROP_MSG_SETPROP :: (key ++ delimiter :: value) := by
    refine take_of_length_le ?_
    simp only [cons_append, length_cons, length_append]
    unfold MAX_ALLOWED_LINE_LEN
    omega
  unfold Service.propertySet
  rw [if_neg (Nat.not_le_of_lt hkey), if_neg (Nat.not_le_of_lt hvalue), Service.processSetpropMsg,
    hfits]
  rfl

/-! ## The file -/

theorem isReadOnly_of_isPersist {name : List UInt8} (h : isPersist name = true) :
    isReadOnly name = false := by
  cases name with
  | nil => rfl
  | cons c name =>
    have hc : c = 112 := by
      have hfirst : ascii "persist." <+: c :: name := isPrefixOf_iff_prefix.mp h
      obtain ⟨rest, hrest⟩ := hfirst
      exact (List.cons.inj hrest).1.symm
    rw [hc]
    rfl

/-- A node that comes back from the file as it was written. -/
structure Writable (u : PropertyUnit) : Prop where
  persist : isPersist u.propertyName = true
  name_lt : u.propertyName.length < PROP_NAME_MAX
  name_delimiter : delimiter ∉ u.propertyName
  name_newline : newline ∉ u.propertyName
  value : ∃ v, u.propertyValue = v ++ [newline] ∧ newline ∉ v ∧ v.length ≤ 90

instance (u : PropertyUnit) : Decidable (Writable u) :=
  decidable_of_iff (isPersist u.propertyName = true ∧ u.propertyName.length < PROP_NAME_MAX ∧
      delimiter ∉ u.propertyName ∧ newline ∉ u.propertyName ∧
      u.propertyValue = u.propertyValue.dropLast ++ [newline] ∧
      newline ∉ u.propertyValue.dropLast ∧ u.propertyValue.dropLast.length ≤ 90) <| by
    refine ⟨fun ⟨h1, h2, h3, h4, h5, h6, h7⟩ => ⟨h1, h2, h3, h4, _, h5, h6, h7⟩, fun h => ?_⟩
    obtain ⟨v, hv, hnew, hlen⟩ := h.value
    refine ⟨h.persist, h.name_lt, h.name_delimiter, h.name_newline, ?_⟩
    rw [hv, dropLast_concat]
    exact ⟨rfl, hnew, hlen⟩

/-- A value that ends its line fits the buffer. -/
theorem strlcpy_line (h : ∃ v, value = v ++ [newline] ∧ newline ∉ v ∧ v.length ≤ 90) :
    strlcpy PROP_VALUE_MAX value = value := by
  obtain ⟨v, rfl, -, hlen⟩ := h
  refine take_of_length_le ?_
  rw [length_append, length_singleton]
  exact Nat.succ_le_succ hlen

theorem Writable.stored_eq (h : Writable u) :
    PropertyDb.stored u.propertyValue.dropLast = u.propertyValue := by
  obtain ⟨v, hv, -, hlen⟩ := h.value
  rw [hv, dropLast_concat, PropertyDb.stored_of_le hlen]

/-- A line of the file is added as an update: its name is not read-only. -/
theorem Writable.listAdd_eq (h : Writable u) (db : PropertyDb) :
    db.listAdd u = db.updatePropValue u.propertyName u.propertyValue.dropLast := by
  rw [PropertyDb.listAdd_eq, PropertyDb.updatePropValue_eq h.name_lt, nameString_of_lt h.name_lt,
    strlcpy_line h.value, isReadOnly_of_isPersist h.persist, h.stored_eq]
  rfl

theorem Writable.stringToWrite_eq (h : Writable u) :
    PropertyDb.stringToWrite u = u.propertyName ++ delimiter :: u.propertyValue := by
  obtain ⟨v, hv, -, hlen⟩ := h.value
  have hname := h.name_lt
  unfold PropertyDb.stringToWrite
  rw [nameString_of_lt hname]
  refine take_of_length_le ?_
  simp only [length_append, length_cons, hv, length_nil]
  unfold MAX_ALLOWED_LINE_LEN PROP_NAME_MAX PROP_VALUE_MAX at *
  omega

theorem Writable.isRecord (h : Writable u) :
    IsRecord newline (MAX_ALLOWED_LINE_LEN - 1) (PropertyDb.stringToWrite u) := by
  obtain ⟨v, hv, hnew, hlen⟩ := h.value
  have hname := h.name_lt
  refine ⟨u.propertyName ++ delimiter :: v, ?_, ?_, ?_⟩
  · rw [h.stringToWrite_eq, hv, append_assoc, cons_append]
  · intro hmem
    rcases mem_append.mp hmem with hmem | hmem
    · exact h.name_newline hmem
    · rcases mem_cons.mp hmem with heq | hmem
      · exact absurd heq (by decide)
      · exact hnew hmem
  · rw [length_append, length_cons]
    unfold MAX_ALLOWED_LINE_LEN PROP_NAME_MAX PROP_VALUE_MAX at *
    omega

theorem Writable.pullOneLineData_eq (h : Writable u) :
    pullOneLineData (PropertyDb.stringToWrite u) = u := by
  obtain ⟨v, hv, -, hlen⟩ := h.value
  have hvalue : u.propertyValue.length < PROP_VALUE_MAX := by
    rw [hv, length_append, length_singleton]
    unfold PROP_VALUE_MAX
    omega
  rw [h.stringToWrite_eq]
  exact parsed_of_not_mem h.name_delimiter h.name_lt hvalue

/-- The nodes that are saved. -/
theorem writable_of_persist {db : PropertyDb} (h : Terminated db)
    (hw : ∀ u ∈ db, isPersist u.propertyName = true → Writable u) :
    ∀ u ∈ db.filter (fun u => isPersist u.nameString), Writable u := by
  intro u hu
  obtain ⟨hmem, hpersist⟩ := mem_filter.mp hu
  rw [nameString_of_lt (h u hmem)] at hpersist
  exact hw u hmem hpersist

/-- Loading a file of writable nodes adds these nodes. -/
theorem searchAndAdd_records (nodes : List PropertyUnit) (h : ∀ u ∈ nodes, Writable u)
    (db : PropertyDb) :
    Service.searchAndAddPropertyVal (nodes.map PropertyDb.stringToWrite).flatten db =
      nodes.foldl (fun db u => db.listAdd u) db := by
  unfold Service.searchAndAddPropertyVal
  rw [readLines_flatten _ fun r hr => ?_, foldl_map]
  · refine foldl_ext _ _ _ fun db u hu => ?_
    rw [(h u hu).pullOneLineData_eq]
  · obtain ⟨u, hu, rfl⟩ := mem_map.mp hr
    exact (h u hu).isRecord

/-- A persist property. -/
def persistKey : List UInt8 := persistPrefix ++ ascii "x"

end SystemCore.Leproperties
