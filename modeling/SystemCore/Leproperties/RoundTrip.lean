import SystemCore.Lib.Runs
import SystemCore.Leproperties.PersistFile

/-!
# Setting and getting properties

What a client gets is what was set last, or what was set first for a read-only property. The
service keeps a value with a newline behind it and takes the last character off again, so a
value that leaves no room for the newline comes back one character short. The persist file
brings back old values of the keys that are in it, so none of them may be set before it is loaded.
-/
namespace SystemCore.Leproperties

open Lib Lib.Lines Lib.Runs List PropertyDb Service

/-! ## Calls and what they should return -/

inductive PropertyCall where
  | set (key value : List UInt8)
  | get (key : List UInt8)
  deriving DecidableEq, Repr

/-- A call of `property_get` leaves the service as it is. -/
def Service.step (s : Service) : PropertyCall → Except Empty Service
  | .set key value => .ok (s.propertySet key value)
  | .get _ => .ok s

/-- The service with no properties yet and a persist file. -/
def Service.start (file : List UInt8) : Service := ⟨[], false, file⟩

def valuesSet (key : List UInt8) (calls : List PropertyCall) : List (List UInt8) :=
  calls.filterMap fun
    | .set k value => if k = key then some value else none
    | .get _ => none

/-- The latest value, or the first for a read-only property. -/
def valueSet (key : List UInt8) (calls : List PropertyCall) : Option (List UInt8) :=
  if isReadOnly key then (valuesSet key calls).head? else (valuesSet key calls).getLast?

/-- The call that loads the persist file. -/
def enable : PropertyCall := .set enableName enableValue

/-- The nodes that the lines of a file give. -/
def fileNodes (file : List UInt8) : List PropertyUnit :=
  (readLines newline (MAX_ALLOWED_LINE_LEN - 1) [] file).map pullOneLineData

/-- The last line for a key, with the newline behind the value. -/
def fileLine (file key : List UInt8) : Option (List UInt8) :=
  ((fileNodes file).reverse.find? (·.propertyName = key)).map (·.propertyValue)

def fromFile (file key : List UInt8) (calls : List PropertyCall) : Option (List UInt8) :=
  if enable ∈ calls then (fileLine file key).map dropLast else none

/-- What was set, and for a key that was not the value in the file, once that is loaded. -/
def expected (file key : List UInt8) (calls : List PropertyCall) : Option (List UInt8) :=
  (valueSet key calls).or (fromFile file key calls)

structure AdmissibleKey (key : List UInt8) : Prop where
  pos : 1 ≤ key.length
  le : key.length ≤ 63
  delimiter : delimiter ∉ key

instance (key : List UInt8) : Decidable (AdmissibleKey key) :=
  decidable_of_iff (1 ≤ key.length ∧ key.length ≤ 63 ∧ Leproperties.delimiter ∉ key)
    ⟨fun h => ⟨h.1, h.2.1, h.2.2⟩, fun h => ⟨h.pos, h.le, h.delimiter⟩⟩

/-- Keys and values that `property_set` accepts, with the characters they may have. -/
def Admissible : PropertyCall → Prop
  | .set key value => AdmissibleKey key ∧ 1 ≤ value.length ∧ value.length ≤ 91 ∧ 0 ∉ value ∧
      newline ∉ value
  | .get key => AdmissibleKey key

instance : ∀ call, Decidable (Admissible call)
  | .set .. => inferInstanceAs (Decidable (_ ∧ _))
  | .get key => inferInstanceAs (Decidable (AdmissibleKey key))

/-- The lines of a file are as the service writes them, with a value. -/
def LinesOk (file : List UInt8) : Prop :=
  ∀ u ∈ fileNodes file, Writable u ∧ 2 ≤ u.propertyValue.length

instance (file : List UInt8) : Decidable (LinesOk file) := inferInstanceAs (Decidable (∀ u ∈ _, _))

/-- A file that can be loaded: none of its lines is for a key that is in the list. -/
def Loadable (file : List UInt8) (db : PropertyDb) : Prop :=
  LinesOk file ∧ ∀ u ∈ fileNodes file, db.lookup u.propertyName = none

instance (file : List UInt8) (db : PropertyDb) : Decidable (Loadable file db) :=
  inferInstanceAs (Decidable (_ ∧ _))

/-- What a call must keep to besides. -/
def Fits (s : Service) : PropertyCall → Prop
  | .set key value => value.length ≤ 90 ∧ (isPersist key = true → newline ∉ key) ∧
      (key = enableName → value = enableValue →
        s.persistStorageReady = true ∨ Loadable s.file s.db)
  | .get _ => True

instance (s : Service) : ∀ call, Decidable (Fits s call)
  | .set .. => inferInstanceAs (Decidable (_ ∧ _))
  | .get _ => isTrue trivial

/-! ## The list and the file in step -/

/-- A node as a call that fits makes it. -/
structure NodeOk (u : PropertyUnit) : Prop where
  name_lt : u.propertyName.length < PROP_NAME_MAX
  name_delimiter : delimiter ∉ u.propertyName
  name_newline : isPersist u.propertyName = true → newline ∉ u.propertyName
  value : ∃ v, u.propertyValue = v ++ [newline] ∧ newline ∉ v ∧ v.length ≤ 90

variable {calls : List PropertyCall} {u : PropertyUnit} {db : PropertyDb} {v : List UInt8}

theorem NodeOk.writable (h : NodeOk u) (hpersist : isPersist u.propertyName = true) : Writable u :=
  ⟨hpersist, h.name_lt, h.name_delimiter, h.name_newline hpersist, h.value⟩

structure NodesOk (db : PropertyDb) : Prop where
  nodes : ∀ u ∈ db, NodeOk u
  names : (db.map (·.propertyName)).Nodup

theorem NodesOk.terminated (h : NodesOk db) : Terminated db := fun u hu =>
  (h.nodes u hu).name_lt

theorem NodesOk.writable (h : NodesOk db) :
    ∀ u ∈ db.filter (fun u => isPersist u.nameString), Writable u :=
  writable_of_persist h.terminated fun u hu => (h.nodes u hu).writable

/-- Once the file is in use it has the persist properties of the list. -/
structure InStep (s : Service) : Prop where
  db : NodesOk s.db
  file : s.persistStorageReady = true → s.file = s.db.savePersistNodesToFile

variable {s : Service} {key : List UInt8}

namespace PropertyDb

variable {db : PropertyDb} {name value : List UInt8} {u : PropertyUnit}
  (h : Terminated db) (hlen : name.length < PROP_NAME_MAX)
  (hnames : (db.map (·.propertyName)).Nodup) (hname : isPersist name = false)

include h hnames in
/-- With distinct names every node is the one that its name finds. -/
theorem lookup_of_mem (hu : u ∈ db) : lookup u.propertyName db = some u.propertyValue := by
  induction db with
  | nil => cases hu
  | cons x db ih =>
    obtain ⟨hx, hnames⟩ := nodup_cons.mp hnames
    rw [lookup_cons, nameString_of_lt (h x mem_cons_self)]
    rcases mem_cons.mp hu with rfl | hu
    · rw [if_pos rfl]
    · rw [if_neg, ih (fun y hy => h y (mem_cons_of_mem x hy)) hnames hu]
      intro heq
      have hmem : u.propertyName ∈ db.map (·.propertyName) := mem_map_of_mem hu
      exact hx (by rwa [← heq] at hmem)

include h hname in
theorem filter_setValue (value : List UInt8) :
    (setValue name value db).filter (fun u => isPersist u.nameString) =
      db.filter fun u => isPersist u.nameString := by
  induction db with
  | nil => rfl
  | cons x db ih =>
    have hx := h x mem_cons_self
    unfold setValue
    split
    case isTrue heq =>
      have hset : ({ x with propertyValue := value } : PropertyUnit).nameString = name :=
        (if_pos hx).trans ((nameString_of_lt hx).symm.trans heq)
      rw [filter_cons_of_neg (by rw [hset, hname]; exact Bool.false_ne_true),
        filter_cons_of_neg (by rw [heq, hname]; exact Bool.false_ne_true)]
    case isFalse =>
      rw [filter_cons, filter_cons, ih fun y hy => h y (mem_cons_of_mem x hy)]

include h hlen hname in
/-- An update of another property leaves the contents of the file as they are. -/
theorem save_updatePropValue (value : List UInt8) :
    savePersistNodesToFile (updatePropValue name value db) = savePersistNodesToFile db := by
  have hstr : (⟨name, stored value⟩ : PropertyUnit).nameString = name := nameString_of_lt hlen
  unfold savePersistNodesToFile
  rw [updatePropValue_eq hlen]
  split
  · simp [filter_append, hstr, hname]
  · split
    · rfl
    · rw [filter_setValue h hname]

include h hlen hnames in
theorem names_updatePropValue (value : List UInt8) :
    ((updatePropValue name value db).map (·.propertyName)).Nodup := by
  rw [updatePropValue_eq hlen]
  split
  case h_1 hl =>
    rw [map_append, nodup_append]
    refine ⟨hnames, nodup_singleton _, fun x hx y hy => ?_⟩
    obtain ⟨u, hu, rfl⟩ := mem_map.mp hx
    obtain rfl : y = name := mem_singleton.mp hy
    rw [← nameString_of_lt (h u hu)]
    exact lookup_eq_none_iff.mp hl u hu
  case h_2 =>
    split
    · exact hnames
    · rw [map_name_setValue]
      exact hnames

end PropertyDb

theorem NodesOk.update {value : List UInt8} (h : NodesOk db) (hnode : NodeOk ⟨key, stored value⟩) :
    NodesOk (db.updatePropValue key value) := by
  refine ⟨fun u hu => ?_, names_updatePropValue h.terminated hnode.name_lt h.names value⟩
  rcases mem_updatePropValue h.terminated hnode.name_lt hu with hu | rfl
  · exact h.nodes u hu
  · exact hnode

/-! ## Loading a file -/

variable {nodes : List PropertyUnit}

theorem Writable.nodeOk (h : Writable u) : NodeOk u :=
  ⟨h.name_lt, h.name_delimiter, fun _ => h.name_newline, h.value⟩

theorem NodesOk.listAdd (h : NodesOk db) (hu : Writable u) : NodesOk (db.listAdd u) := by
  rw [hu.listAdd_eq]
  exact h.update (hu.stored_eq.symm ▸ hu.nodeOk)

theorem NodesOk.foldl_listAdd (h : NodesOk db) (hnodes : ∀ u ∈ nodes, Writable u) :
    NodesOk (nodes.foldl (fun db u => db.listAdd u) db) := by
  induction nodes generalizing db with
  | nil => exact h
  | cons u nodes ih =>
    exact ih (h.listAdd (hnodes u mem_cons_self)) fun x hx =>
      hnodes x (mem_cons_of_mem u hx)

theorem lookup_listAdd (h : Terminated db) (hu : Writable u) (k : List UInt8) :
    lookup k (db.listAdd u) = if u.propertyName = k then some u.propertyValue else lookup k db := by
  rw [hu.listAdd_eq, lookup_updatePropValue h hu.name_lt, isReadOnly_of_isPersist hu.persist,
    hu.stored_eq]
  simp only [Bool.false_eq_true, false_and, if_false, eq_comm (a := k)]

/-- The last of the nodes that are added has the say. -/
theorem lookup_foldl_listAdd (h : NodesOk db) (hnodes : ∀ u ∈ nodes, Writable u)
    (k : List UInt8) :
    lookup k (nodes.foldl (fun db u => db.listAdd u) db) =
      ((nodes.reverse.find? (·.propertyName = k)).map (·.propertyValue)).or (lookup k db) := by
  induction nodes generalizing db with
  | nil => rfl
  | cons u nodes ih =>
    have hu := hnodes u mem_cons_self
    rw [foldl_cons, ih (h.listAdd hu) fun x hx => hnodes x (mem_cons_of_mem u hx),
      lookup_listAdd h.terminated hu, reverse_cons, find?_append]
    cases nodes.reverse.find? (·.propertyName = k) with
    | some x => rfl
    | none => by_cases hk : u.propertyName = k <;> simp [hk]

/-- The file of the list, loaded into the list: every value that is added is there. -/
theorem NodesOk.reload (h : NodesOk db) :
    NodesOk (searchAndAddPropertyVal db.savePersistNodesToFile db) ∧
      ∀ k, lookup k (searchAndAddPropertyVal db.savePersistNodesToFile db) = lookup k db := by
  unfold savePersistNodesToFile
  rw [searchAndAdd_records _ h.writable]
  refine ⟨h.foldl_listAdd h.writable, fun k => ?_⟩
  rw [lookup_foldl_listAdd h h.writable]
  cases hfind : (db.filter _).reverse.find? (·.propertyName = k) with
  | none => rfl
  | some u =>
    have hu : u ∈ db := mem_of_mem_filter (mem_reverse.mp (mem_of_find?_eq_some hfind))
    have hname : u.propertyName = k := by simpa using find?_some hfind
    rw [← hname, lookup_of_mem h.terminated h.names hu]
    rfl

/-- Another file, none of whose lines is for a key of the list. -/
theorem Loadable.load {file : List UInt8} (hload : Loadable file db) (h : NodesOk db) :
    NodesOk (searchAndAddPropertyVal file db) ∧
      ∀ k, lookup k (searchAndAddPropertyVal file db) = (lookup k db).or (fileLine file k) := by
  have hlines : ∀ u ∈ fileNodes file, Writable u := fun u hu => (hload.1 u hu).1
  have hadd : searchAndAddPropertyVal file db =
      (fileNodes file).foldl (fun db u => db.listAdd u) db := by
    rw [fileNodes, foldl_map]
    rfl
  rw [hadd]
  refine ⟨h.foldl_listAdd hlines, fun k => ?_⟩
  rw [lookup_foldl_listAdd h hlines]
  unfold fileLine
  cases hfind : (fileNodes file).reverse.find? (·.propertyName = k) with
  | none => rw [Option.map_none, Option.none_or, Option.or_none]
  | some u =>
    have hu := hload.2 u (mem_reverse.mp (mem_of_find?_eq_some hfind))
    have hname : u.propertyName = k := by simpa using find?_some hfind
    rw [hname] at hu
    rw [hu, Option.none_or, Option.or_none]

/-! ## A call of `property_set` -/

theorem AdmissibleKey.lt (h : AdmissibleKey key) : key.length < PROP_NAME_MAX :=
  Nat.lt_succ_of_le h.le

/-- The call that enables the file sets no key that a line can be for. -/
theorem Loadable.update {file value : List UInt8} (hload : Loadable file db) (h : Terminated db)
    (hlt : key.length < PROP_NAME_MAX) (hkey : isPersist key = false) :
    Loadable file (db.updatePropValue key value) := by
  refine ⟨hload.1, fun u hu => ?_⟩
  have hne : u.propertyName ≠ key := by
    rintro rfl
    rw [(hload.1 u hu).1.persist] at hkey
    cases hkey
  rw [lookup_updatePropValue h hlt, if_neg hne, hload.2 u hu]

/-- The call that enables the file is an update, then loads the file and writes it. -/
theorem propertySet_enable (s : Service) :
    s.propertySet enableName enableValue = ({ s with
      db := s.db.updatePropValue enableName enableValue } : Service).loadPersistProperties.savePersistDsToFile := by
  rw [propertySet_eq (by decide) (by decide), parsed_of_not_mem (by decide) (by decide) (by decide)]
  rfl

/-- Another call is an update, and a persist property is written once the file is in use. -/
theorem propertySet_other {value : List UInt8} (hkey : AdmissibleKey key) (hle : value.length ≤ 91)
    (hno : PropertyCall.set key value ≠ enable) (s : Service) :
    s.propertySet key value = ({ s with
      db := s.db.updatePropValue key value
      file := if s.persistStorageReady = true ∧ isPersist key = true then
        (s.db.updatePropValue key value).savePersistNodesToFile else s.file } : Service) := by
  have hstr : (⟨key, value⟩ : PropertyUnit).nameString = key := nameString_of_lt hkey.lt
  have hcond : ¬ (key = enableName ∧ value = enableValue) := by
    rintro ⟨rfl, rfl⟩
    exact hno rfl
  rw [propertySet_eq hkey.lt (Nat.lt_succ_of_le hle), parsed_of_not_mem hkey.delimiter hkey.lt
    (Nat.lt_succ_of_le hle)]
  unfold setNode
  simp only [hstr, if_neg hcond]
  split <;> rfl

/-! ## A call of `property_get` -/

theorem propertyGet_eq (hkey : AdmissibleKey key) (hv : v.length ≤ 90)
    (hr : s.db.retrivePropValue key [] = v) :
    s.propertyGet key = if v = [] then none else some v := by
  have hlt := hkey.lt
  have hmsg : getMessage key = PROP_MSG_GETPROP :: (key ++ [delimiter]) := by
    refine take_of_length_le ?_
    simp only [cons_append, length_cons, length_append, length_nil]
    unfold MAX_ALLOWED_LINE_LEN PROP_NAME_MAX PROP_VALUE_MAX at *
    omega
  have hpull : pullOneLineData (key ++ [delimiter]) = ⟨key, []⟩ :=
    parsed_of_not_mem hkey.delimiter hlt (by decide)
  have hanswer : s.processGetpropMsg (getMessage key) = ⟨key, v⟩ := by
    have hempty : (⟨key, []⟩ : PropertyUnit).nameString = key := nameString_of_lt hlt
    unfold processGetpropMsg
    simp only [hmsg, tail_cons, hpull, hempty, hr]
  have hstr : (⟨key, v⟩ : PropertyUnit).nameString = key := nameString_of_lt hlt
  have hresponse : response ⟨key, v⟩ = PROP_MSG_GETPROP :: (key ++ delimiter :: v) := by
    unfold response
    rw [hstr]
    refine take_of_length_le ?_
    simp only [cons_append, length_cons, length_append]
    unfold MAX_ALLOWED_LINE_LEN PROP_NAME_MAX PROP_VALUE_MAX at *
    omega
  have hcopy : strlcpy PROP_VALUE_MAX v = v :=
    take_of_length_le (Nat.le_trans hv (by decide))
  unfold propertyGet
  rw [hanswer, hresponse, tail_cons, cut_append hkey.delimiter]
  simp only [hcopy]

theorem propertyGet_of_lookup (hkey : AdmissibleKey key) (h : NodesOk s.db) (hv : v ≠ [])
    (hl : s.db.lookup key = some (v ++ [newline])) : s.propertyGet key = some v := by
  obtain ⟨u, hu, huv⟩ := Option.map_eq_some_iff.mp hl
  have hline := (h.nodes u (mem_of_find?_eq_some hu)).value
  have hcopy := strlcpy_line hline
  obtain ⟨v', hv', -, hlen⟩ := hline
  obtain rfl : v = v' := append_cancel_right (huv.symm.trans hv')
  have hr : s.db.retrivePropValue key [] = v := by
    unfold retrivePropValue
    simp only [hu, hcopy]
    rw [huv, if_neg (by simp), strlcpy, length_append, length_singleton,
      Nat.add_sub_cancel, take_left]
  rw [propertyGet_eq hkey hlen hr, if_neg hv]

theorem propertyGet_of_none (hkey : AdmissibleKey key) (hl : s.db.lookup key = none) :
    s.propertyGet key = none := by
  have hr : s.db.retrivePropValue key [] = [] := by
    unfold retrivePropValue
    rw [(match_lookup key s.db).mp hl]
  rw [propertyGet_eq hkey (Nat.zero_le _) hr, if_pos rfl]

/-! ## Whole runs -/

theorem valuesSet_append_set (key k value : List UInt8) (calls : List PropertyCall) :
    valuesSet key (calls ++ [.set k value]) =
      if k = key then valuesSet key calls ++ [value] else valuesSet key calls := by
  unfold valuesSet
  by_cases hk : k = key <;> simp [hk]

theorem valueSet_append_set (key k value : List UInt8) (calls : List PropertyCall) :
    valueSet key (calls ++ [.set k value]) =
      if key = k then
        if isReadOnly k = true ∧ (valueSet k calls).isSome then valueSet k calls else some value
      else valueSet key calls := by
  unfold valueSet
  rw [valuesSet_append_set]
  by_cases hk : key = k
  · subst hk
    cases hro : isReadOnly key with
    | true => cases hv : valuesSet key calls <;> simp
    | false => simp
  · simp [hk, Ne.symm hk]

/-- A value that was set came with a call. -/
theorem mem_of_valueSet (h : valueSet key calls = some v) : .set key v ∈ calls := by
  have hmem : v ∈ valuesSet key calls := by
    unfold valueSet at h
    split at h
    · exact mem_of_mem_head? h
    · exact mem_of_getLast? h
  obtain ⟨call, hcall, hv⟩ := mem_filterMap.mp hmem
  cases call with
  | get k => cases hv
  | set k value =>
    obtain ⟨rfl, rfl⟩ : k = key ∧ value = v := by simpa using hv
    exact hcall

/-- The list has, with the newline, what is expected. -/
structure Refines (file : List UInt8) (s : Service) (calls : List PropertyCall) : Prop where
  inStep : InStep s
  loaded : s.persistStorageReady = false ∧ s.file = file ∧ enable ∉ calls ∨
    s.persistStorageReady = true ∧ LinesOk file ∧ enable ∈ calls
  lookup : ∀ key, s.db.lookup key = (expected file key calls).map (· ++ [newline])

variable {file : List UInt8}

theorem Refines.linesOk (h : Refines file s calls) (he : enable ∈ calls) : LinesOk file := by
  rcases h.loaded with ⟨-, -, hno⟩ | ⟨-, hlines, -⟩
  · exact absurd he hno
  · exact hlines

/-- A value of the file, and what is in the list for it. -/
theorem LinesOk.fileLine_eq (h : LinesOk file) (key : List UInt8) :
    fileLine file key = none ∨
      ∃ v, fileLine file key = some (v ++ [newline]) ∧ isReadOnly key = false ∧ v ≠ [] := by
  unfold fileLine
  cases hfind : (fileNodes file).reverse.find? (·.propertyName = key) with
  | none => exact .inl rfl
  | some u =>
    obtain ⟨hu, hlong⟩ := h u (mem_reverse.mp (mem_of_find?_eq_some hfind))
    have hname : u.propertyName = key := by simpa using find?_some hfind
    obtain ⟨v, hv, -, -⟩ := hu.value
    refine .inr ⟨v, congrArg some hv, hname ▸ isReadOnly_of_isPersist hu.persist, ?_⟩
    rintro rfl
    rw [hv] at hlong
    exact absurd hlong (by decide)

/-- The list after the update, before a file is loaded. -/
theorem Refines.lookup_update (h : Refines file s calls) {k value : List UInt8}
    (hlt : k.length < PROP_NAME_MAX) (hlen : value.length ≤ 90) (key : List UInt8) :
    (s.db.updatePropValue k value).lookup key =
      ((valueSet key (calls ++ [.set k value])).or (fromFile file key calls)).map
        (· ++ [newline]) := by
  rw [lookup_updatePropValue h.inStep.db.terminated hlt, valueSet_append_set, stored_of_le hlen,
    h.lookup, h.lookup, expected, expected]
  by_cases hk : key = k
  · subst hk
    rw [if_pos rfl, if_pos rfl]
    cases hro : isReadOnly key with
    | false => simp
    | true =>
      have hfile : fromFile file key calls = none := by
        unfold fromFile
        split
        case isFalse => rfl
        case isTrue he =>
          rcases (h.linesOk he).fileLine_eq key with hnone | ⟨v, -, hno, -⟩
          · rw [hnone, Option.map_none]
          · rw [hro] at hno
            cases hno
      rw [hfile]
      cases valueSet key calls <;> simp
  · rw [if_neg hk, if_neg hk]

theorem Refines.set {k value : List UInt8} (h : Refines file s calls)
    (hfits : Fits s (.set k value)) (hcall : Admissible (.set k value)) :
    Refines file (s.propertySet k value) (calls ++ [.set k value]) := by
  obtain ⟨hkey, -, hle, -, hnewline⟩ := hcall
  obtain ⟨hlen, hpersist, hload⟩ := hfits
  have hdb : NodesOk (s.db.updatePropValue k value) :=
    h.inStep.db.update ⟨hkey.lt, hkey.delimiter, hpersist, value, stored_of_le hlen, hnewline, hlen⟩
  have hlookup := h.lookup_update hkey.lt hlen
  have hsaved := fun hother => save_updatePropValue h.inStep.db.terminated hkey.lt hother value
  by_cases henable : PropertyCall.set k value = enable
  case pos =>
    obtain ⟨rfl, rfl⟩ := PropertyCall.set.inj henable
    have hother : isPersist enableName = false := by decide
    have hmem : enable ∈ calls ++ [.set enableName enableValue] :=
      mem_append_right _ (mem_singleton_self _)
    rw [propertySet_enable]
    rcases h.loaded with ⟨hready, rfl, hnot⟩ | ⟨hready, hlines, hbefore⟩
    · have hno : ¬ s.persistStorageReady = true := Bool.eq_false_iff.mp hready
      have hloadable : Loadable s.file (s.db.updatePropValue enableName enableValue) :=
        ((hload rfl rfl).resolve_left hno).update h.inStep.db.terminated hkey.lt hother
      obtain ⟨hok, hlines⟩ := hloadable.load hdb
      refine ⟨⟨hok, fun _ => rfl⟩, .inr ⟨rfl, hloadable.1, hmem⟩, fun key => (hlines key).trans ?_⟩
      rw [hlookup, expected, fromFile, fromFile, if_neg hnot, if_pos hmem, Option.or_none]
      rcases hloadable.1.fileLine_eq key with hnone | ⟨v, hv, -, -⟩
      · rw [hnone, Option.or_none, Option.map_none, Option.or_none]
      · rw [hv, Option.map_some, dropLast_concat, Option.map_or, Option.map_some]
    · -- the file has what the list has
      have hreload := hdb.reload
      rw [hsaved hother, ← h.inStep.file hready] at hreload
      refine ⟨⟨hreload.1, fun _ => rfl⟩, .inr ⟨rfl, hlines, hmem⟩,
        fun key => (hreload.2 key).trans ?_⟩
      rw [hlookup, expected, fromFile, fromFile, if_pos hbefore, if_pos hmem]
  case neg =>
    have hmem : enable ∈ calls ++ [.set k value] ↔ enable ∈ calls := by simp [Ne.symm henable]
    rw [propertySet_other hkey hle henable]
    refine ⟨⟨hdb, fun hready => ?_⟩, ?_, fun key => ?_⟩
    · rw [ite_eq_left_iff]
      intro hkeep
      have hother : isPersist k = false := Bool.eq_false_iff.mpr fun hp => hkeep ⟨hready, hp⟩
      exact (h.inStep.file hready).trans (hsaved hother).symm
    · rw [hmem]
      rcases h.loaded with ⟨hready, hfile, hnot⟩ | hloaded
      · refine .inl ⟨hready, ?_, hnot⟩
        rw [if_neg fun hc => Bool.eq_false_iff.mp hready hc.1, hfile]
      · exact .inr hloaded
    · simp only [hlookup, expected, fromFile, hmem]

theorem Refines.get (h : Refines file s calls) (k : List UInt8) :
    Refines file s (calls ++ [.get k]) := by
  have hmem : enable ∈ calls ++ [.get k] ↔ enable ∈ calls := by simp [enable]
  have hsame : ∀ key, expected file key (calls ++ [.get k]) = expected file key calls := by
    intro key
    simp only [expected, fromFile, hmem]
    simp [valueSet, valuesSet, filterMap_append]
  refine ⟨h.inStep, ?_, fun key => hsame key ▸ h.lookup key⟩
  rw [hmem]
  exact h.loaded

theorem refines_start (file : List UInt8) : Refines file (Service.start file) [] where
  inStep := ⟨⟨fun _ h => absurd h not_mem_nil, nodup_nil⟩, fun h => by cases h⟩
  loaded := .inl ⟨rfl, rfl, not_mem_nil⟩
  lookup := fun key => by
    cases hro : isReadOnly key <;> simp [expected, fromFile, valueSet, valuesSet, hro] <;> rfl

/-- No value is expected to be empty. -/
theorem Refines.expected_ne_nil (h : Refines file s calls) (hcalls : ∀ call ∈ calls, Admissible call)
    (hv : expected file key calls = some v) : v ≠ [] := by
  rcases Option.or_eq_some_iff.mp hv with hv | ⟨-, hv⟩
  · exact ne_nil_of_length_pos (hcalls _ (mem_of_valueSet hv)).2.1
  · unfold fromFile at hv
    split at hv
    case isFalse => cases hv
    case isTrue he =>
      rcases (h.linesOk he).fileLine_eq key with hnone | ⟨w, hw, -, hne⟩
      · rw [hnone] at hv
        cases hv
      · rw [hw, Option.map_some, dropLast_concat] at hv
        exact Option.some.inj hv ▸ hne

theorem run_refines (file : List UInt8) (calls : List PropertyCall) :
    ∀ s, (∀ call ∈ calls, Admissible call) →
      Along Service.step Fits (Service.start file) calls →
      run Service.step (Service.start file) calls = .ok s → Refines file s calls := by
  induction calls using List.reverseRecOn with
  | nil =>
    intro s _ _ hrun
    cases hrun
    exact refines_start file
  | append_singleton calls call ih =>
    intro s hcalls hfits hrun
    obtain ⟨hbefore, hlast⟩ := hfits.append
    rw [run_append] at hrun
    cases hmid : run step (start file) calls with
    | error e => exact e.elim
    | ok t =>
      rw [hmid] at hrun
      have ht := ih t (fun c hc => hcalls c (mem_append_left _ hc)) hbefore hmid
      have hcall := hcalls call (mem_append_right _ (mem_singleton_self _))
      have hfit : Fits t call := (hlast t hmid).1
      cases call with
      | set k value => cases hrun; exact ht.set hfit hcall
      | get k => cases hrun; exact ht.get k

/-- After any calls that fit, `property_get` returns for every key the latest value that was
set, or the first for a read-only key, and for a key that was not set what the file brought. The
names in the list are distinct. -/
theorem property_round_trip (file : List UInt8) (calls : List PropertyCall)
    (hcalls : ∀ call ∈ calls, Admissible call)
    (hfits : Along Service.step Fits (Service.start file) calls) (s : Service)
    (hrun : run Service.step (Service.start file) calls = .ok s) :
    (∀ key, AdmissibleKey key → s.propertyGet key = expected file key calls) ∧
      (s.db.map (·.nameString)).Nodup := by
  have h := run_refines file calls s hcalls hfits hrun
  refine ⟨fun key hkey => ?_, ?_⟩
  · have hl := h.lookup key
    cases he : expected file key calls with
    | none =>
      rw [he] at hl
      exact propertyGet_of_none hkey hl
    | some v =>
      rw [he] at hl
      exact propertyGet_of_lookup hkey h.inStep.db (h.expected_ne_nil hcalls he) hl
  · have hnames : s.db.map (·.nameString) = s.db.map (·.propertyName) :=
      map_congr_left fun u hu => nameString_of_lt (h.inStep.db.terminated u hu)
    rw [hnames]
    exact h.inStep.db.names

/-- A file of an earlier run, for another key. -/
def otherFile : List UInt8 := persistPrefix ++ ascii "w=o\n"

/-- The file is loaded twice, the second time with the value from before. -/
def twiceEnabled : List PropertyCall :=
  [.set persistKey (ascii "y"), enable, .set persistKey (ascii "z"), enable]

theorem property_round_trip_enabled :
    ∃ s, run Service.step (Service.start otherFile) twiceEnabled = .ok s ∧
      s.propertyGet persistKey = some (ascii "z") := by
  cases hrun : run step (start otherFile) twiceEnabled with
  | error e => exact e.elim
  | ok s =>
    have hget := (property_round_trip otherFile twiceEnabled (by decide +kernel)
      (by decide +kernel) s hrun).1 persistKey (by decide +kernel)
    exact ⟨s, rfl, hget.trans (by decide +kernel)⟩

/-- The longest value comes back without its last character. And a value that was set before
the file of an earlier run is loaded gives way to the one in the file. -/
theorem property_value_lost :
    (Admissible (.set (ascii "a") (List.replicate 91 120)) ∧
      ∃ s, run Service.step (Service.start []) [.set (ascii "a") (List.replicate 91 120)] = .ok s ∧
        s.propertyGet (ascii "a") = some (List.replicate 90 120)) ∧
    (∀ call ∈ [.set persistKey (ascii "n"), enable], Admissible call) ∧
      ∃ s, run Service.step (Service.start (persistKey ++ ascii "=o\n"))
          [.set persistKey (ascii "n"), enable] = .ok s ∧
        s.propertyGet persistKey = some (ascii "o") := by
  obtain ⟨s, hs, hget⟩ := exists_ok_of_any
    (r := run step (start []) [.set (ascii "a") (List.replicate 91 120)])
    (f := fun s => s.propertyGet (ascii "a") = some (List.replicate 90 120)) (by decide +kernel)
  obtain ⟨t, ht, hold⟩ := exists_ok_of_any
    (r := run step (start (persistKey ++ ascii "=o\n"))
      [.set persistKey (ascii "n"), enable])
    (f := fun s => s.propertyGet persistKey = some (ascii "o")) (by decide +kernel)
  exact ⟨⟨by decide +kernel, s, hs, of_decide_eq_true hget⟩, by decide +kernel, t, ht,
    of_decide_eq_true hold⟩

end SystemCore.Leproperties
