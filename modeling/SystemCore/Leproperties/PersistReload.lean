import SystemCore.Leproperties.RoundTrip

/-!
# The persist file read back

Writing the list and loading the file into an empty list gives the persist properties of the
list, in order. The value carries the newline that ends its line, so this rests on what every
message leaves in the list: one node for each name, and behind each value one newline. The file
itself outlives the service, and the message that enables it loads it, so the file is part of
what is kept.
-/
namespace SystemCore.Leproperties

open Lib Lib.Lines List PropertyDb

/-! ## Set messages and restarts -/

/-- A message whose value leaves room for the newline, with the characters a line may have. -/
structure SetOk (key value : List UInt8) : Prop where
  pos : 1 ≤ key.length
  le : key.length ≤ 63
  key_delimiter : delimiter ∉ key
  key_newline : newline ∉ key
  value_le : value.length ≤ 90
  value_newline : newline ∉ value

/-- What set messages lead to, from no properties and no file. The service may be restarted,
and has its file then. -/
inductive Reachable : Service → Prop where
  | start : Reachable (Service.start [])
  | message {s : Service} {key value : List UInt8} :
      Reachable s → SetOk key value →
        Reachable (s.processSetpropMsg (Service.setMessage key value))
  | restart {s : Service} : Reachable s → Reachable (Service.start s.file)

variable {key value : List UInt8} {db : PropertyDb} {s : Service} {nodes : List PropertyUnit}
  {u : PropertyUnit}

theorem processSetpropMsg_eq (h : SetOk key value) (s : Service) :
    s.processSetpropMsg (Service.setMessage key value) = s.setNode ⟨key, value⟩ := by
  have hkey : key.length < PROP_NAME_MAX := Nat.lt_succ_of_le h.le
  have hvalue : value.length < PROP_VALUE_MAX :=
    Nat.lt_of_le_of_lt h.value_le (by decide)
  have hset : s.propertySet key value = s.processSetpropMsg (Service.setMessage key value) := by
    unfold Service.propertySet
    rw [if_neg (Nat.not_le_of_lt hkey), if_neg (Nat.not_le_of_lt hvalue)]
  rw [← hset, propertySet_eq hkey hvalue, parsed_of_not_mem h.key_delimiter hkey hvalue]

/-! ## What is kept -/

/-- The file has lines as the service writes them. -/
def RecordFile (file : List UInt8) : Prop :=
  ∃ nodes : List PropertyUnit, (∀ u ∈ nodes, Writable u) ∧
    file = (nodes.map PropertyDb.stringToWrite).flatten

theorem NodesOk.recordFile (h : NodesOk db) : RecordFile db.savePersistNodesToFile :=
  ⟨_, h.writable, rfl⟩

theorem SetOk.nodeOk (h : SetOk key value) : NodeOk ⟨key, stored value⟩ :=
  ⟨Nat.lt_succ_of_le h.le, h.key_delimiter, fun _ => h.key_newline, value,
    stored_of_le h.value_le, h.value_newline, h.value_le⟩

structure Kept (s : Service) : Prop where
  db : NodesOk s.db
  file : RecordFile s.file

theorem Kept.savePersistDsToFile (h : NodesOk s.db) : Kept s.savePersistDsToFile :=
  ⟨h, h.recordFile⟩

theorem Kept.loadPersistProperties (h : Kept s) : NodesOk s.loadPersistProperties.db := by
  obtain ⟨nodes, hnodes, hfile⟩ := h.file
  have hdb : s.loadPersistProperties.db = nodes.foldl (fun db u => db.listAdd u) s.db := by
    rw [Service.loadPersistProperties, hfile, searchAndAdd_records nodes hnodes]
  rw [hdb]
  exact h.db.foldl_listAdd hnodes

theorem Kept.setNode (h : Kept s) (hset : SetOk key value) : Kept (s.setNode ⟨key, value⟩) := by
  have hstr : (⟨key, value⟩ : PropertyUnit).nameString = key :=
    nameString_of_lt (Nat.lt_succ_of_le hset.le)
  have hupdated : Kept { s with db := s.db.updatePropValue key value } :=
    ⟨h.db.update hset.nodeOk, h.file⟩
  have hloaded := Kept.savePersistDsToFile hupdated.loadPersistProperties
  unfold Service.setNode
  simp only [hstr]
  split
  · split
    · exact Kept.savePersistDsToFile hloaded.db
    · exact hloaded
  · split
    · exact Kept.savePersistDsToFile hupdated.db
    · exact hupdated

theorem Reachable.kept (h : Reachable s) : Kept s := by
  induction h with
  | start => exact ⟨⟨fun _ hu => absurd hu not_mem_nil, nodup_nil⟩, [], by simp, rfl⟩
  | message _ hset ih =>
    rw [processSetpropMsg_eq hset]
    exact ih.setNode hset
  | restart _ ih => exact ⟨⟨fun _ hu => absurd hu not_mem_nil, nodup_nil⟩, ih.file⟩

/-! ## Loading into an empty list -/

/-- Nodes with new names go to the end, one after the other. -/
theorem foldl_listAdd_append :
    ∀ {db : PropertyDb}, Terminated (db ++ nodes) →
      ((db ++ nodes).map (·.propertyName)).Nodup →
      nodes.foldl (fun db u => db.listAdd u) db = db ++ nodes := by
  induction nodes with
  | nil => exact fun _ _ => (append_nil _).symm
  | cons u nodes ih =>
    intro db hterm hnames
    have hadd : db.listAdd u = db ++ [u] := by
      have hu := nameString_of_lt (hterm u (mem_append_right db mem_cons_self))
      have hnone : db.lookup u.nameString = none := by
        rw [lookup_eq_none_iff]
        intro x hx
        rw [hu, nameString_of_lt (hterm x (mem_append_left _ hx))]
        rw [map_append, nodup_append] at hnames
        exact hnames.2.2 _ (mem_map_of_mem hx) _ (mem_map_of_mem mem_cons_self)
      rw [listAdd_eq, hnone]
    have hassoc : db ++ u :: nodes = db ++ [u] ++ nodes := by
      rw [append_assoc, singleton_append]
    rw [hassoc] at hterm hnames ⊢
    rw [foldl_cons, hadd, ih hterm hnames]

theorem NodesOk.load_save (h : NodesOk db) :
    Service.searchAndAddPropertyVal db.savePersistNodesToFile [] =
      db.filter fun u => isPersist u.nameString := by
  have hsub : (db.filter fun u => isPersist u.nameString).Sublist db := filter_sublist
  unfold savePersistNodesToFile
  rw [searchAndAdd_records _ h.writable, foldl_listAdd_append, nil_append]
  · exact fun u hu => h.terminated u (hsub.subset hu)
  · exact h.names.sublist (hsub.map _)

/-- The list is written and the file loaded into an empty list: what is there then are the
persist properties of the list, with their values and in their order. -/
theorem persist_reload {s : Service} (h : Reachable s) :
    ({ s.savePersistDsToFile with db := [] } : Service).loadPersistProperties.db =
      s.db.filter fun u => isPersist u.nameString :=
  h.kept.db.load_save

/-- Two persist properties, one of them empty, around one that is not kept. -/
theorem persist_reload_two :
    ∃ s, Reachable s ∧
      ({ s.savePersistDsToFile with db := [] } : Service).loadPersistProperties.db =
        [⟨persistKey, [newline]⟩, ⟨persistPrefix, ascii "y\n"⟩] := by
  have hempty : SetOk persistKey [] := by constructor <;> decide
  have hother : SetOk enableName enableValue := by constructor <;> decide
  have hshort : SetOk persistPrefix (ascii "y") := by constructor <;> decide
  have hreach := ((Reachable.start.message hempty).message hother).message hshort
  exact ⟨_, hreach, (persist_reload hreach).trans (by decide +kernel)⟩

end SystemCore.Leproperties
