import SystemCore.Leproperties.PropertyList

/-!
# Removing a property

The list is walked to the first node that matches, and that node is taken out. A node matches when
its name begins with the given one, so a longer name that stands in front is removed in its place.
-/
namespace SystemCore.Leproperties

open Lib

namespace PropertyDb

/-- The loop of `__remove_node_from_list`, with what is left and whether a node was found. -/
def removeLoop (name : List UInt8) : PropertyDb → PropertyDb × Bool
  | [] => ([], false)
  | u :: db =>
    -- `strncmp` over the length of the given name
    if name.isPrefixOf u.nameString then (db, true)
    else (u :: (removeLoop name db).1, (removeLoop name db).2)

/-- `__remove_node_from_list`; the value returned is not set when no node of the list matches. -/
def removeNodeFromList (name : List UInt8) (db : PropertyDb) : PropertyDb × Option Bool :=
  if db = [] then (db, some false)
  else ((removeLoop name db).1, if (removeLoop name db).2 then some true else none)

end PropertyDb

def removeDsNode (name : List UInt8) (db : PropertyDb) : PropertyDb × Option Bool :=
  db.removeNodeFromList name

def firstMatch (name : List UInt8) (db : PropertyDb) : Option PropertyUnit :=
  db.find? fun u => name.isPrefixOf u.nameString

theorem removeDsNode_fst (name : List UInt8) (db : PropertyDb) :
    (removeDsNode name db).1 = (db.removeLoop name).1 := by
  unfold removeDsNode PropertyDb.removeNodeFromList
  split
  · rename_i hempty
    rw [hempty]
    rfl
  · rfl

theorem isPrefixOf_self (name : List UInt8) : name.isPrefixOf name = true :=
  List.isPrefixOf_iff_prefix.mpr List.prefix_rfl

/-- With unique names: exactly the node with the name is removed if and only if the first node that
begins with it is that node. -/
theorem remove_exact_iff (name : List UInt8) (db : PropertyDb)
    (unique : (db.map PropertyUnit.nameString).Nodup) :
    (removeDsNode name db).1 = db.filter (fun u => u.nameString ≠ name) ↔
      ∀ u ∈ firstMatch name db, u.nameString = name := by
  rw [removeDsNode_fst]
  induction db with
  | nil => exact iff_of_true rfl fun u hu => by cases hu
  | cons u db ih =>
    rw [List.map_cons, List.nodup_cons] at unique
    obtain ⟨hfresh, hrest⟩ := unique
    by_cases hmatch : name.isPrefixOf u.nameString = true
    · have hremove : PropertyDb.removeLoop name (u :: db) = (db, true) := if_pos hmatch
      have hfirst : firstMatch name (u :: db) = some u := List.find?_cons_of_pos hmatch
      rw [hremove, hfirst]
      by_cases hname : u.nameString = name
      · have hothers : ∀ v ∈ db, decide (v.nameString ≠ name) = true := by
          intro v hv
          refine decide_eq_true fun hsame => hfresh ?_
          rw [hname, ← hsame]
          exact List.mem_map_of_mem hv
        have hkept : (u :: db).filter (fun u => u.nameString ≠ name) = db := by
          rw [List.filter_cons_of_neg (by simp [hname]), List.filter_eq_self.mpr hothers]
        refine iff_of_true hkept.symm ?_
        rintro v ⟨⟩
        exact hname
      · refine iff_of_false ?_ fun hall => hname (hall u rfl)
        intro hsame
        have hmem : u ∈ db := by
          rw [List.filter_cons_of_pos (by simp [hname])] at hsame
          dsimp only at hsame
          rw [hsame]
          exact List.mem_cons_self
        exact hfresh (List.mem_map_of_mem hmem)
    · have hname : u.nameString ≠ name := by
        intro hsame
        rw [hsame] at hmatch
        exact hmatch (isPrefixOf_self name)
      have hremove : (PropertyDb.removeLoop name (u :: db)).1 =
          u :: (PropertyDb.removeLoop name db).1 := by
        rw [PropertyDb.removeLoop, if_neg hmatch]
      have hfirst : firstMatch name (u :: db) = firstMatch name db := List.find?_cons_of_neg hmatch
      rw [hremove, hfirst, List.filter_cons_of_pos (by simp [hname]), List.cons_inj_right]
      exact ih hrest

theorem remove_exact_one :
    (removeDsNode (ascii "b") [⟨ascii "a", []⟩, ⟨ascii "b", []⟩]).1 = [⟨ascii "a", []⟩] :=
  (remove_exact_iff (ascii "b") [⟨ascii "a", []⟩, ⟨ascii "b", []⟩] (by decide)).mpr (by decide)

/-- `ab` stands in front of `a`: asked to remove `a`, the service removes `ab`. -/
theorem longer_name_removed :
    (removeDsNode (ascii "a") [⟨ascii "ab", []⟩, ⟨ascii "a", []⟩]).1 =
      [⟨ascii "a", []⟩] := by
  decide

end SystemCore.Leproperties
