import Mathlib.Data.List.Basic

/-!
# Paths of nodes

`get_node_path_locked` asks for the path of the parent with less of the buffer, and writes its own
name behind it on the way back. A graft path takes the place of everything above it.
-/
namespace SystemCore.Sdcard

/-- A string without its terminator. -/
abbrev Str := List UInt8

/-- A node, without the nodes above it. Both of its names have `namelen` characters. -/
structure Node where
  name : Str
  actualName : Option Str
  graftPath : Option Str
  length_actualName : ∀ s ∈ actualName, s.length = name.length

/-- The memory at `buf`. -/
abbrev Buffer := Nat → UInt8

def write (buf : Buffer) (pos : Nat) (bytes : Str) : Buffer := fun i =>
  if pos ≤ i then (bytes[i - pos]?).getD (buf i) else buf i

def Node.shown (node : Node) : Str × Nat :=
  match node.graftPath, node.actualName with
  | some path, _ => (path, path.length)
  | none, some name => (name, node.name.length)
  | none, none => (node.name, node.name.length)

/-- `get_node_path_locked` for a node and those above it: the length or -1, and the buffer. -/
def getNodePath (node : Node) : List Node → Buffer → Nat → Int × Buffer
  | above, buf, bufsize =>
    let (name, namelen) := node.shown
    if bufsize < namelen + 1 then (-1, buf)
    else
      match above, node.graftPath with
      | parent :: above, none =>
        let (pathlen, buf) := getNodePath parent above buf (bufsize - namelen - 1)
        if pathlen < 0 then (-1, buf)
        else
          let buf := write buf pathlen.toNat [47]
          (pathlen + 1 + namelen, write buf (pathlen.toNat + 1) ((name ++ [0]).take (namelen + 1)))
      | _, _ => (namelen, write buf 0 ((name ++ [0]).take (namelen + 1)))

/-! ## The path -/

def Node.label (node : Node) : Str := node.graftPath.getD (node.actualName.getD node.name)

/-- The names from the nearest graft path or the root down to the node. -/
def chain (node : Node) : List Node → List Str
  | [] => [node.label]
  | parent :: above =>
    if node.graftPath = none then chain parent above ++ [node.label] else [node.label]

def path (node : Node) (above : List Node) : Str := List.intercalate [47] (chain node above)

variable {node parent : Node} {above : List Node} {buf : Buffer}

theorem shown_eq : node.shown = (node.label, node.label.length) := by
  unfold Node.shown Node.label
  cases node.graftPath with
  | some path => rfl
  | none =>
    cases hactual : node.actualName with
    | none => rfl
    | some s => exact Prod.ext rfl (node.length_actualName s hactual).symm

/-- A write over the end of another one, and at least as far. -/
theorem write_write (s t u : Str) (h : t.length ≤ u.length) :
    write (write buf 0 (s ++ t)) s.length u = write buf 0 (s ++ u) := by
  funext i
  simp only [write, Nat.zero_le, if_true, Nat.sub_zero]
  by_cases hi : s.length ≤ i
  · rw [if_pos hi, List.getElem?_append_right hi, List.getElem?_append_right hi]
    by_cases hu : i - s.length < u.length
    · rw [List.getElem?_eq_getElem hu, Option.getD_some, Option.getD_some]
    · rw [List.getElem?_eq_none (by omega), List.getElem?_eq_none (by omega)]
      rfl
  · rw [if_neg hi, List.getElem?_append_left (by omega), List.getElem?_append_left (by omega)]

theorem chain_ne_nil : chain node above ≠ [] := by
  cases above with
  | nil => exact List.cons_ne_nil _ _
  | cons parent above =>
    unfold chain
    split
    · exact List.append_ne_nil_of_right_ne_nil _ (List.cons_ne_nil _ _)
    · exact List.cons_ne_nil _ _

theorem intercalate_concat {names : List Str} (h : names ≠ []) (name : Str) :
    List.intercalate [47] (names ++ [name]) = List.intercalate [47] names ++ [47] ++ name := by
  induction names with
  | nil => exact absurd rfl h
  | cons first names ih =>
    by_cases hne : names = []
    · simp [hne]
    · rw [List.cons_append, List.intercalate_cons_of_ne_nil (by simp), ih hne,
        List.intercalate_cons_of_ne_nil hne]
      simp only [List.append_assoc]

/-- The path is written if there is room for it, and without room the buffer stays as it is. -/
theorem getNodePath_eq (bufsize : Nat) : getNodePath node above buf bufsize =
    if (path node above).length + 1 ≤ bufsize then
      (((path node above).length : Int), write buf 0 (path node above ++ [0]))
    else (-1, buf) := by
  have htake (s : Str) : (s ++ [0]).take (s.length + 1) = s ++ [0] :=
    List.take_of_length_le (by simp)
  induction above generalizing node buf bufsize with
  | nil =>
    rw [getNodePath, shown_eq]
    simp only [htake, path, chain, List.intercalate_singleton]
    split <;> split <;> first | rfl | omega
  | cons parent above ih =>
    rw [getNodePath, shown_eq]
    cases hgraft : node.graftPath with
    | some graft =>
      simp only [htake, path, chain, hgraft, reduceCtorEq, if_false, List.intercalate_singleton]
      split <;> split <;> first | rfl | omega
    | none =>
      have hpath : path node (parent :: above) = path parent above ++ [47] ++ node.label := by
        rw [path, chain, if_pos hgraft]
        exact intercalate_concat chain_ne_nil _
      simp only [htake, ih]
      rw [hpath, List.length_append, List.length_append, List.length_singleton]
      by_cases hroom : (path parent above).length + 1 + node.label.length + 1 ≤ bufsize
      · have hname := @write_write buf (path parent above ++ [47]) [] (node.label ++ [0])
          (Nat.zero_le _)
        rw [List.append_nil, List.length_append, List.length_singleton] at hname
        have hparent : (path parent above).length + 1 ≤ bufsize - node.label.length - 1 := by omega
        simp only [if_pos hparent, if_pos hroom, Int.toNat_natCast]
        rw [if_neg (by omega), if_neg (by omega), write_write _ [0] [47] (Nat.le_refl _), hname,
          List.append_assoc _ node.label]
        exact congrArg (·, _) (by omega)
      · have hparent : ¬ (path parent above).length + 1 ≤ bufsize - node.label.length - 1 := by omega
        simp only [if_neg hparent, if_neg hroom]
        split <;> rfl

/-- The call returns -1 exactly if there is no room for the path and its terminator, it never writes
behind the buffer, and otherwise it writes the path and returns its length. -/
theorem node_path_written (node : Node) (above : List Node) (buf : Buffer) (bufsize : Nat) :
    ((getNodePath node above buf bufsize).1 = -1 ↔ bufsize < (path node above).length + 1) ∧
      (∀ i ≥ bufsize, (getNodePath node above buf bufsize).2 i = buf i) ∧
      ((path node above).length + 1 ≤ bufsize → getNodePath node above buf bufsize =
        (((path node above).length : Int), write buf 0 (path node above ++ [0]))) := by
  rw [getNodePath_eq]
  by_cases h : (path node above).length + 1 ≤ bufsize
  · rw [if_pos h]
    refine ⟨by omega, fun i hi => ?_, fun _ => rfl⟩
    have hend : (path node above ++ [0])[i]? = none := List.getElem?_eq_none (by simp; omega)
    simp [write, hend]
  · rw [if_neg h]
    exact ⟨⟨fun _ => by omega, fun _ => rfl⟩, fun _ _ => rfl, fun h' => absurd h' h⟩

end SystemCore.Sdcard
