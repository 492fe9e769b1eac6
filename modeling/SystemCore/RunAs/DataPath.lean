import Mathlib.Data.List.Infix

/-!
# The data path of `run-as`

`check_data_path` looks at a path wherever it meets a separator: what is in front of it must not end
in `..` and must be a directory of the system. At a separator that ends the path it stops before
these checks, and a last component without a separator never gets to them. The file system is what
`lstat` says about a path; behind a separator at its end `lstat` follows a link.
-/
namespace SystemCore.RunAs

abbrev Path := List UInt8

def PATH_MAX : Nat := 4096

def AID_SYSTEM : UInt32 := 1000

structure Stat where
  mode : UInt32
  uid : UInt32
  gid : UInt32
  deriving DecidableEq, Repr

/-- What `lstat` ends with when it is not interrupted. -/
abbrev FileSystem := Path → Option Stat

/-- `S_ISDIR`. -/
def Stat.isDir (st : Stat) : Bool := st.mode &&& 0o170000 == 0o040000

/-- `S_ISLNK`. -/
def Stat.isLink (st : Stat) : Bool := st.mode &&& 0o170000 == 0o120000

/-- `S_IROTH|S_IWOTH`. -/
def OTHERS : UInt32 := 0o006

def checkDirectoryOwnership (lstat : FileSystem) (path : Path) (uid : UInt32) : Bool :=
  match lstat path with
  | none => false
  | some st =>
    if !st.isDir then false
    else if st.uid ≠ uid ∨ st.gid ≠ uid then false
    else if st.mode &&& OTHERS ≠ 0 then false
    else true

/-- The characters `/..`. -/
def dotDot : Path := [47, 46, 46]

/-- The loop of `check_data_path`: `seen` is the path up to `nn`. -/
def checkSubpaths (lstat : FileSystem) (seen : Path) : Path → Bool
  | [] => true
  | c :: rest =>
    if c ≠ 47 then checkSubpaths lstat (seen ++ [c]) rest
    else if rest = [] then true
    else if PATH_MAX ≤ seen.length then false
    else if dotDot <:+ seen then false
    else if checkDirectoryOwnership lstat seen AID_SYSTEM = false then false
    else checkSubpaths lstat (seen ++ [c]) rest

def checkDataPath (lstat : FileSystem) (dataPath : Path) (uid : UInt32) : Bool :=
  match dataPath with
  | [] => false
  | c :: rest =>
    if c ≠ 47 then false
    else checkSubpaths lstat [c] rest && checkDirectoryOwnership lstat dataPath uid

/-! ## What is to be checked -/

/-- A real directory of this user and group that others can neither read nor write. -/
def ClosedDirectory (lstat : FileSystem) (path : Path) (uid : UInt32) : Prop :=
  ∃ st, lstat path = some st ∧ st.isDir = true ∧ st.uid = uid ∧ st.gid = uid ∧
    st.mode &&& OTHERS = 0

/-- The component stands in the path, between separators or at an end of it. -/
def HasComponent (path component : Path) : Prop :=
  ∃ front back, path = front ++ component ++ back ∧
    (front = [] ∨ ∃ front', front = front' ++ [47]) ∧ (back = [] ∨ ∃ back', back = 47 :: back')

/-- The path without a separator at its end. -/
def trimmed (path : Path) : Path :=
  if path.dropLast ≠ [] ∧ path.getLast? = some 47 then path.dropLast else path

structure SafePath (lstat : FileSystem) (path : Path) (uid : UInt32) : Prop where
  absolute : path.head? = some 47
  noParent : ¬ HasComponent path [46, 46]
  subpaths : ∀ sub rest, path = sub ++ 47 :: rest → sub ≠ [] → rest ≠ [] →
    ClosedDirectory lstat sub AID_SYSTEM
  whole : ClosedDirectory lstat (trimmed path) uid

/-- The last component, with or without a separator behind it, is not `..`. -/
def LastNotParent (path : Path) : Prop := ¬ dotDot <:+ path ∧ ¬ dotDot ++ [47] <:+ path

/-- With a separator behind it a name is the same thing, unless it is a link. -/
def FollowsLinks (lstat : FileSystem) : Prop :=
  ∀ sub st, sub ≠ [] → lstat (sub ++ [47]) = some st →
    lstat sub = some st ∨ ∃ link, lstat sub = some link ∧ link.isLink = true

/-- What stands in front of a separator at the end of the path is a link. -/
def EndsInLink (lstat : FileSystem) (path : Path) : Prop :=
  ∃ sub link, path = sub ++ [47] ∧ sub ≠ [] ∧ lstat sub = some link ∧ link.isLink = true

/-! ## The loop -/

section Check

variable {lstat : FileSystem} {path : Path} {uid : UInt32}

theorem checkDirectoryOwnership_iff :
    checkDirectoryOwnership lstat path uid = true ↔ ClosedDirectory lstat path uid := by
  unfold checkDirectoryOwnership ClosedDirectory
  cases hstat : lstat path with
  | none => simp
  | some st =>
    by_cases hdir : st.isDir = true
    · by_cases howner : st.uid = uid ∧ st.gid = uid
      · simp [hdir, howner.1, howner.2]
      · have hwrong : st.uid ≠ uid ∨ st.gid ≠ uid := not_and_or.mp howner
        simp only [hdir, Bool.not_true, Bool.false_eq_true, if_false, if_pos hwrong, false_iff]
        rintro ⟨st', hst', -, huid, hgid, -⟩
        obtain rfl := Option.some.inj hst'
        exact howner ⟨huid, hgid⟩
    · simp [hdir]

def Passed (lstat : FileSystem) (sub : Path) : Prop :=
  sub.length < PATH_MAX ∧ ¬ dotDot <:+ sub ∧ ClosedDirectory lstat sub AID_SYSTEM

/-- One step: the loop goes on, and at a separator the path so far has passed. -/
theorem checkSubpaths_step {seen rest : Path} {c : UInt8}
    (h : checkSubpaths lstat seen (c :: rest) = true) (hrest : rest ≠ []) :
    checkSubpaths lstat (seen ++ [c]) rest = true ∧ (c = 47 → Passed lstat seen) := by
  rw [checkSubpaths] at h
  by_cases hc : c = 47
  · rw [if_neg (not_not.mpr hc), if_neg hrest] at h
    split at h
    · exact absurd h (by decide)
    · next hlength =>
      split at h
      · exact absurd h (by decide)
      · next hdots =>
        split at h
        · exact absurd h (by decide)
        · next hclosed =>
          refine ⟨h, fun _ => ⟨by omega, hdots, ?_⟩⟩
          exact checkDirectoryOwnership_iff.mp (Bool.not_eq_false _ ▸ hclosed)
  · rw [if_pos hc] at h
    exact ⟨h, fun hsep => absurd hsep hc⟩

/-- The loop passes every sub-path in front of a separator that does not end the path. -/
theorem checkSubpaths_passed {seen sub back : Path} (hback : back ≠ [])
    (h : checkSubpaths lstat seen (sub ++ 47 :: back) = true) : Passed lstat (seen ++ sub) := by
  induction sub generalizing seen with
  | nil =>
    rw [List.append_nil]
    exact (checkSubpaths_step h hback).2 rfl
  | cons c sub ih =>
    have hrest : sub ++ 47 :: back ≠ [] :=
      List.append_ne_nil_of_right_ne_nil sub (List.cons_ne_nil 47 back)
    have hpassed := ih (checkSubpaths_step h hrest).1
    rwa [List.append_assoc, List.singleton_append] at hpassed

/-- What an accepted path is known to be. -/
theorem checkDataPath_passed (h : checkDataPath lstat path uid = true) :
    path.head? = some 47 ∧ ClosedDirectory lstat path uid ∧
      ∀ sub back, path = sub ++ 47 :: back → sub ≠ [] → back ≠ [] → Passed lstat sub := by
  cases path with
  | nil => exact absurd h (by simp [checkDataPath])
  | cons c rest =>
    rw [checkDataPath] at h
    split at h
    · exact absurd h (by decide)
    · next hc =>
      obtain rfl := not_not.mp hc
      obtain ⟨hloop, hwhole⟩ := Bool.and_eq_true_iff.mp h
      refine ⟨rfl, checkDirectoryOwnership_iff.mp hwhole, fun sub back hpath hsub hback => ?_⟩
      obtain ⟨d, sub, rfl⟩ := List.exists_cons_of_ne_nil hsub
      obtain ⟨rfl, hrest⟩ := List.cons.inj hpath
      rw [hrest] at hloop
      exact checkSubpaths_passed hback hloop

/-- Only as the last component can `..` stand in an accepted path. -/
theorem noParent_iff (h : checkDataPath lstat path uid = true) :
    ¬ HasComponent path [46, 46] ↔ LastNotParent path := by
  obtain ⟨hhead, -, hpassed⟩ := checkDataPath_passed h
  constructor
  · intro hnone
    refine ⟨fun ⟨front, hfront⟩ => hnone ?_, fun ⟨front, hfront⟩ => hnone ?_⟩
    · exact ⟨front ++ [47], [], by rw [← hfront]; simp [dotDot], .inr ⟨front, rfl⟩, .inl rfl⟩
    · exact ⟨front ++ [47], [47], by rw [← hfront]; simp [dotDot], .inr ⟨front, rfl⟩, .inr ⟨[], rfl⟩⟩
  · rintro ⟨hlast, htrailing⟩ ⟨front, back, hpath, hfront | ⟨front', rfl⟩, hback⟩
    · rw [hpath, hfront] at hhead
      exact absurd hhead (by simp)
    · have hdots : path = (front' ++ dotDot) ++ back := by rw [hpath]; simp [dotDot]
      obtain rfl | ⟨back', rfl⟩ := hback
      · exact hlast ⟨front', by rw [hdots, List.append_nil]⟩
      · by_cases hend : back' = []
        · subst hend
          exact htrailing ⟨front', by rw [hdots, List.append_assoc]⟩
        · have hsub : front' ++ dotDot ≠ [] :=
            List.append_ne_nil_of_right_ne_nil front' (by decide)
          exact (hpassed _ back' hdots hsub hend).2.1 (List.suffix_append front' dotDot)

theorem trimmed_snoc {sub : Path} (h : sub ≠ []) : trimmed (sub ++ [47]) = sub := by
  rw [trimmed, List.dropLast_concat, if_pos ⟨h, by simp⟩]

theorem trimmed_cases (path : Path) :
    trimmed path = path ∨ ∃ sub, path = sub ++ [47] ∧ sub ≠ [] := by
  unfold trimmed
  split
  · rename_i h
    refine .inr ⟨path.dropLast, ?_, h.1⟩
    exact (List.dropLast_append_getLast? 47 h.2).symm
  · exact .inl rfl

theorem Stat.not_isLink_of_isDir {st : Stat} (h : st.isDir = true) : st.isLink = false := by
  simp only [Stat.isDir, beq_iff_eq] at h
  simp [Stat.isLink, h]

/-- The whole of an accepted path is a directory exactly if no link stands at its end. -/
theorem closed_trimmed_iff (hfs : FollowsLinks lstat) (h : ClosedDirectory lstat path uid) :
    ClosedDirectory lstat (trimmed path) uid ↔ ¬ EndsInLink lstat path := by
  constructor
  · rintro ⟨st, hst, hdir, -⟩ ⟨sub, link, rfl, hsub, hlink, his⟩
    rw [trimmed_snoc hsub, hlink] at hst
    obtain rfl := Option.some.inj hst
    rw [Stat.not_isLink_of_isDir hdir] at his
    cases his
  · intro hlink
    obtain he | ⟨sub, rfl, hsub⟩ := trimmed_cases path
    · rwa [he]
    · rw [trimmed_snoc hsub]
      obtain ⟨st, hst, hclosed⟩ := h
      obtain hsame | ⟨link, hl, his⟩ := hfs sub st hsub hst
      · exact ⟨st, hsame, hclosed⟩
      · exact absurd ⟨sub, link, rfl, hsub, hl, his⟩ hlink

end Check

/-- A path that `check_data_path` accepts is safe exactly if its last component is not `..` and no
link stands in front of a separator at its end. -/
theorem check_data_path_safe_iff (lstat : FileSystem) (hfs : FollowsLinks lstat) (path : Path)
    (uid : UInt32) (h : checkDataPath lstat path uid = true) :
    SafePath lstat path uid ↔ LastNotParent path ∧ ¬ EndsInLink lstat path := by
  obtain ⟨hhead, hwhole, hpassed⟩ := checkDataPath_passed h
  rw [← noParent_iff h, ← closed_trimmed_iff hfs hwhole]
  constructor
  · exact fun hsafe => ⟨hsafe.noParent, hsafe.whole⟩
  · rintro ⟨hparent, hclosed⟩
    refine ⟨hhead, hparent, fun sub rest hpath hsub hrest => ?_, hclosed⟩
    exact (hpassed sub rest hpath hsub hrest).2.2

/-- `/d` is a directory of the system, `/d/a` one of user 10001, and `/d/l` a link to that. -/
def linked : FileSystem := fun path =>
  if path = [47, 100] then some ⟨0o040771, AID_SYSTEM, AID_SYSTEM⟩
  else if path = [47, 100, 47, 108] then some ⟨0o120777, 0, 0⟩
  else if path = [47, 100, 47, 97] ∨ path = [47, 100, 47, 97, 47] ∨ path = [47, 100, 47, 108, 47] then
    some ⟨0o040700, 10001, 10001⟩
  else none

theorem linked_followsLinks : FollowsLinks linked := by
  intro sub st _ h
  have hlast : ∀ {path : Path}, sub ++ [47] = path → path.getLast? = some 47 := by
    rintro _ rfl
    simp
  unfold linked at h
  split_ifs at h with h₁ h₂ h₃
  · exact absurd (hlast h₁) (by decide)
  · exact absurd (hlast h₂) (by decide)
  · obtain h₃ | h₃ | h₃ := h₃
    · exact absurd (hlast h₃) (by decide)
    · obtain rfl : sub = [47, 100, 47, 97] := List.append_cancel_right h₃
      exact .inl (h ▸ by decide)
    · obtain rfl : sub = [47, 100, 47, 108] := List.append_cancel_right h₃
      exact .inr ⟨⟨0o120777, 0, 0⟩, by decide, by decide⟩

/-- A separator behind the directory of the user does no harm. -/
theorem trailing_separator_safe : SafePath linked [47, 100, 47, 97, 47] 10001 := by
  refine (check_data_path_safe_iff linked linked_followsLinks _ _ (by decide)).mpr
    ⟨⟨by decide, by decide⟩, ?_⟩
  rintro ⟨sub, link, hsub, -, hlink, his⟩
  obtain rfl : [47, 100, 47, 97] = sub := List.append_cancel_right hsub
  have hdir : linked [47, 100, 47, 97] = some ⟨0o040700, 10001, 10001⟩ := by decide
  obtain rfl := Option.some.inj (hdir.symm.trans hlink)
  exact absurd his (by decide)

/-- `/d/l/` is accepted, where `/d/l` is a link. -/
theorem link_accepted : FollowsLinks linked ∧
    checkDataPath linked [47, 100, 47, 108, 47] 10001 = true ∧
      ¬ SafePath linked [47, 100, 47, 108, 47] 10001 := by
  refine ⟨linked_followsLinks, by decide, fun hsafe => ?_⟩
  have hclosed : ClosedDirectory linked [47, 100, 47, 108] 10001 := hsafe.whole
  obtain ⟨st, hst, hdir, -⟩ := hclosed
  have hlink : linked [47, 100, 47, 108] = some ⟨0o120777, 0, 0⟩ := by decide
  obtain rfl := Option.some.inj (hlink.symm.trans hst)
  exact absurd hdir (by decide)

end SystemCore.RunAs
