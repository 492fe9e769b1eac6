import Mathlib.Data.List.Find
import Mathlib.Data.List.Flatten
import Mathlib.Data.List.Infix
import SystemCore.Lib.Ascii

/-!
# The mount options of an fstab entry

`parse_flags` looks every option up in the table of mount flags, and adds those that it does not
find to `fs_options`. An option is found as soon as it begins with a name of the table, and
`strlcat` leaves out the last comma when there is no room for it. So the options are told apart
rightly exactly if none of them goes on behind a name of the table, and if those that are not in
the table leave room for a comma.
-/
namespace SystemCore.FsMgr

open Lib List

abbrev Text := List UInt8

/-- `struct flag_list`. -/
structure FlagEntry where
  name : Text
  flag : UInt32
  deriving DecidableEq, Repr

/-- `mount_flags`, up to the entry without a name. -/
def mountFlags : List FlagEntry :=
  [⟨ascii "noatime", 1024⟩, ⟨ascii "noexec", 8⟩, ⟨ascii "nosuid", 2⟩, ⟨ascii "nodev", 4⟩,
    ⟨ascii "nodiratime", 2048⟩, ⟨ascii "ro", 1⟩, ⟨ascii "rw", 0⟩, ⟨ascii "remount", 32⟩,
    ⟨ascii "bind", 4096⟩, ⟨ascii "rec", 16384⟩, ⟨ascii "unbindable", 131072⟩,
    ⟨ascii "private", 262144⟩, ⟨ascii "slave", 524288⟩, ⟨ascii "shared", 1048576⟩,
    ⟨ascii "defaults", 0⟩]

def comma : UInt8 := 44

def FS_OPTIONS_LEN : Nat := 1024

/-- The text between two commas, one piece after the other. -/
def pieces : Text → List Text
  | [] => [[]]
  | c :: s =>
    if c = comma then [] :: pieces s
    else (c :: (pieces s).headD []) :: (pieces s).tail

/-- What `strtok_r` finds: the pieces that are not empty. -/
def tokens (flags : Text) : List Text := (pieces flags).filter (· ≠ [])

/-- `strlcat`, for a buffer of `size` bytes. -/
def strlcat (dst src : Text) (size : Nat) : Text :=
  if dst.length < size then dst ++ src.take (size - dst.length - 1) else dst

/-- The loop over the table: `strncmp` compares as much as the name is long. -/
def findFlag (fl : List FlagEntry) (p : Text) : Option FlagEntry :=
  fl.find? fun e => e.name.isPrefixOf p

/-- One turn of the loop over the options. -/
def parseOption (fl : List FlagEntry) (size : Nat) (s : UInt32 × Text) (p : Text) : UInt32 × Text :=
  match findFlag fl p with
  | some e => (s.1 ||| e.flag, s.2)
  | none => (s.1, strlcat (strlcat s.2 p size) [comma] size)

/-- `parse_flags` without `flag_vals`: the flags, and `fs_options` without its last comma. -/
def parseFlags (flags : Text) (fl : List FlagEntry) (size : Nat) : UInt32 × Text :=
  let (f, fsOptions) := (tokens flags).foldl (parseOption fl size) (0, [])
  (f, if fsOptions ≠ [] then fsOptions.dropLast else fsOptions)

/-! ## What the options stand for -/

def others (fl : List FlagEntry) (flags : Text) : List Text :=
  (tokens flags).filter fun p => fl.all fun e => e.name ≠ p

def flagsOf (fl : List FlagEntry) (flags : Text) : UInt32 :=
  (tokens flags).foldl (fun f p => match fl.find? (fun e => e.name = p) with
    | some e => f ||| e.flag
    | none => f) 0

def listed (options : List Text) : Text := options.flatMap (· ++ [comma])

def Exact (fl : List FlagEntry) (flags : Text) : Prop :=
  ∀ p ∈ tokens flags, ∀ e ∈ fl, e.name <+: p → e.name = p

/-! ## Joining options -/

theorem listed_append (l l' : List Text) : listed (l ++ l') = listed l ++ listed l' :=
  flatMap_append

theorem listed_singleton (p : Text) : listed [p] = p ++ [comma] := by simp [listed]

/-- Joined by commas they are the list without the last comma. -/
theorem intercalate_eq (l : List Text) : List.intercalate [comma] l = (listed l).dropLast := by
  induction l with
  | nil => rfl
  | cons p l ih =>
    cases l with
    | nil => simp [listed]
    | cons p' l =>
      have hne : listed (p' :: l) ≠ [] := by simp [listed]
      have hcons : listed (p :: p' :: l) = p ++ [comma] ++ listed (p' :: l) := by simp [listed]
      rw [intercalate_cons_cons, ih, hcons, dropLast_append_of_ne_nil hne,
        append_assoc]

variable {l l' : List Text} (flags : Text)

theorem length_listed_le_of_sublist (h : l.Sublist l') : (listed l).length ≤ (listed l').length :=
  (h.flatMap _).length_le

/-- Leaving out an option shortens the list. -/
theorem eq_of_length_listed (h : l.Sublist l') (hlen : (listed l).length = (listed l').length) :
    l = l' := by
  induction h with
  | slnil => rfl
  | cons p h ih =>
    have := length_listed_le_of_sublist h
    simp only [listed, flatMap_cons, length_append, length_singleton] at hlen this
    omega
  | cons_cons p h ih =>
    simp only [listed, flatMap_cons, length_append] at hlen
    rw [ih (by simp only [listed]; omega)]

theorem length_pieces : (listed (pieces flags)).length = flags.length + 1 := by
  induction flags with
  | nil => rfl
  | cons c s ih =>
    unfold pieces
    split
    · rw [show listed ([] :: pieces s) = comma :: listed (pieces s) by simp [listed],
        length_cons, ih, length_cons]
    · cases hp : pieces s with
      | nil =>
        rw [hp] at ih
        cases ih
      | cons p ps =>
        rw [hp] at ih
        simp only [listed, flatMap_cons, length_append, headD_cons, tail_cons,
          length_cons] at ih ⊢
        omega

theorem length_tokens_le : (listed (tokens flags)).length ≤ flags.length + 1 := by
  rw [← length_pieces]
  exact length_listed_le_of_sublist filter_sublist

/-! ## What the loop computes -/

def unfound (fl : List FlagEntry) (flags : Text) : List Text :=
  (tokens flags).filter fun p => (findFlag fl p).isNone

theorem take_append_take (a b : Text) (n : Nat) :
    (a.take n ++ b.take (n - (a.take n).length)) = (a ++ b).take n := by
  rw [take_append, length_take]
  rcases Nat.le_total a.length n with h | h
  · rw [Nat.min_eq_right h]
  · rw [Nat.min_eq_left h, Nat.sub_self, Nat.sub_eq_zero_of_le h]

/-- `strlcat` cuts off what does not fit in front of the terminator. -/
theorem strlcat_take (a b : Text) {n : Nat} :
    strlcat (a.take n) b (n + 1) = (a ++ b).take n := by
  have hlen : (a.take n).length < n + 1 := Nat.lt_succ_of_le (length_take_le n a)
  rw [strlcat, if_pos hlen, show n + 1 - (a.take n).length - 1 = n - (a.take n).length by omega,
    take_append_take]

theorem foldl_parseOption (fl : List FlagEntry) (n : Nat) (l done : List Text) (f : UInt32) :
    (l.foldl (parseOption fl (n + 1)) (f, (listed done).take n)).2 =
      (listed (done ++ l.filter fun p => (findFlag fl p).isNone)).take n := by
  induction l generalizing done f with
  | nil => rw [filter_nil, append_nil]; rfl
  | cons p l ih =>
    rw [foldl_cons]
    cases hp : findFlag fl p with
    | some e =>
      simp only [parseOption, hp]
      rw [ih, filter_cons_of_neg (by simp [hp])]
    | none =>
      simp only [parseOption, hp]
      rw [strlcat_take, strlcat_take, append_assoc, ← listed_singleton, ← listed_append, ih,
        filter_cons_of_pos (by simp [hp]), append_assoc, singleton_append]

/-- `fs_options` are the options not found, as far as they fit. -/
theorem parseFlags_options (fl : List FlagEntry) (n : Nat) :
    (parseFlags flags fl (n + 1)).2 = ((listed (unfound fl flags)).take n).dropLast := by
  have hfold := foldl_parseOption fl n (tokens flags) [] 0
  rw [show (listed []).take n = [] from take_nil, nil_append] at hfold
  simp only [parseFlags, hfold]
  split
  · rfl
  · rename_i h
    rw [unfound, not_not.mp h]
    rfl

/-! ## When the options are told apart -/

section Exact

variable {fl : List FlagEntry} {flags : Text}

theorem unfound_sublist (fl : List FlagEntry) (flags : Text) :
    (unfound fl flags).Sublist (others fl flags) := by
  have himp : ∀ p, (findFlag fl p).isNone = true → (fl.all fun e => e.name ≠ p) = true := by
    intro p hp
    rw [all_eq_true]
    intro e he
    have := List.find?_eq_none.mp (Option.isNone_iff_eq_none.mp hp) e he
    simp only [ne_eq, decide_not, Bool.not_eq_eq_eq_not, Bool.not_true, decide_eq_false_iff_not]
    rintro rfl
    simp at this
  exact monotone_filter_right _ himp

/-- An option that is found without being a name is missing. -/
theorem exact_of_unfound_eq (hfree : ∀ e ∈ fl, ∀ e' ∈ fl, e.name <+: e'.name → e.name = e'.name)
    (h : unfound fl flags = others fl flags) : Exact fl flags := by
  intro p hp e he hpre
  by_contra hne
  have hother : p ∈ others fl flags := by
    refine mem_filter.mpr ⟨hp, all_eq_true.mpr fun e' he' => ?_⟩
    have hne' : e'.name ≠ p := by
      rintro rfl
      exact hne (hfree e he e' he' hpre)
    exact decide_eq_true hne'
  rw [← h] at hother
  have hnone := Option.isNone_iff_eq_none.mp (mem_filter.mp hother).2
  exact List.find?_eq_none.mp hnone e he (List.isPrefixOf_iff_prefix.mpr hpre)

theorem findFlag_of_exact (h : Exact fl flags) {p : Text} (hp : p ∈ tokens flags) :
    findFlag fl p = fl.find? fun e => e.name = p := by
  apply List.find?_congr
  intro e he
  rw [Bool.eq_iff_iff, isPrefixOf_iff_prefix, decide_eq_true_iff]
  constructor
  · exact h p hp e he
  · rintro rfl
    exact prefix_rfl

theorem unfound_of_exact (h : Exact fl flags) : unfound fl flags = others fl flags := by
  apply filter_congr
  intro p hp
  rw [findFlag_of_exact h hp, Bool.eq_iff_iff, Option.isNone_iff_eq_none, List.find?_eq_none,
    all_eq_true]
  simp

theorem flags_of_exact (h : Exact fl flags) (size : Nat) :
    (parseFlags flags fl size).1 = flagsOf fl flags := by
  have hfold : ∀ (l : List Text), (∀ p ∈ l, p ∈ tokens flags) → ∀ (f : UInt32) (o : Text),
      (l.foldl (parseOption fl size) (f, o)).1 =
        l.foldl (fun f p => match fl.find? (fun e => e.name = p) with
          | some e => f ||| e.flag
          | none => f) f := by
    intro l hl
    induction l with
    | nil => intro f o; rfl
    | cons p l ih =>
      intro f o
      have hp := findFlag_of_exact h (hl p mem_cons_self)
      rw [foldl_cons, foldl_cons, ← hp]
      cases hf : findFlag fl p with
      | some e =>
        simp only [parseOption, hf]
        exact ih (fun q hq => hl q (mem_cons_of_mem p hq)) _ _
      | none =>
        simp only [parseOption, hf]
        exact ih (fun q hq => hl q (mem_cons_of_mem p hq)) _ _
  exact hfold (tokens flags) (fun p hp => hp) 0 []

end Exact

/-- No name of the table begins with another one. -/
theorem mountFlags_free :
    ∀ e ∈ mountFlags, ∀ e' ∈ mountFlags, e.name <+: e'.name → e.name = e'.name := by decide

theorem two_le_listed {fl : List FlagEntry} {flags p : Text} (hp : p ∈ others fl flags) :
    2 ≤ (listed (others fl flags)).length := by
  have htoken := (mem_filter.mp hp).1
  have hne : p ≠ [] := of_decide_eq_true (mem_filter.mp htoken).2
  have hpos := length_pos_iff.mpr hne
  have hle := length_listed_le_of_sublist (singleton_sublist.mpr hp)
  rw [listed_singleton, length_append, length_singleton] at hle
  omega

/-- For an option string that fits the buffer, the flags are those of the options that are in the
table and `fs_options` are the other options joined by commas, exactly if no option goes on behind
a name of the table and the other options leave room for a comma. -/
theorem mount_options_iff (flags : Text) (hlen : flags.length < 1024) :
    parseFlags flags mountFlags FS_OPTIONS_LEN =
        (flagsOf mountFlags flags, List.intercalate [comma] (others mountFlags flags)) ↔
      Exact mountFlags flags ∧ (List.intercalate [comma] (others mountFlags flags)).length < 1023 := by
  have hoptions := parseFlags_options flags mountFlags 1023
  have hbound : (listed (others mountFlags flags)).length ≤ 1024 :=
    (length_listed_le_of_sublist filter_sublist).trans
      ((length_tokens_le flags).trans (by omega))
  have hsub := length_listed_le_of_sublist (unfound_sublist mountFlags flags)
  rw [intercalate_eq, length_dropLast]
  constructor
  · intro h
    have hsame := congrArg (fun r => r.2.length) h
    change (parseFlags flags mountFlags (1023 + 1)).2.length = _ at hsame
    rw [hoptions, length_dropLast, length_take, length_dropLast] at hsame
    -- the two lists of options are equally long, so that none is missing and no comma is
    have hlengths : (listed (unfound mountFlags flags)).length =
        (listed (others mountFlags flags)).length ∧
        (listed (others mountFlags flags)).length ≤ 1023 := by
      cases ho : others mountFlags flags with
      | nil =>
        rw [ho] at hsub
        simp only [listed, flatMap_nil, length_nil] at hsub ⊢
        omega
      | cons p l =>
        have htwo := two_le_listed (p := p) (by rw [ho]; exact mem_cons_self)
        rw [ho] at htwo hsame hsub hbound
        omega
    obtain ⟨heq, hle⟩ := hlengths
    exact ⟨exact_of_unfound_eq mountFlags_free
      (eq_of_length_listed (unfound_sublist mountFlags flags) heq), by omega⟩
  · rintro ⟨hexact, hroom⟩
    refine Prod.ext (flags_of_exact hexact _) ?_
    change (parseFlags flags mountFlags (1023 + 1)).2 = _
    rw [hoptions, unfound_of_exact hexact, take_of_length_le (by omega)]

theorem mount_options_known : parseFlags (ascii "ro,noatime,errors=panic") mountFlags FS_OPTIONS_LEN =
    (flagsOf mountFlags (ascii "ro,noatime,errors=panic"),
      List.intercalate [comma] (others mountFlags (ascii "ro,noatime,errors=panic"))) :=
  (mount_options_iff (ascii "ro,noatime,errors=panic") (by decide)).mpr
    ⟨by unfold Exact; decide +kernel, by decide +kernel⟩

/-- The option `rodir` of vfat becomes a read-only mount, and is not passed on. -/
theorem rodir_mounts_read_only : parseFlags (ascii "rodir") mountFlags FS_OPTIONS_LEN = (1, []) ∧
    flagsOf mountFlags (ascii "rodir") = 0 ∧
    List.intercalate [comma] (others mountFlags (ascii "rodir")) = ascii "rodir" := by
  decide +kernel

end SystemCore.FsMgr
