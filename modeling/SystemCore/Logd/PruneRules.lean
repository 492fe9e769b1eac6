import SystemCore.Lib.Ascii
import SystemCore.Logd.LogBuffer

/-!
# The text of the black and white lists

`PruneList::init` reads a text of rules between white space, and `format` writes one. A rule is a
uid, a pid or both; with `~` or `!` in front it is for the black list, and `~!` or `!!` alone
stands for the worst uid. The lists are kept in order and free of rules that another one of the
same uid covers. The text is the content of the C string.
-/
namespace SystemCore.Logd

open Lib List

variable {μ : Type} (str : List UInt8)

namespace PruneList

/-! ## Reading -/

/-- A number so far, and the text from the first character that is no digit. -/
def digitLoop {α : Type} (next : α → UInt8 → α) : α → List UInt8 → α × List UInt8
  | n, [] => (n, [])
  | n, c :: str => if isDigit c then digitLoop next (next n c) str else (n, c :: str)

/-- The number at the beginning of the text, `all` if there is none. -/
def readNumber {α : Type} (all zero : α) (next : α → UInt8 → α) : List UInt8 → α × List UInt8
  | [] => (all, [])
  | c :: str => if isDigit c then digitLoop next zero (c :: str) else (all, c :: str)

def nextUid (uid : UInt32) (c : UInt8) : UInt32 := uid * 10 + UInt32.ofNat c.toNat - 48

def nextPid (pid : Int32) (c : UInt8) : Int32 := pid * 10 + Int32.ofNat c.toNat - 48

def readUid (str : List UInt8) : UInt32 × List UInt8 := readNumber Prune.uidAll 0 nextUid str

def readPid : List UInt8 → Int32 × List UInt8
  | [] => (Prune.pidAll, [])
  | c :: str => if c = 47 then readNumber Prune.pidAll 0 nextPid str else (Prune.pidAll, c :: str)

/-- A rule, and the text behind it. -/
def readRule (str : List UInt8) : Prune × List UInt8 :=
  let (uid, str) := readUid str
  let (pid, str) := readPid str
  (⟨uid, pid⟩, str)

/-- The rule in its place, without the rules that it covers, unless there is one that covers it. -/
def insertLoop (rule : Prune) : List Prune → List Prune
  | [] => [rule]
  | p :: list =>
    let m := (rule.mUid - p.mUid).toInt32
    if m = 0 then
      if p.mPid = Prune.pidAll then p :: list
      else if rule.mPid = Prune.pidAll then insertLoop rule list
      else
        let m := rule.mPid - p.mPid
        if m < 0 then rule :: p :: list
        else if m = 0 then p :: list
        else p :: insertLoop rule list
    else if m < 0 then rule :: p :: list
    else p :: insertLoop rule list

def insert (naughty : Bool) (rule : Prune) (l : PruneList) : PruneList :=
  if naughty then { l with mNaughty := insertLoop rule l.mNaughty }
  else { l with mNice := insertLoop rule l.mNice }

variable {α : Type}

theorem length_digitLoop (next : α → UInt8 → α) :
    ∀ (str : List UInt8) (n : α), (digitLoop next n str).2.length ≤ str.length
  | [], _ => Nat.le_refl _
  | c :: str, n => by
    unfold digitLoop
    split
    · exact Nat.le_succ_of_le (length_digitLoop next str _)
    · exact Nat.le_refl _

theorem length_readNumber (all zero : α) (next : α → UInt8 → α) (str : List UInt8) :
    (readNumber all zero next str).2.length ≤ str.length := by
  unfold readNumber
  split
  · exact Nat.le_refl _
  · split
    · exact length_digitLoop next _ zero
    · exact Nat.le_refl _

theorem length_readRule : (readRule str).2.length ≤ str.length := by
  have huid := length_readNumber Prune.uidAll 0 nextUid str
  have hpid : ∀ str, (readPid str).2.length ≤ str.length := by
    intro str
    unfold readPid
    split
    · exact Nat.le_refl _
    · split
      · exact Nat.le_succ_of_le (length_readNumber _ _ _ _)
      · exact Nat.le_refl _
  exact (hpid (readUid str).2).trans huid

/-- The loop of `init`: the value returned and the lists. -/
def scan (l : PruneList) : List UInt8 → Int × PruneList
  | [] => (0, l)
  | c :: str =>
    if isSpace c then scan l str
    else if (c = 126 ∨ c = 33) ∧ str.head? = some 33 then
      let l := { l with mWorstUidEnabled := true }
      match _hrest : str.tail with
      | [] => (0, l)
      | d :: rest => if isSpace d then scan l rest else (1, l)
    else if (c = 126 ∨ c = 33) ∧ str = [] then (1, l)
    else
      let naughty : Bool := c = 126 ∨ c = 33
      let r := readRule (if naughty then str else c :: str)
      if r.1 = ⟨Prune.uidAll, Prune.pidAll⟩ then (1, l)
      else
        match _hrest : r.2 with
        | [] => (0, l.insert naughty r.1)
        | d :: rest => if isSpace d then scan (l.insert naughty r.1) rest else (1, l)
termination_by str => str.length
decreasing_by
  · exact Nat.lt_succ_self _
  · have hlen := congrArg List.length _hrest
    rw [List.length_tail, List.length_cons] at hlen
    rw [List.length_cons]
    omega
  · have hlen := length_readRule (if naughty then str else c :: str)
    have hsub : (if naughty then str else c :: str).length ≤ (c :: str).length := by
      split
      · exact Nat.le_succ _
      · exact Nat.le_refl _
    change r.2.length ≤ _ at hlen
    rw [_hrest, List.length_cons] at hlen
    omega

/-- `init`: the lists are emptied first, and without a text that is all. -/
def init : Option (List UInt8) → Int × PruneList
  | none => (0, ⟨[], [], true⟩)
  | some str => scan ⟨[], [], false⟩ str

end PruneList

/-! ## Writing -/

def Prune.format (p : Prune) : List UInt8 :=
  if p.mUid ≠ Prune.uidAll then
    if p.mPid ≠ Prune.pidAll then decimal p.mUid.toNat ++ 47 :: decimal p.mPid.toUInt32.toNat
    else decimal p.mUid.toNat
  else if p.mPid ≠ Prune.pidAll then 47 :: decimal p.mPid.toUInt32.toNat
  else [47]

namespace PruneList

/-- Append the rules of a list. The separator is there from the second word of the text on. -/
def formatLoop (mark : List UInt8) : Bool → List UInt8 → List Prune → Bool × List UInt8
  | separate, string, [] => (separate, string)
  | separate, string, p :: list =>
    formatLoop mark true (string ++ ((if separate then [32] else []) ++ mark ++ p.format)) list

def format (l : PruneList) : List UInt8 :=
  let (separate, string) := if l.mWorstUidEnabled then (true, [126, 33]) else (false, [])
  let (separate, string) := formatLoop [] separate string l.mNice
  (formatLoop [126] separate string l.mNaughty).2

/-! ## What a text means -/

def words (str : List UInt8) : List (List UInt8) := (str.splitOnP isSpace).filter (· ≠ [])

/-- A number in decimal digits, or nothing. -/
def number (ds : List UInt8) : Option Nat := if ds = [] then none else some (decimalValue ds)

/-- The uid and the pid of a rule: `uid`, `uid/`, `uid/pid` or `/pid`. -/
def ruleOf (w : List UInt8) : Option (Option Nat × Option Nat) :=
  match w.dropWhile isDigit with
  | [] => if w = [] then none else some (number w, none)
  | c :: pid =>
    if c = 47 ∧ pid.all isDigit = true ∧ ¬ (w.takeWhile isDigit = [] ∧ pid = []) then
      some (number (w.takeWhile isDigit), number pid)
    else none

inductive Token where
  | worst
  | rule (naughty : Bool) (uid pid : Option Nat)
  deriving DecidableEq, Repr

def token : List UInt8 → Option Token
  | [] => none
  | c :: w =>
    if c = 126 ∨ c = 33 then
      if w = [33] then some .worst else (ruleOf w).map fun r => .rule true r.1 r.2
    else (ruleOf (c :: w)).map fun r => .rule false r.1 r.2

/-- A rule is for the elements of its uid and its pid, of all if it has none. -/
def Matches (uid pid : Option Nat) (e : LogBufferElement μ) : Prop :=
  (∀ u ∈ uid, e.mUid.toNat = u) ∧ ∀ p ∈ pid, e.mPid.toInt = p

def Token.Small : Token → Prop
  | .worst => True
  | .rule _ uid pid => (∀ u ∈ uid, u < 2 ^ 31) ∧ ∀ p ∈ pid, p < 2 ^ 31

instance : ∀ t : Token, Decidable t.Small
  | .worst => inferInstanceAs (Decidable True)
  | .rule .. => inferInstanceAs (Decidable (_ ∧ _))

/-! ## Words and characters -/

/-- The characters at the front of a text that pass a test, and the rest. -/
theorem exists_span (test : UInt8 → Bool) (str : List UInt8) : ∃ w rest, str = w ++ rest ∧
    (∀ x ∈ w, test x = true) ∧ ∀ x ∈ rest.head?, test x = false := by
  refine ⟨str.takeWhile test, str.dropWhile test, takeWhile_append_dropWhile.symm,
    fun x hx => mem_takeWhile_imp hx, fun x hx => ?_⟩
  have hhead := List.head?_dropWhile_not test str
  rw [Option.mem_def.mp hx] at hhead
  exact hhead

def Ends (str : List UInt8) : Prop := ∀ c ∈ str.head?, isSpace c = true

variable {c : UInt8} {w ds rest : List UInt8} {l l' : PruneList} {naughty : Bool}
  {e : LogBufferElement μ} {uid pid : Option Nat} {ws : List (List UInt8)} {t : Token}
  {list : List Prune}

theorem not_isDigit_of_isSpace (h : isSpace c = true) : isDigit c = false := by
  unfold isSpace at h
  unfold isDigit
  rw [decide_eq_true_eq] at h
  rw [decide_eq_false_iff_not]
  rintro ⟨hlow, -⟩
  rw [UInt8.le_iff_toNat_le] at hlow
  change 48 ≤ c.toNat at hlow
  rcases h with rfl | ⟨-, hhigh⟩
  · exact absurd hlow (by decide)
  · rw [UInt8.le_iff_toNat_le] at hhigh
    change c.toNat ≤ 13 at hhigh
    omega

theorem words_cons_space (h : isSpace c = true) (str : List UInt8) :
    words (c :: str) = words str := by
  have hsplit : ([] ++ c :: str).splitOnP isSpace = [] :: str.splitOnP isSpace :=
    splitOnP_append_cons_of_forall_mem (fun x hx => absurd hx not_mem_nil) c h str
  unfold words
  rw [nil_append] at hsplit
  rw [hsplit]
  exact filter_cons_of_neg (by simp)

theorem words_append_space (s t : List UInt8) : words (s ++ 32 :: t) = words s ++ words t := by
  unfold words
  rw [splitOnP_append_cons s t (by decide), filter_append]

theorem words_single (hw : ∀ c ∈ w, isSpace c = false) (hne : w ≠ []) : words w = [w] := by
  unfold words
  rw [splitOnP_eq_singleton hw]
  exact filter_cons_of_pos (decide_eq_true hne)

theorem words_first (hw : ∀ c ∈ w, isSpace c = false) (hne : w ≠ []) (hrest : Ends rest) :
    words (w ++ rest) = w :: words rest := by
  cases rest with
  | nil =>
    rw [append_nil]
    exact words_single hw hne
  | cons d rest =>
    rw [words_cons_space (hrest d rfl)]
    unfold words
    rw [splitOnP_append_cons_of_forall_mem hw d (hrest d rfl) rest]
    exact filter_cons_of_pos (decide_eq_true hne)

/-! ## Numbers -/

theorem le_of_isDigit (h : isDigit c = true) : 48 ≤ c.toNat := by
  have hlow := (of_decide_eq_true h).1
  rw [UInt8.le_iff_toNat_le] at hlow
  exact hlow

def pruneOf (uid pid : Option Nat) : Prune :=
  ⟨uid.elim Prune.uidAll UInt32.ofNat, pid.elim Prune.pidAll Int32.ofNat⟩

/-- The rule of a word, by the digits at its front and what is behind them. -/
def ruleBehind (ds : List UInt8) : List UInt8 → Option (Option Nat × Option Nat)
  | [] => if ds = [] then none else some (number ds, none)
  | c :: pid =>
    if c = 47 ∧ pid.all isDigit = true ∧ ¬ (ds = [] ∧ pid = []) then some (number ds, number pid)
    else none

section Digits

variable {α : Type} (next : α → UInt8 → α) (hds : ∀ c ∈ ds, isDigit c = true)
  (hrest : ∀ c ∈ rest.head?, isDigit c = false)

include hds

/-- Reading in a type that numbers go into. -/
theorem foldl_next (ofNat : Nat → α)
    (hnext : ∀ n c, isDigit c = true → next (ofNat n) c = ofNat (n * 10 + (c.toNat - 48)))
    (n : Nat) :
    ds.foldl next (ofNat n) = ofNat (ds.foldl (fun n c => n * 10 + (c.toNat - 48)) n) := by
  induction ds generalizing n with
  | nil => rfl
  | cons c ds ih =>
    rw [foldl_cons, foldl_cons, hnext n c (hds c mem_cons_self)]
    exact ih (fun d hd => hds d (mem_cons_of_mem _ hd)) _

theorem foldl_nextUid : ds.foldl nextUid 0 = UInt32.ofNat (decimalValue ds) := by
  refine foldl_next nextUid hds UInt32.ofNat (fun n c hc => ?_) 0
  rw [← Nat.add_sub_assoc (le_of_isDigit hc), UInt32.ofNat_sub (by have := le_of_isDigit hc; omega),
    UInt32.ofNat_add, UInt32.ofNat_mul]
  rfl

theorem foldl_nextPid : ds.foldl nextPid 0 = Int32.ofNat (decimalValue ds) := by
  refine foldl_next nextPid hds Int32.ofNat (fun n c hc => ?_) 0
  rw [← Nat.add_sub_assoc (le_of_isDigit hc),
    Int32.ofNat_sub _ _ (by have := le_of_isDigit hc; omega), Int32.ofNat_add, Int32.ofNat_mul]
  rfl

include hrest

theorem digitLoop_append :
    ∀ n, digitLoop next n (ds ++ rest) = (ds.foldl next n, rest) := by
  induction ds with
  | nil =>
    intro n
    cases rest with
    | nil => rfl
    | cons c rest => exact if_neg (ne_true_of_eq_false (hrest c rfl))
  | cons c ds ih =>
    intro n
    change (if isDigit c then digitLoop next (next n c) (ds ++ rest) else _) = _
    rw [if_pos (hds c mem_cons_self), ih fun d hd => hds d (mem_cons_of_mem _ hd)]
    rfl

theorem readNumber_append (all zero : α) :
    readNumber all zero next (ds ++ rest) = (if ds = [] then all else ds.foldl next zero, rest) := by
  cases ds with
  | nil =>
    cases rest with
    | nil => rfl
    | cons c rest => exact if_neg (ne_true_of_eq_false (hrest c rfl))
  | cons c ds =>
    change (if isDigit c then digitLoop next zero (c :: ds ++ rest) else _) = _
    rw [if_pos (hds c mem_cons_self), digitLoop_append next hds hrest,
      if_neg (cons_ne_nil c ds)]

theorem readUid_append :
    readUid (ds ++ rest) = ((pruneOf (number ds) none).mUid, rest) := by
  unfold readUid
  rw [readNumber_append _ hds hrest, foldl_nextUid hds]
  unfold number pruneOf
  split <;> rfl

theorem readPid_append :
    readPid (47 :: (ds ++ rest)) = ((pruneOf none (number ds)).mPid, rest) := by
  simp only [readPid, if_true]
  rw [readNumber_append _ hds hrest, foldl_nextPid hds]
  unfold number pruneOf
  split <;> rfl

theorem ruleOf_append : ruleOf (ds ++ rest) = ruleBehind ds rest := by
  unfold ruleOf
  rw [dropWhile_append_of_pos hds, takeWhile_append_of_pos hds]
  cases rest with
  | nil =>
    rw [append_nil]
    rfl
  | cons c pid =>
    have hc := ne_true_of_eq_false (hrest c rfl)
    rw [dropWhile_cons_of_neg hc, takeWhile_cons_of_neg hc, append_nil]
    rfl

end Digits

/-! ## One rule -/

/-- Reading at a word: its rule and then the end of the word, or what makes `init` give up. -/
theorem readRule_word (hw : ∀ c ∈ w, isSpace c = false) (hrest : Ends rest) :
    (∃ uid pid, ruleOf w = some (uid, pid) ∧ readRule (w ++ rest) = (pruneOf uid pid, rest)) ∨
      ruleOf w = none ∧ ((readRule (w ++ rest)).1 = ⟨Prune.uidAll, Prune.pidAll⟩ ∨
        ∃ d tail, (readRule (w ++ rest)).2 = d :: tail ∧ isSpace d = false) := by
  have hdigit : ∀ c ∈ rest.head?, isDigit c = false :=
    fun c hc => not_isDigit_of_isSpace (hrest c hc)
  obtain ⟨ds, tail, rfl, hds, htail⟩ := exists_span isDigit w
  rw [ruleOf_append hds htail, append_assoc]
  cases tail with
  | nil =>
    -- digits only
    have hslash : readPid rest = (Prune.pidAll, rest) := by
      cases rest with
      | nil => rfl
      | cons c rest =>
        refine if_neg ?_
        rintro rfl
        exact absurd (hrest 47 rfl) (by decide)
    have hread : readRule (ds ++ rest) = (pruneOf (number ds) none, rest) := by
      unfold readRule
      rw [readUid_append hds hdigit]
      simp only [hslash]
      rfl
    by_cases hnil : ds = []
    · refine .inr ⟨if_pos hnil, .inl ?_⟩
      rw [nil_append, hread, hnil]
      rfl
    · exact .inl ⟨_, _, if_neg hnil, hread⟩
  | cons c v =>
    have huid : readUid (ds ++ (c :: v ++ rest)) =
        ((pruneOf (number ds) none).mUid, c :: (v ++ rest)) := readUid_append hds htail
    simp only [readRule, huid]
    by_cases hslash : c = 47
    · subst hslash
      obtain ⟨ps, tail, rfl, hps, htail⟩ := exists_span isDigit v
      cases tail with
      | nil =>
        -- digits on both sides of the slash
        rw [append_nil] at hw ⊢
        have hpid := readPid_append hps hdigit
        simp only [hpid]
        by_cases hempty : ds = [] ∧ ps = []
        · refine .inr ⟨if_neg fun h => h.2.2 hempty, .inl ?_⟩
          rw [hempty.1, hempty.2]
          rfl
        · exact .inl ⟨_, _, if_pos ⟨rfl, all_eq_true.mpr hps, hempty⟩, rfl⟩
      | cons d tail =>
        refine .inr ⟨if_neg fun h => ?_, .inr ⟨d, tail ++ rest, ?_, hw d (by simp)⟩⟩
        · have hall := all_eq_true.mp h.2.1 d (by simp)
          rw [htail d rfl] at hall
          cases hall
        · rw [append_assoc]
          have hpid := readPid_append hps (show ∀ x ∈ (d :: tail ++ rest).head?, _ from htail)
          simp only [hpid]
          rfl
    · refine .inr ⟨if_neg fun h => hslash h.1, .inr ⟨c, v ++ rest, ?_, hw c (by simp)⟩⟩
      simp only [readPid, if_neg hslash]

/-! ## All words -/

/-- What a token does to the lists. A rule for everything is refused. -/
def Token.apply (l : PruneList) : Token → Option PruneList
  | .worst => some { l with mWorstUidEnabled := true }
  | .rule naughty uid pid =>
    if pruneOf uid pid = ⟨Prune.uidAll, Prune.pidAll⟩ then none
    else some (l.insert naughty (pruneOf uid pid))

def step (l : PruneList) (w : List UInt8) : Option PruneList := (token w).bind (·.apply l)

def runWords (l : PruneList) (ws : List (List UInt8)) : Option PruneList := ws.foldlM step l

def accepted (r : Int × PruneList) : Option PruneList := if r.1 = 0 then some r.2 else none

/-- What `init` makes of a text that begins with a rule. -/
def scanRule (l : PruneList) (naughty : Bool) (str : List UInt8) : Int × PruneList :=
  if (readRule str).1 = ⟨Prune.uidAll, Prune.pidAll⟩ then (1, l)
  else
    match (readRule str).2 with
    | [] => (0, l.insert naughty (readRule str).1)
    | d :: tail => if isSpace d then scan (l.insert naughty (readRule str).1) tail else (1, l)

/-- The loop goes on behind the white space that ends a word. -/
def scanBehind (l : PruneList) : List UInt8 → Option PruneList
  | [] => some l
  | _ :: tail => accepted (scan l tail)

/-- A rule is taken when its word has ended. -/
theorem accepted_scanRule (naughty : Bool) (hw : ∀ c ∈ w, isSpace c = false) (hrest : Ends rest) :
    accepted (scanRule l naughty (w ++ rest)) =
      (((ruleOf w).map fun r => Token.rule naughty r.1 r.2).bind (·.apply l)).bind
        (scanBehind · rest) := by
  unfold scanRule
  rcases readRule_word hw hrest with ⟨uid, pid, hrule, hread⟩ | ⟨hrule, hall | ⟨d, tail, htail, hd⟩⟩
  · rw [hrule, hread]
    simp only [Option.map_some, Option.bind_some, Token.apply]
    split
    · rfl
    · cases rest with
      | nil => rfl
      | cons d tail =>
        have hd : isSpace d = true := hrest d rfl
        simp only [if_pos hd]
        rfl
  · rw [hrule, if_pos hall]
    rfl
  · rw [hrule, htail]
    split
    · rfl
    · simp only [hd]
      rfl

/-- `~!` and `!!` -/
theorem scan_worst (l : PruneList) (hspace : isSpace c = false) (hmark : c = 126 ∨ c = 33)
    (str : List UInt8) :
    scan l (c :: 33 :: str) =
      match str with
      | [] => (0, { l with mWorstUidEnabled := true })
      | d :: rest =>
        if isSpace d then scan { l with mWorstUidEnabled := true } rest
        else (1, { l with mWorstUidEnabled := true }) := by
  rw [scan, if_neg (by rw [hspace]; exact Bool.false_ne_true), if_pos ⟨hmark, rfl⟩]
  cases str with
  | nil => rfl
  | cons d rest => rfl

/-- Everything else is a rule, and of the mark that is in front of it nothing is read again. -/
theorem scan_rule (l : PruneList) (hspace : isSpace c = false) {str : List UInt8}
    (hworst : ¬ ((c = 126 ∨ c = 33) ∧ str.head? = some 33))
    (hnil : ¬ ((c = 126 ∨ c = 33) ∧ str = [])) :
    scan l (c :: str) = scanRule l (decide (c = 126 ∨ c = 33))
      (if decide (c = 126 ∨ c = 33) then str else c :: str) := by
  rw [scan, if_neg (by rw [hspace]; exact Bool.false_ne_true), if_neg hworst, if_neg hnil]
  simp only []
  generalize (if decide (c = 126 ∨ c = 33) = true then str else c :: str) = body
  unfold scanRule
  split
  · rfl
  · split
    case h_1 hrest => rw [hrest]
    case h_2 hrest => rw [hrest]

theorem token_worst (hmark : c = 126 ∨ c = 33) : token [c, 33] = some .worst := by
  simp only [token, if_pos hmark, if_true]

theorem token_marked (hmark : c = 126 ∨ c = 33) (hw : w ≠ [33]) :
    token (c :: w) = (ruleOf w).map fun r => .rule true r.1 r.2 := by
  simp only [token, if_pos hmark, if_neg hw]

theorem token_plain (hmark : ¬ (c = 126 ∨ c = 33)) (w : List UInt8) :
    token (c :: w) = (ruleOf (c :: w)).map fun r => .rule false r.1 r.2 := by
  simp only [token, if_neg hmark]

theorem ruleOf_bang (w : List UInt8) : ruleOf (33 :: w) = none := by
  unfold ruleOf
  rw [dropWhile_cons_of_neg (by decide)]
  exact if_neg fun h => absurd h.1 (by decide)

/-- The first word of a text and the rest behind it. -/
theorem exists_word : ∃ w rest, str = w ++ rest ∧
    (∀ x ∈ w, isSpace x = false) ∧ Ends rest := by
  obtain ⟨w, rest, hstr, hw, hrest⟩ := exists_span (fun x => !isSpace x) str
  simp only [Bool.not_eq_true', Bool.not_eq_false'] at hw hrest
  exact ⟨w, rest, hstr, hw, hrest⟩

/-- The loop at a word does what the word says. -/
theorem accepted_word (l : PruneList) (hcw : ∀ x ∈ c :: w, isSpace x = false) (hrest : Ends rest) :
    accepted (scan l (c :: (w ++ rest))) = (step l (c :: w)).bind (scanBehind · rest) := by
  have hc := hcw c mem_cons_self
  have hw : ∀ x ∈ w, isSpace x = false := fun x hx => hcw x (mem_cons_of_mem c hx)
  unfold step
  by_cases hmark : c = 126 ∨ c = 33
  · by_cases hbang : (w ++ rest).head? = some 33
    · -- the mark and an exclamation mark
      obtain ⟨v, rfl⟩ : ∃ v, w = 33 :: v := by
        cases w with
        | nil => exact absurd (hrest 33 hbang) (by decide)
        | cons x v =>
          cases hbang
          exact ⟨v, rfl⟩
      rw [cons_append, scan_worst l hc hmark]
      cases v with
      | nil =>
        rw [token_worst hmark]
        cases rest with
        | nil => rfl
        | cons d tail =>
          have hd : isSpace d = true := hrest d rfl
          simp only [nil_append, if_pos hd]
          rfl
      | cons x v =>
        have hx : isSpace x = false := hw x (by simp)
        rw [token_marked hmark (by simp), ruleOf_bang]
        simp only [cons_append, hx]
        rfl
    · have hne : w ≠ [33] := by
        rintro rfl
        exact hbang rfl
      rw [token_marked hmark hne]
      by_cases hnil : w ++ rest = []
      · rw [scan, if_neg (by rw [hc]; exact Bool.false_ne_true), if_neg fun h => hbang h.2,
          if_pos ⟨hmark, hnil⟩, (append_eq_nil_iff.mp hnil).1]
        rfl
      · rw [scan_rule l hc (fun h => hbang h.2) fun h => hnil h.2, decide_eq_true hmark]
        exact accepted_scanRule true hw hrest
  · rw [token_plain hmark, scan_rule l hc (fun h => hmark h.1) fun h => hmark h.1,
      decide_eq_false hmark]
    exact accepted_scanRule false hcw hrest

/-- `init` does what the words of its text say, one after the other. -/
theorem accepted_scan (n : Nat) : ∀ (str : List UInt8) (l : PruneList), str.length ≤ n →
    accepted (scan l str) = runWords l (words str) := by
  induction n with
  | zero =>
    intro str l hlen
    rw [length_eq_zero_iff.mp (Nat.le_zero.mp hlen), scan]
    rfl
  | succ n ih =>
    intro str l hlen
    cases str with
    | nil =>
      rw [scan]
      rfl
    | cons c str =>
      rw [length_cons] at hlen
      by_cases hspace : isSpace c = true
      · rw [scan, if_pos hspace, words_cons_space hspace]
        exact ih str l (by omega)
      obtain ⟨w, rest, rfl, hw, hrest⟩ := exists_word str
      have hcw : ∀ x ∈ c :: w, isSpace x = false :=
        forall_mem_cons.mpr ⟨Bool.not_eq_true _ ▸ hspace, hw⟩
      have hfirst := words_first hcw (cons_ne_nil c w) hrest
      rw [cons_append] at hfirst
      rw [hfirst, accepted_word l hcw hrest]
      change _ = (step l (c :: w)).bind (runWords · (words rest))
      congr 1
      funext l'
      cases rest with
      | nil => rfl
      | cons d tail =>
        rw [length_append, length_cons] at hlen
        rw [words_cons_space (hrest d rfl)]
        exact ih tail l' (by omega)

/-! ## What the lists mean -/

theorem sub_toInt32_eq_zero {a b : UInt32} : (a - b).toInt32 = 0 ↔ a = b := by
  constructor
  · intro h
    have hsub := congrArg Int32.toUInt32 h
    rw [UInt32.toUInt32_toInt32] at hsub
    have heq := UInt32.sub_eq_iff_eq_add.mp hsub
    rw [heq]
    exact UInt32.zero_add b
  · rintro rfl
    rw [UInt32.sub_self]
    rfl

theorem int32_sub_eq_zero {a b : Int32} : a - b = 0 ↔ a = b := by
  rw [Int32.sub_eq_iff_eq_add, Int32.zero_add]

theorem cmp_eq_zero {p : Prune} :
    p.cmp e = 0 ↔ (p.mUid = Prune.uidAll ∨ p.mUid = e.mUid) ∧
      (p.mPid = Prune.pidAll ∨ p.mPid = e.mPid) := by
  unfold Prune.cmp
  split_ifs with huid hpid
  · simp [huid, hpid]
  · rw [int32_sub_eq_zero, eq_comm]
    simp [huid, hpid]
  · rw [sub_toInt32_eq_zero]
    constructor
    · exact fun heq => absurd (.inr heq.symm) huid
    · exact fun h => absurd h.1 huid

/-- A rule without a pid covers every rule of its uid. -/
theorem cmp_eq_zero_of_cover {p rule : Prune} (huid : rule.mUid = p.mUid)
    (hpid : p.mPid = Prune.pidAll) (h : rule.cmp e = 0) : p.cmp e = 0 := by
  rw [cmp_eq_zero] at h ⊢
  rw [huid] at h
  exact ⟨h.1, .inl hpid⟩

/-- Insertion adds what the rule is for, and loses nothing. -/
theorem any_insertLoop (rule : Prune) (e : LogBufferElement μ) (list : List Prune) :
    (∃ p ∈ insertLoop rule list, p.cmp e = 0) ↔ rule.cmp e = 0 ∨ ∃ p ∈ list, p.cmp e = 0 := by
  induction list with
  | nil => simp [insertLoop]
  | cons p list ih =>
    have hpass : (∃ q ∈ p :: insertLoop rule list, q.cmp e = 0) ↔
        rule.cmp e = 0 ∨ ∃ q ∈ p :: list, q.cmp e = 0 := by
      rw [exists_mem_cons_iff, ih, exists_mem_cons_iff, or_left_comm]
    have hcovered : ∀ {q}, q ∈ p :: list → (rule.cmp e = 0 → q.cmp e = 0) →
        ((∃ q ∈ p :: list, q.cmp e = 0) ↔ rule.cmp e = 0 ∨ ∃ q ∈ p :: list, q.cmp e = 0) :=
      fun hq himp => ⟨.inr, fun h => h.elim (fun hr => ⟨_, hq, himp hr⟩) fun h => h⟩
    unfold insertLoop
    simp only [sub_toInt32_eq_zero]
    split_ifs with huid hpid hall hless hsame hbefore
    · exact hcovered mem_cons_self fun hr => cmp_eq_zero_of_cover huid hpid hr
    · -- the rule takes the place of one that it covers
      rw [ih, exists_mem_cons_iff]
      constructor
      · exact fun h => h.imp_right .inr
      · rintro (hr | hp | h)
        · exact .inl hr
        · exact .inl (cmp_eq_zero_of_cover huid.symm hall hp)
        · exact .inr h
    · exact exists_mem_cons_iff ..
    · have heq : rule = p := by
        have hpid' := int32_sub_eq_zero.mp hsame
        cases rule
        cases p
        cases huid
        cases hpid'
        rfl
      exact hcovered mem_cons_self fun hr => heq ▸ hr
    · exact hpass
    · exact exists_mem_cons_iff ..
    · exact hpass

def listOf (naughty : Bool) (l : PruneList) : List Prune :=
  if naughty then l.mNaughty else l.mNice

def Covers (l : PruneList) (naughty : Bool) (e : LogBufferElement μ) : Prop :=
  ∃ p ∈ l.listOf naughty, p.cmp e = 0

theorem nice_iff : l.nice e = true ↔ l.Covers false e := by
  simp [PruneList.nice, Covers, listOf]

theorem naughty_iff : l.naughty e = true ↔ l.Covers true e := by
  simp [PruneList.naughty, Covers, listOf]

theorem apply_rule_inv (h : (Token.rule naughty uid pid).apply l = some l') :
    l' = l.insert naughty (pruneOf uid pid) ∧ pruneOf uid pid ≠ ⟨Prune.uidAll, Prune.pidAll⟩ := by
  simp only [Token.apply] at h
  split at h
  · cases h
  case isFalse hall =>
    cases h
    exact ⟨rfl, hall⟩

theorem covers_apply (h : t.apply l = some l') (naughty : Bool) (e : LogBufferElement μ) :
    l'.Covers naughty e ↔ l.Covers naughty e ∨
      ∃ uid pid, t = .rule naughty uid pid ∧ (pruneOf uid pid).cmp e = 0 := by
  cases t with
  | worst =>
    cases h
    refine ⟨.inl, fun h => h.resolve_right ?_⟩
    rintro ⟨uid, pid, heq, -⟩
    cases heq
  | rule kind uid pid =>
    obtain ⟨rfl, -⟩ := apply_rule_inv h
    have hrule : (∃ uid' pid', Token.rule kind uid pid = .rule naughty uid' pid' ∧
        (pruneOf uid' pid').cmp e = 0) ↔ kind = naughty ∧ (pruneOf uid pid).cmp e = 0 := by
      constructor
      · rintro ⟨uid', pid', heq, hcmp⟩
        cases heq
        exact ⟨rfl, hcmp⟩
      · rintro ⟨rfl, hcmp⟩
        exact ⟨uid, pid, rfl, hcmp⟩
    rw [hrule]
    by_cases hkind : kind = naughty
    · subst hkind
      have hlist : (l.insert kind (pruneOf uid pid)).listOf kind =
          insertLoop (pruneOf uid pid) (l.listOf kind) := by
        cases kind <;> rfl
      rw [Covers, hlist, any_insertLoop, or_comm]
      simp [Covers]
    · have hlist : (l.insert kind (pruneOf uid pid)).listOf naughty = l.listOf naughty := by
        cases kind <;> cases naughty <;> first | rfl | exact absurd rfl hkind
      rw [Covers, hlist]
      simp [hkind, Covers]

theorem worst_apply (h : t.apply l = some l') :
    l'.mWorstUidEnabled = true ↔ l.mWorstUidEnabled = true ∨ t = .worst := by
  cases t with
  | worst =>
    cases h
    simp
  | rule naughty uid pid =>
    obtain ⟨rfl, -⟩ := apply_rule_inv h
    cases naughty <;> simp [PruneList.insert]

theorem runWords_cons_inv (h : runWords l (w :: ws) = some l') :
    ∃ t l₁, token w = some t ∧ t.apply l = some l₁ ∧ runWords l₁ ws = some l' := by
  obtain ⟨l₁, hstep, hrest⟩ := Option.bind_eq_some_iff.mp h
  obtain ⟨t, htoken, happly⟩ := Option.bind_eq_some_iff.mp hstep
  exact ⟨t, l₁, htoken, happly, hrest⟩

/-- The lists after some words: what was there, and what the words say. -/
theorem runWords_spec : ∀ {l l' : PruneList}, runWords l ws = some l' →
    (∀ (naughty : Bool) (e : LogBufferElement μ), l'.Covers naughty e ↔ l.Covers naughty e ∨
      ∃ w ∈ ws, ∃ uid pid, token w = some (.rule naughty uid pid) ∧ (pruneOf uid pid).cmp e = 0) ∧
    (l'.mWorstUidEnabled = true ↔
      l.mWorstUidEnabled = true ∨ ∃ w ∈ ws, token w = some .worst) := by
  induction ws with
  | nil =>
    intro l l' h
    cases h
    simp
  | cons w ws ih =>
    intro l l' h
    obtain ⟨t, l₁, htoken, happly, hrest⟩ := runWords_cons_inv h
    obtain ⟨hrules, hworst⟩ := ih hrest
    refine ⟨fun naughty e => ?_, ?_⟩
    · rw [hrules, covers_apply happly, exists_mem_cons_iff, htoken, or_assoc]
      simp only [Option.some.injEq]
    · rw [hworst, worst_apply happly, exists_mem_cons_iff, htoken, or_assoc]
      simp only [Option.some.injEq]

/-- The lists of a text say what its words say. -/
theorem runWords_init (h : runWords ⟨[], [], false⟩ ws = some l) :
    (∀ (naughty : Bool) (e : LogBufferElement μ), l.Covers naughty e ↔
      ∃ w ∈ ws, ∃ uid pid, token w = some (.rule naughty uid pid) ∧ (pruneOf uid pid).cmp e = 0) ∧
    (l.mWorstUidEnabled = true ↔ ∃ w ∈ ws, token w = some .worst) := by
  obtain ⟨hrules, hworst⟩ := runWords_spec (μ := μ) h
  refine ⟨fun naughty e => ?_, ?_⟩
  · rw [hrules, or_iff_right]
    rintro ⟨p, hp, -⟩
    cases naughty <;> cases hp
  · rw [hworst, or_iff_right Bool.false_ne_true]

/-! ## Numbers of 31 bits -/

theorem ofNat_uid {u : Nat} (h : u < 2 ^ 31) :
    UInt32.ofNat u ≠ Prune.uidAll ∧ (UInt32.ofNat u).toNat = u := by
  have hval : (UInt32.ofNat u).toNat = u := UInt32.toNat_ofNat_of_lt' (by
    change u < 2 ^ 32
    omega)
  refine ⟨fun heq => ?_, hval⟩
  rw [heq] at hval
  change 4294967295 = u at hval
  omega

theorem ofNat_pid {p : Nat} (h : p < 2 ^ 31) :
    Int32.ofNat p ≠ Prune.pidAll ∧ (Int32.ofNat p).toInt = p := by
  have hval : (Int32.ofNat p).toInt = p := Int32.toInt_ofNat_of_lt h
  refine ⟨fun heq => ?_, hval⟩
  rw [heq] at hval
  change -1 = (p : Int) at hval
  omega

theorem elim_matches {α β : Type} [NatCast β] {all : α} {ofNat : Nat → α} {val : α → β}
    (hval : Function.Injective val) {x : Option Nat}
    (h : ∀ n ∈ x, ofNat n ≠ all ∧ val (ofNat n) = n) (y : α) :
    (x.elim all ofNat = all ∨ x.elim all ofNat = y) ↔ ∀ n ∈ x, val y = n := by
  cases x with
  | none => simp
  | some n =>
    obtain ⟨hall, hn⟩ := h n rfl
    simp only [Option.elim_some, Option.mem_some_iff, forall_eq', or_iff_right hall]
    rw [← hval.eq_iff, hn, eq_comm]

theorem cmp_pruneOf (h : (Token.rule naughty uid pid).Small) (e : LogBufferElement μ) :
    (pruneOf uid pid).cmp e = 0 ↔ Matches uid pid e := by
  rw [cmp_eq_zero]
  exact and_congr
    (elim_matches (fun _ _ => UInt32.toNat_inj.mp) (fun u hu => ofNat_uid (h.1 u hu)) e.mUid)
    (elim_matches (fun _ _ => Int32.toInt_inj.mp) (fun p hp => ofNat_pid (h.2 p hp)) e.mPid)

def text (uid pid : Option Nat) : List UInt8 :=
  uid.elim [] decimal ++ if uid.isSome = true ∧ pid = none then [] else 47 :: pid.elim [] decimal

theorem format_pruneOf (h : (Token.rule naughty uid pid).Small) :
    (pruneOf uid pid).format = text uid pid := by
  have huid : ∀ u ∈ uid, UInt32.ofNat u ≠ Prune.uidAll ∧ (UInt32.ofNat u).toNat = u :=
    fun u hu => ofNat_uid (h.1 u hu)
  have hpid : ∀ p ∈ pid, Int32.ofNat p ≠ Prune.pidAll ∧ (Int32.ofNat p).toUInt32.toNat = p := by
    intro p hp
    have hlt := h.2 p hp
    refine ⟨(ofNat_pid hlt).1, ?_⟩
    change (BitVec.ofNat 32 p).toNat = p
    rw [BitVec.toNat_ofNat, Nat.mod_eq_of_lt (by omega)]
  unfold Prune.format pruneOf
  cases uid with
  | none =>
    cases pid with
    | none => rfl
    | some p =>
      simp only [Option.elim_none, Option.elim_some, ne_eq, not_true_eq_false, if_false,
        if_pos (hpid p rfl).1, (hpid p rfl).2]
      rfl
  | some u =>
    cases pid with
    | none =>
      simp only [Option.elim_none, Option.elim_some, ne_eq, not_true_eq_false, if_false,
        if_pos (huid u rfl).1, (huid u rfl).2]
      exact (append_nil _).symm
    | some p =>
      simp only [Option.elim_some, if_pos (huid u rfl).1, if_pos (hpid p rfl).1, (huid u rfl).2,
        (hpid p rfl).2]
      rfl

theorem number_elim (n : Option Nat) : number (n.elim [] decimal) = n := by
  cases n with
  | none => rfl
  | some n =>
    refine (if_neg (decimal_ne_nil n)).trans ?_
    rw [Option.elim_some, decimalValue_decimal]

theorem isDigit_of_mem_elim {n : Option Nat} (h : c ∈ n.elim [] decimal) : isDigit c = true := by
  cases n with
  | none => cases h
  | some n => exact isDigit_of_mem_decimal h

/-- The text of a rule is read as that rule. -/
theorem ruleOf_text (hne : ¬ (uid = none ∧ pid = none)) :
    ruleOf (text uid pid) = some (uid, pid) := by
  unfold text
  rw [ruleOf_append (fun c hc => isDigit_of_mem_elim hc) (by split <;> simp; decide)]
  cases pid with
  | none =>
    obtain ⟨u, rfl⟩ := Option.ne_none_iff_exists'.mp fun h => hne ⟨h, rfl⟩
    refine (if_neg (decimal_ne_nil u)).trans ?_
    rw [number_elim]
  | some p =>
    rw [if_neg fun h => Option.some_ne_none p h.2, ruleBehind, if_pos ⟨rfl, all_eq_true.mpr fun c hc =>
      isDigit_of_mem_elim hc, fun h => decimal_ne_nil p h.2⟩, number_elim, number_elim]

theorem mem_text (h : c ∈ text uid pid) : isDigit c = true ∨ c = 47 := by
  rcases mem_append.mp h with h | h
  · exact .inl (isDigit_of_mem_elim h)
  · split at h
    · cases h
    · rcases mem_cons.mp h with h | h
      · exact .inr h
      · exact .inl (isDigit_of_mem_elim h)

theorem text_ne_nil (uid pid : Option Nat) : text uid pid ≠ [] := by
  cases uid <;> simp [text, decimal_ne_nil]

theorem text_not_space (h : c ∈ text uid pid) : isSpace c = false := by
  rcases mem_text h with hdigit | rfl
  · by_contra hspace
    rw [not_isDigit_of_isSpace (by simpa using hspace)] at hdigit
    cases hdigit
  · decide

theorem text_not_mark (h : c ∈ text uid pid) : ¬ (c = 126 ∨ c = 33) := by
  rcases mem_text h with hdigit | rfl
  · rintro (rfl | rfl)
    · exact absurd hdigit (by decide)
    · exact absurd hdigit (by decide)
  · decide

def mark (naughty : Bool) : List UInt8 := if naughty then [126] else []

theorem token_text (naughty : Bool) (hne : ¬ (uid = none ∧ pid = none)) :
    token (mark naughty ++ text uid pid) = some (.rule naughty uid pid) := by
  have hrule := ruleOf_text hne
  cases naughty with
  | true =>
    have hbang : text uid pid ≠ [33] := by
      intro heq
      have hmem : (33 : UInt8) ∈ text uid pid := by simp [heq]
      exact text_not_mark hmem (.inr rfl)
    change token (126 :: text uid pid) = _
    rw [token_marked (.inl rfl) hbang, hrule]
    rfl
  | false =>
    change token (text uid pid) = _
    obtain ⟨c, w, hcons⟩ := exists_cons_of_ne_nil (text_ne_nil uid pid)
    have hmem : c ∈ text uid pid := by simp [hcons]
    rw [hcons] at hrule ⊢
    rw [token_plain (text_not_mark hmem), hrule]
    rfl

/-! ## Reading what was written -/

/-- The rules of the lists have numbers of 31 bits, and none is for everything. -/
def Plain (l : PruneList) : Prop :=
  ∀ naughty, ∀ p ∈ l.listOf naughty, ∃ uid pid, p = pruneOf uid pid ∧
    (Token.rule naughty uid pid).Small ∧ ¬ (uid = none ∧ pid = none)

theorem mem_insertLoop {rule p : Prune} (h : p ∈ insertLoop rule list) : p = rule ∨ p ∈ list := by
  induction list with
  | nil => exact .inl (mem_singleton.mp h)
  | cons q list ih =>
    have hrest : p ∈ q :: insertLoop rule list → p = rule ∨ p ∈ q :: list := by
      intro hmem
      rcases mem_cons.mp hmem with rfl | hmem
      · exact .inr mem_cons_self
      · exact (ih hmem).imp_right (mem_cons_of_mem q)
    have hfront : p ∈ rule :: q :: list → p = rule ∨ p ∈ q :: list := mem_cons.mp
    unfold insertLoop at h
    simp only [] at h
    split_ifs at h
    · exact .inr h
    · exact (ih h).imp_right (mem_cons_of_mem q)
    · exact hfront h
    · exact .inr h
    · exact hrest h
    · exact hfront h
    · exact hrest h

theorem plain_apply (h : t.apply l = some l') (hl : Plain l) (hsmall : t.Small) : Plain l' := by
  cases t with
  | worst =>
    cases h
    exact hl
  | rule kind uid pid =>
    obtain ⟨rfl, hall⟩ := apply_rule_inv h
    have hne : ¬ (uid = none ∧ pid = none) := by
      rintro ⟨rfl, rfl⟩
      exact hall rfl
    intro naughty p hp
    have hmem : p = pruneOf uid pid ∧ kind = naughty ∨ p ∈ l.listOf naughty := by
      cases kind <;> cases naughty
      · exact (mem_insertLoop hp).imp_left fun h => ⟨h, rfl⟩
      · exact .inr hp
      · exact .inr hp
      · exact (mem_insertLoop hp).imp_left fun h => ⟨h, rfl⟩
    rcases hmem with ⟨rfl, rfl⟩ | hmem
    · exact ⟨uid, pid, rfl, hsmall, hne⟩
    · exact hl naughty p hmem

theorem plain_runWords : ∀ {l l' : PruneList}, runWords l ws = some l' →
    Plain l → (∀ w ∈ ws, ∀ t ∈ token w, t.Small) → Plain l' := by
  induction ws with
  | nil =>
    intro l l' h hl _
    cases h
    exact hl
  | cons w ws ih =>
    intro l l' h hl hsmall
    obtain ⟨t, l₁, htoken, happly, hrest⟩ := runWords_cons_inv h
    exact ih hrest (plain_apply happly hl (hsmall w mem_cons_self t htoken))
      fun v hv => hsmall v (mem_cons_of_mem w hv)

/-- The words that `format` writes for a list. -/
theorem words_formatLoop (kind : Bool) (hlist : ∀ p ∈ list, ∃ uid pid, p.format = text uid pid) :
    ∀ (separate : Bool) (string : List UInt8), (separate = false → string = []) →
      words (formatLoop (mark kind) separate string list).2 =
          words string ++ list.map (fun p => mark kind ++ p.format) ∧
        ((formatLoop (mark kind) separate string list).1 = false →
          (formatLoop (mark kind) separate string list).2 = []) := by
  induction list with
  | nil =>
    intro separate string h
    exact ⟨(append_nil _).symm, h⟩
  | cons p list ih =>
    intro separate string h
    obtain ⟨uid, pid, htext⟩ := hlist p mem_cons_self
    have hword : words (mark kind ++ p.format) = [mark kind ++ p.format] := by
      refine words_single (fun c hc => ?_) ?_
      · rw [htext] at hc
        rcases mem_append.mp hc with hc | hc
        · cases kind
          · cases hc
          · rw [mem_singleton.mp hc]
            decide
        · exact text_not_space hc
      · rw [htext]
        exact append_ne_nil_of_right_ne_nil _ (text_ne_nil uid pid)
    have hstring : words (string ++ ((if separate then [32] else []) ++ mark kind ++ p.format)) =
        words string ++ [mark kind ++ p.format] := by
      cases separate with
      | true =>
        have hspace := words_append_space string (mark kind ++ p.format)
        rw [hword] at hspace
        exact hspace
      | false =>
        rw [h rfl]
        simp only [Bool.false_eq_true, if_false, nil_append]
        rw [hword]
        rfl
    unfold formatLoop
    have hnext := ih (fun q hq => hlist q (mem_cons_of_mem p hq)) true
      (string ++ ((if separate then [32] else []) ++ mark kind ++ p.format))
      fun hfalse => absurd hfalse (by decide)
    refine ⟨?_, hnext.2⟩
    rw [hnext.1, hstring, append_assoc]
    rfl

/-- The words of the text of the lists: the worst uid, the white list and the black list. -/
theorem words_format (hl : Plain l) :
    words l.format = (if l.mWorstUidEnabled then [[126, 33]] else []) ++
      (l.listOf false).map (fun p => mark false ++ p.format) ++
      (l.listOf true).map (fun p => mark true ++ p.format) := by
  have htext : ∀ naughty, ∀ p ∈ l.listOf naughty, ∃ uid pid, p.format = text uid pid := by
    intro naughty p hp
    obtain ⟨uid, pid, rfl, hsmall, -⟩ := hl naughty p hp
    exact ⟨uid, pid, format_pruneOf hsmall⟩
  unfold PruneList.format
  cases l.mWorstUidEnabled with
  | true =>
    have hnice := words_formatLoop false (htext false) true [126, 33] fun h => absurd h (by decide)
    have hnaughty := words_formatLoop true (htext true) _ _ hnice.2
    rw [hnice.1] at hnaughty
    exact hnaughty.1
  | false =>
    have hnice := words_formatLoop false (htext false) false [] fun _ => rfl
    have hnaughty := words_formatLoop true (htext true) _ _ hnice.2
    rw [hnice.1] at hnaughty
    exact hnaughty.1

/-- Words that all say something are accepted. -/
theorem runWords_isSome (h : ∀ w ∈ ws, ∀ l, (step l w).isSome = true) :
    ∀ l, (runWords l ws).isSome = true := by
  induction ws with
  | nil => exact fun l => rfl
  | cons w ws ih =>
    intro l
    obtain ⟨l₁, hl₁⟩ := Option.isSome_iff_exists.mp (h w mem_cons_self l)
    change ((step l w).bind (runWords · ws)).isSome = true
    rw [hl₁]
    exact ih (fun v hv => h v (mem_cons_of_mem w hv)) l₁

theorem accepted_init : accepted (init (some str)) = runWords ⟨[], [], false⟩ (words str) :=
  accepted_scan str.length str _ (Nat.le_refl _)

theorem eq_of_accepted {r : Int × PruneList} (h : accepted r = some l) : r = (0, l) := by
  obtain ⟨n, l'⟩ := r
  unfold accepted at h
  split at h
  case isTrue hzero =>
    cases h
    change n = 0 at hzero
    rw [hzero]
  case isFalse => cases h

theorem token_eq_worst_iff : token w = some .worst ↔ w = [126, 33] ∨ w = [33, 33] := by
  constructor
  · intro h
    cases w with
    | nil => cases h
    | cons c w =>
      simp only [token] at h
      split_ifs at h with hmark hbang
      · rw [hbang]
        exact hmark.imp (congrArg (· :: [33])) (congrArg (· :: [33]))
      · obtain ⟨r, -, hr⟩ := Option.map_eq_some_iff.mp h
        cases hr
      · obtain ⟨r, -, hr⟩ := Option.map_eq_some_iff.mp h
        cases hr
  · rintro (rfl | rfl)
    · exact token_worst (.inl rfl)
    · exact token_worst (.inr rfl)

/-- What `format` writes, `init` accepts, and the lists mean the same. -/
theorem init_format (hl : Plain l) :
    ∃ l', init (some l.format) = (0, l') ∧
      (∀ (naughty : Bool) (e : LogBufferElement μ), l'.Covers naughty e ↔ l.Covers naughty e) ∧
      l'.mWorstUidEnabled = l.mWorstUidEnabled := by
  have htoken : ∀ naughty, ∀ p ∈ l.listOf naughty, ∃ uid pid, p = pruneOf uid pid ∧
      token (mark naughty ++ p.format) = some (.rule naughty uid pid) ∧
      pruneOf uid pid ≠ ⟨Prune.uidAll, Prune.pidAll⟩ := by
    intro naughty p hp
    obtain ⟨uid, pid, rfl, hsmall, hne⟩ := hl naughty p hp
    refine ⟨uid, pid, rfl, ?_, fun hall => hne ?_⟩
    · rw [format_pruneOf hsmall, token_text naughty hne]
    · -- a rule for everything is written as a slash, and so is no other
      have htext := format_pruneOf hsmall
      have hrule := ruleOf_text hne
      rw [← htext, hall] at hrule
      cases hrule
  have hread : ∀ w, w ∈ words l.format ↔ (l.mWorstUidEnabled = true ∧ w = [126, 33]) ∨
      ∃ naughty, ∃ p ∈ l.listOf naughty, w = mark naughty ++ p.format := by
    intro w
    rw [words_format hl, mem_append, mem_append, mem_map, mem_map, Bool.exists_bool,
      or_assoc]
    refine or_congr ?_ (or_congr ?_ ?_)
    · cases l.mWorstUidEnabled <;> simp
    · simp only [eq_comm]
    · simp only [eq_comm]
  have hsome : (runWords ⟨[], [], false⟩ (words l.format)).isSome = true := by
    refine runWords_isSome (fun w hw l₁ => ?_) _
    unfold step
    rcases (hread w).mp hw with ⟨-, rfl⟩ | ⟨naughty, p, hp, rfl⟩
    · rfl
    · obtain ⟨uid, pid, -, htok, hne⟩ := htoken naughty p hp
      simp only [htok, Option.bind_some, Token.apply, if_neg hne]
      rfl
  obtain ⟨l', hl'⟩ := Option.isSome_iff_exists.mp hsome
  obtain ⟨hrules, hworst⟩ := runWords_init (μ := μ) hl'
  refine ⟨l', eq_of_accepted ((accepted_init l.format).trans hl'), fun naughty e => ?_, ?_⟩
  · rw [hrules]
    constructor
    · rintro ⟨w, hw, uid, pid, htok, hcmp⟩
      rcases (hread w).mp hw with ⟨-, rfl⟩ | ⟨kind, p, hp, rfl⟩
      · rw [token_worst (.inl rfl)] at htok
        cases htok
      · obtain ⟨uid', pid', hp', htok', -⟩ := htoken kind p hp
        rw [htok'] at htok
        cases htok
        exact ⟨p, hp, hp' ▸ hcmp⟩
    · rintro ⟨p, hp, hcmp⟩
      obtain ⟨uid, pid, hp', htok, -⟩ := htoken naughty p hp
      exact ⟨_, (hread _).mpr (.inr ⟨naughty, p, hp, rfl⟩), uid, pid, htok, hp' ▸ hcmp⟩
  · rw [Bool.eq_iff_iff, hworst]
    constructor
    · rintro ⟨w, hw, htok⟩
      rcases (hread w).mp hw with ⟨h, -⟩ | ⟨kind, p, hp, rfl⟩
      · exact h
      · obtain ⟨uid, pid, -, htok', -⟩ := htoken kind p hp
        rw [htok'] at htok
        cases htok
    · exact fun h => ⟨_, (hread _).mpr (.inl ⟨h, rfl⟩), token_worst (.inl rfl)⟩

/-- The lists of an accepted text are for the elements that one of its words is for, and the text
that is written for them is accepted and means the same. -/
theorem init_meaning {str : List UInt8} {l : PruneList} (hinit : init (some str) = (0, l))
    (hsmall : ∀ w ∈ words str, ∀ t ∈ token w, t.Small) :
    (∀ e : LogBufferElement μ, l.nice e = true ↔ ∃ w ∈ words str, ∃ uid pid,
      token w = some (.rule false uid pid) ∧ Matches uid pid e) ∧
    (∀ e : LogBufferElement μ, l.naughty e = true ↔ ∃ w ∈ words str, ∃ uid pid,
      token w = some (.rule true uid pid) ∧ Matches uid pid e) ∧
    (l.mWorstUidEnabled = true ↔ [126, 33] ∈ words str ∨ [33, 33] ∈ words str) ∧
    ∃ l', init (some l.format) = (0, l') ∧
      (∀ e : LogBufferElement μ, l'.nice e = l.nice e ∧ l'.naughty e = l.naughty e) ∧
      l'.mWorstUidEnabled = l.mWorstUidEnabled := by
  have hrun : runWords ⟨[], [], false⟩ (words str) = some l := by
    rw [← accepted_init, hinit]
    rfl
  obtain ⟨hrules, hworst⟩ := runWords_init (μ := μ) hrun
  have hmeans : ∀ (naughty : Bool) (e : LogBufferElement μ), l.Covers naughty e ↔
      ∃ w ∈ words str, ∃ uid pid,
        token w = some (.rule naughty uid pid) ∧ Matches uid pid e := by
    intro naughty e
    rw [hrules]
    constructor
    · rintro ⟨w, hw, uid, pid, htok, hcmp⟩
      exact ⟨w, hw, uid, pid, htok, (cmp_pruneOf (hsmall w hw _ htok) e).mp hcmp⟩
    · rintro ⟨w, hw, uid, pid, htok, hmatch⟩
      exact ⟨w, hw, uid, pid, htok, (cmp_pruneOf (hsmall w hw _ htok) e).mpr hmatch⟩
  have hplain : Plain l := by
    refine plain_runWords hrun (fun naughty p hp => ?_) hsmall
    cases naughty <;> cases hp
  obtain ⟨l', hl', hsame, hworst'⟩ := init_format (μ := μ) hplain
  refine ⟨fun e => nice_iff.trans (hmeans false e), fun e => naughty_iff.trans (hmeans true e), ?_,
    l', hl', fun e => ⟨?_, ?_⟩, hworst'⟩
  · rw [hworst]
    simp only [token_eq_worst_iff]
    constructor
    · rintro ⟨w, hw, rfl | rfl⟩
      · exact .inl hw
      · exact .inr hw
    · rintro (h | h)
      · exact ⟨_, h, .inl rfl⟩
      · exact ⟨_, h, .inr rfl⟩
  · rw [Bool.eq_iff_iff, nice_iff, nice_iff]
    exact hsame false e
  · rw [Bool.eq_iff_iff, naughty_iff, naughty_iff]
    exact hsame true e

/-- `5 ~7` -/
theorem init_meaning_two :
    (init (some [53, 32, 126, 55]) = (0, ⟨[⟨7, -1⟩], [⟨5, -1⟩], false⟩) ∧
      ∀ w ∈ words [53, 32, 126, 55], ∀ t ∈ token w, t.Small) ∧
    (∀ e : LogBufferElement Unit, (⟨[⟨7, -1⟩], [⟨5, -1⟩], false⟩ : PruneList).nice e = true ↔
      ∃ w ∈ words [53, 32, 126, 55], ∃ uid pid,
        token w = some (.rule false uid pid) ∧ Matches uid pid e) :=
  ⟨⟨eq_of_accepted ((accepted_init _).trans (by decide)), by decide⟩,
    (init_meaning (eq_of_accepted ((accepted_init _).trans (by decide))) (by decide)).1⟩

/-- `!!` and `!5` are accepted and have no tilde. -/
theorem bang_is_mark :
    (init (some [33, 33]) = (0, ⟨[], [], true⟩) ∧ ¬ [126, 33] <:+: ([33, 33] : List UInt8)) ∧
      init (some [33, 53]) = (0, ⟨[⟨5, -1⟩], [], false⟩) ∧ 126 ∉ ([33, 53] : List UInt8) ∧
      (⟨[⟨5, -1⟩], [], false⟩ : PruneList).naughty
        (⟨0, .main, 5, 1, 1, some (), 10, 0, ⟨1, 0⟩⟩ : LogBufferElement Unit) = true :=
  ⟨⟨eq_of_accepted ((accepted_init _).trans (by decide)), by decide⟩,
    eq_of_accepted ((accepted_init _).trans (by decide)), by decide, by decide⟩

end PruneList

end SystemCore.Logd
