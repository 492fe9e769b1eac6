import Mathlib.Algebra.Group.Int.Defs
import Mathlib.Algebra.Group.Nat.Defs
import SystemCore.Lib.Ascii
import SystemCore.Lib.Outcome
import SystemCore.Lib.Runs

/-!
# Commands of a framework socket

`dispatchCommand` reads a command byte by byte into words. A backslash stands in front of a quote or
a backslash, and a blank between quotes belongs to its word. `quoteArg` is its counterpart on the
side of the sender. A listener with sequence numbers takes the first word of a command for one.
-/
namespace SystemCore.Libsysutils

open Lib List Runs

abbrev Text := List UInt8

def backslash : UInt8 := 92
def quotes : UInt8 := 34
def blank : UInt8 := 32

def CMD_ARGS_MAX : Nat := 26
def CMD_BUF_SIZE : Nat := 1024

/-! ## Sequence numbers -/

def digitOf (c : UInt8) : Option Nat :=
  if 48 ≤ c ∧ c ≤ 57 then some (c.toNat - 48)
  else if 97 ≤ c ∧ c ≤ 122 then some (c.toNat - 87)
  else if 65 ≤ c ∧ c ≤ 90 then some (c.toNat - 55)
  else none

def leadingDigits (base : Nat) (s : Text) : Text :=
  s.takeWhile fun c => (digitOf c).any (· < base)

def valueOf (base : Nat) (ds : Text) : Nat :=
  ds.foldl (fun n c => n * base + (digitOf c).getD 0) 0

/-- The base that `strtol` finds when it is asked for base 0, and where the digits begin. -/
def detectBase : Text → Nat × Text
  | 48 :: x :: s =>
    if (x = 120 ∨ x = 88) ∧ leadingDigits 16 s ≠ [] then (16, s) else (8, 48 :: x :: s)
  | 48 :: s => (8, 48 :: s)
  | s => (10, s)

def detectSign : Text → Bool × Text
  | 45 :: s => (true, s)
  | 43 :: s => (false, s)
  | s => (false, s)

/-- `strtol` with base 0: the value, and the text at `endptr`. -/
def strtol (s : Text) : Int × Text :=
  let (negative, unsigned) := detectSign (s.dropWhile isSpace)
  let (base, body) := detectBase unsigned
  let ds := leadingDigits base body
  if ds = [] then (0, s)
  else
    let n : Int := if negative then -(valueOf base ds : Int) else valueOf base ds
    (max (-2 ^ 63) (min (2 ^ 63 - 1) n), body.drop ds.length)

/-! ## Words -/

/-- The errors that the client is told, all of them with code 500. -/
inductive Refusal where
  | unsupportedEscape
  | invalidSequence
  | tooLong
  | unclosedQuotes
  | notRecognized
  deriving DecidableEq, Repr

/-- The variables of the loop, and the command number once the client has one. -/
structure Parser where
  argv : List Text
  tmp : Text
  esc : Bool
  quote : Bool
  haveCmdNum : Bool
  cmdNum : Option Int
  deriving DecidableEq, Repr

/-- `argv[argc++] = strdup(tmp)`. -/
def pushArg (s : Parser) : Except Refusal Parser :=
  if CMD_ARGS_MAX ≤ s.argv.length then .error .tooLong
  else .ok { s with argv := s.argv ++ [s.tmp], tmp := [] }

/-- `*q++ = c` behind its check. -/
def store (s : Parser) (c : UInt8) : Except Refusal Parser :=
  if CMD_BUF_SIZE - 1 ≤ s.tmp.length then .error .tooLong else .ok { s with tmp := s.tmp ++ [c] }

/-- A blank outside of quotes ends a word. -/
def endWord (s : Parser) : Except Refusal Parser :=
  if s.haveCmdNum then pushArg s
  else if (strtol s.tmp).2 ≠ [] then .error .invalidSequence
  else .ok { s with cmdNum := some ((strtol s.tmp).1.bmod (2 ^ 32)), haveCmdNum := true, tmp := [] }

/-- One turn of the loop of `dispatchCommand`. -/
def feed (s : Parser) (c : UInt8) : Except Refusal Parser :=
  if c = backslash then
    if s.esc then store { s with esc := false } backslash else .ok { s with esc := true }
  else if s.esc then
    if c = quotes then store { s with esc := false } quotes else .error .unsupportedEscape
  else if c = quotes then .ok { s with quote := !s.quote }
  else if s.quote = false ∧ c = blank then
    if CMD_BUF_SIZE - 1 ≤ s.tmp.length then .error .tooLong else endWord s
  else store s c

/-- The words of a command, up to the check of the quotes. -/
def parseCommand (withSeq : Bool) (data : Text) : Except Refusal Parser := do
  let s ← Runs.run feed ⟨[], [], false, false, !withSeq, none⟩ (data.takeWhile (· ≠ 0))
  let s ← pushArg s
  if s.quote then .error .unclosedQuotes else .ok s

structure Listener where
  commands : List Text
  withSeq : Bool
  errorRate : Int
  commandCount : Int
  deriving DecidableEq, Repr

inductive Reply where
  | refused (r : Refusal)
  | ignored
  | ran (command : Text) (argv : List Text)
  deriving DecidableEq, Repr

/-- What `dispatchCommand` does with the words. -/
def deliver (l : Listener) (argv : List Text) : Listener × Reply :=
  let l := if l.errorRate ≠ 0 then { l with commandCount := l.commandCount + 1 } else l
  if l.errorRate ≠ 0 ∧ l.commandCount.tmod l.errorRate = 0 then (l, .ignored)
  else
    match l.commands.find? fun c => argv.head? = some c with
    | some c => (l, .ran c argv)
    | none => (l, .refused .notRecognized)

def dispatchCommand (l : Listener) (data : Text) : Listener × Reply :=
  match parseCommand l.withSeq data with
  | .error r => (l, .refused r)
  | .ok s => deliver l s.argv

/-! ## Quoting -/

def escaped (c : UInt8) : Text := if c = backslash ∨ c = quotes then [backslash, c] else [c]

def quoteArg (arg : Text) : Text := quotes :: (arg.flatMap escaped ++ [quotes])

def quoted (args : List Text) : Text := List.intercalate [blank] (args.map quoteArg)

theorem quoted_singleton (arg : Text) : quoted [arg] = quoteArg arg := by simp [quoted]

theorem quoted_cons_cons (arg next : Text) (args : List Text) :
    quoted (arg :: next :: args) = quoteArg arg ++ blank :: quoted (next :: args) := by
  simp [quoted]

section Feed

variable (s : Parser)

theorem feed_backslash (h : s.esc = false) : feed s backslash = .ok { s with esc := true } := by
  rw [feed, if_pos rfl, if_neg (by rw [h]; decide)]

theorem store_ok (c : UInt8) (room : s.tmp.length < 1023) :
    store s c = .ok { s with tmp := s.tmp ++ [c] } :=
  if_neg (Nat.not_le.mpr room)

variable {c : UInt8}

/-- The byte behind a backslash. -/
theorem feed_escaped (hc : c = backslash ∨ c = quotes) (h : s.esc = true)
    (room : s.tmp.length < 1023) : feed s c = .ok { s with esc := false, tmp := s.tmp ++ [c] } := by
  rcases hc with rfl | rfl
  · rw [feed, if_pos rfl, if_pos h]
    exact store_ok { s with esc := false } backslash room
  · rw [feed, if_neg (by decide), if_pos h, if_pos rfl]
    exact store_ok { s with esc := false } quotes room

theorem feed_quotes (h : s.esc = false) : feed s quotes = .ok { s with quote := !s.quote } := by
  rw [feed, if_neg (by decide), if_neg (by rw [h]; decide), if_pos rfl]

/-- Any other byte, unless it is a blank that ends a word. -/
theorem feed_plain (hc : ¬ (c = backslash ∨ c = quotes)) (hblank : s.quote = true ∨ c ≠ blank)
    (h : s.esc = false) (room : s.tmp.length < 1023) :
    feed s c = .ok { s with tmp := s.tmp ++ [c] } := by
  rw [not_or] at hc
  have hword : ¬ (s.quote = false ∧ c = blank) := by
    rintro ⟨hquote, rfl⟩
    rcases hblank with hblank | hblank
    · rw [hquote] at hblank
      cases hblank
    · exact hblank rfl
  rw [feed, if_neg hc.1, if_neg (by rw [h]; decide), if_neg hc.2, if_neg hword, store_ok s c room]

theorem feed_blank (hesc : s.esc = false) (hquote : s.quote = false) (room : s.tmp.length < 1023) :
    feed s blank = endWord s := by
  rw [feed, if_neg (by decide), if_neg (by rw [hesc]; decide), if_neg (by decide),
    if_pos ⟨hquote, rfl⟩]
  exact if_neg (Nat.not_le.mpr room)

/-- Between the quotes the word grows by what was quoted. -/
theorem run_escaped (arg : Text) (hesc : s.esc = false) (hquote : s.quote = true)
    (room : s.tmp.length + arg.length ≤ 1023) :
    Runs.run feed s (arg.flatMap escaped) = .ok { s with tmp := s.tmp ++ arg } := by
  induction arg generalizing s with
  | nil => rw [flatMap_nil, append_nil]; rfl
  | cons c arg ih =>
    rw [length_cons] at room
    rw [flatMap_cons, run_append]
    -- one byte, with or without a backslash in front of it
    have hbyte : run feed s (escaped c) = .ok { s with tmp := s.tmp ++ [c] } := by
      unfold escaped
      split
      · rename_i hc
        have hstored := feed_escaped { s with esc := true } hc rfl (show s.tmp.length < 1023 by omega)
        rw [run_cons_ok (feed_backslash s hesc), run_cons_ok hstored, ← hesc]
        rfl
      · rename_i hc
        rw [run_cons_ok (feed_plain s hc (.inl hquote) hesc (by omega))]
        rfl
    have hrest := ih { s with tmp := s.tmp ++ [c] } hesc hquote (by
      rw [length_append, length_singleton]
      omega)
    rw [hbyte]
    dsimp only
    rw [hrest, append_assoc, singleton_append]

theorem run_quoteArg (arg : Text) (hesc : s.esc = false) (hquote : s.quote = false)
    (htmp : s.tmp = []) (room : arg.length ≤ 1023) :
    Runs.run feed s (quoteArg arg) = .ok { s with tmp := arg } := by
  have hinner := run_escaped { s with quote := true } arg hesc rfl (by
    rw [show ({ s with quote := true } : Parser).tmp = s.tmp from rfl, htmp, length_nil]
    omega)
  have hclose := feed_quotes { s with quote := true, tmp := s.tmp ++ arg } hesc
  rw [quoteArg, run_cons_ok (feed_quotes s hesc), run_append, hquote, Bool.not_false,
    hinner]
  dsimp only
  rw [run_cons_ok hclose, htmp, nil_append, Bool.not_true, ← hquote]
  rfl

theorem pushArg_ok (few : s.argv.length < 26) :
    pushArg s = .ok { s with argv := s.argv ++ [s.tmp], tmp := [] } :=
  if_neg (Nat.not_le.mpr few)

end Feed

/-- Between two words, with the sequence number behind it. -/
structure Between (s : Parser) : Prop where
  esc : s.esc = false
  quote : s.quote = false
  haveCmdNum : s.haveCmdNum = true
  tmp : s.tmp = []

/-- The words are read as they were quoted, and the last of them waits for the end. -/
theorem run_quoted {s : Parser} (h : Between s) (args : List Text) (hne : args ≠ [])
    (few : s.argv.length + args.length ≤ 26) (short : ∀ arg ∈ args, arg.length < 1023) :
    ∃ s', Runs.run feed s (quoted args) = .ok s' ∧
      pushArg s' = .ok { s with argv := s.argv ++ args } := by
  induction args generalizing s with
  | nil => exact absurd rfl hne
  | cons arg args ih =>
    have hlen := short arg mem_cons_self
    have hword := run_quoteArg s arg h.esc h.quote h.tmp (Nat.le_of_lt hlen)
    rw [length_cons] at few
    have hpush : pushArg { s with tmp := arg } = .ok { s with argv := s.argv ++ [arg], tmp := [] } :=
      pushArg_ok { s with tmp := arg } (show s.argv.length < 26 by omega)
    cases args with
    | nil =>
      refine ⟨{ s with tmp := arg }, ?_, ?_⟩
      · rw [quoted_singleton, hword]
      · rw [hpush, ← h.tmp]
    | cons next args =>
      have hend : feed { s with tmp := arg } blank =
          .ok { s with argv := s.argv ++ [arg], tmp := [] } := by
        rw [feed_blank { s with tmp := arg } h.esc h.quote hlen, endWord, if_pos h.haveCmdNum, hpush]
      obtain ⟨s', hrun, hpushed⟩ := ih (s := { s with argv := s.argv ++ [arg], tmp := [] })
        ⟨h.esc, h.quote, h.haveCmdNum, rfl⟩ (cons_ne_nil _ _)
        (by rw [length_append, length_singleton]; omega)
        (fun a ha => short a (mem_cons_of_mem _ ha))
      refine ⟨s', ?_, ?_⟩
      · rw [quoted_cons_cons, run_append, hword]
        dsimp only
        rw [run_cons_ok hend, hrun]
      · rw [hpushed, ← h.tmp, append_assoc, singleton_append]

/-! ## Whole commands -/

theorem length_quoteArg_ge (arg : Text) : arg.length + 2 ≤ (quoteArg arg).length := by
  have hinner : arg.length ≤ (arg.flatMap escaped).length := by
    induction arg with
    | nil => exact Nat.zero_le _
    | cons c arg ih =>
      have hbyte : 1 ≤ (escaped c).length := by
        unfold escaped
        split <;> simp
      rw [flatMap_cons, length_append, length_cons]
      omega
  rw [quoteArg, length_cons, length_append, length_singleton]
  omega

variable {args : List Text} {data arg : Text}

theorem length_arg_lt (h : arg ∈ args) : arg.length + 2 ≤ (quoted args).length := by
  induction args with
  | nil => cases h
  | cons first args ih =>
    cases args with
    | nil =>
      rw [mem_singleton.mp h, quoted_singleton]
      exact length_quoteArg_ge first
    | cons next args =>
      rw [quoted_cons_cons, length_append, length_cons]
      rcases mem_cons.mp h with rfl | h
      · have := length_quoteArg_ge arg
        omega
      · have := ih h
        omega

theorem zero_not_mem_quoteArg (h : 0 ∉ arg) : 0 ∉ quoteArg arg := by
  intro hmem
  rcases mem_cons.mp hmem with hz | hmem
  · exact absurd hz (by decide)
  · rcases mem_append.mp hmem with hmem | hmem
    · obtain ⟨c, hc, hz⟩ := mem_flatMap.mp hmem
      unfold escaped at hz
      split at hz
      · rcases mem_cons.mp hz with hz | hz
        · exact absurd hz (by decide)
        · exact h (mem_singleton.mp hz ▸ hc)
      · exact h (mem_singleton.mp hz ▸ hc)
    · exact absurd (mem_singleton.mp hmem) (by decide)

theorem zero_not_mem_quoted (h : ∀ arg ∈ args, 0 ∉ arg) : 0 ∉ quoted args := by
  induction args with
  | nil => exact not_mem_nil
  | cons first args ih =>
    have hfirst := zero_not_mem_quoteArg (h first mem_cons_self)
    cases args with
    | nil => rwa [quoted_singleton]
    | cons next args =>
      have hrest := ih fun arg harg => h arg (mem_cons_of_mem _ harg)
      rw [quoted_cons_cons]
      intro hmem
      rcases mem_append.mp hmem with hmem | hmem
      · exact hfirst hmem
      · rcases mem_cons.mp hmem with hz | hmem
        · exact absurd hz (by decide)
        · exact hrest hmem

/-- A sequence number as a client sends it. -/
structure IsSequence (seq : Text) : Prop where
  plain : ∀ c ∈ seq, ¬ (c = backslash ∨ c = quotes) ∧ c ≠ blank ∧ c ≠ 0
  short : seq.length < 1023
  whole : (strtol seq).2 = []

theorem run_plain (s : Parser) (word : Text)
    (plain : ∀ c ∈ word, ¬ (c = backslash ∨ c = quotes) ∧ c ≠ blank ∧ c ≠ 0)
    (hesc : s.esc = false) (room : s.tmp.length + word.length ≤ 1023) :
    Runs.run feed s word = .ok { s with tmp := s.tmp ++ word } := by
  induction word generalizing s with
  | nil => rw [append_nil]; rfl
  | cons c word ih =>
    rw [length_cons] at room
    obtain ⟨hc, hblank, -⟩ := plain c mem_cons_self
    have hrest := ih { s with tmp := s.tmp ++ [c] } (fun d hd => plain d (mem_cons_of_mem c hd))
      hesc (by
        rw [length_append, length_singleton]
        omega)
    rw [run_cons_ok (feed_plain s hc (.inr hblank) hesc (by omega)), hrest, append_assoc,
      singleton_append]

/-- What the words of a command are, once the sequence number is out of the way. -/
theorem parse_of_run {withSeq : Bool} {s s' : Parser} (free : 0 ∉ data)
    (hrun : Runs.run feed ⟨[], [], false, false, !withSeq, none⟩ data = .ok s)
    (hpush : pushArg s = .ok s') (hquote : s'.quote = false) :
    parseCommand withSeq data = .ok s' := by
  simp only [parseCommand, takeWhile_of_zero_not_mem free, hrun, bind, Except.bind, hpush, hquote]
  rfl

/-- A listener without sequence numbers takes the quoted arguments for exactly these arguments. One
with sequence numbers does so behind a number and a blank. -/
theorem quoted_args_dispatched (l : Listener) (args : List Text) (hne : args ≠ [])
    (few : args.length ≤ 26) (free : ∀ arg ∈ args, 0 ∉ arg) (short : (quoted args).length < 1024) :
    (l.withSeq = false →
      parseCommand l.withSeq (quoted args) = .ok ⟨args, [], false, false, true, none⟩ ∧
        dispatchCommand l (quoted args) = deliver l args) ∧
    (l.withSeq = true → ∀ seq, IsSequence seq →
      parseCommand l.withSeq (seq ++ blank :: quoted args) =
          .ok ⟨args, [], false, false, true, some ((strtol seq).1.bmod (2 ^ 32))⟩ ∧
        dispatchCommand l (seq ++ blank :: quoted args) = deliver l args) := by
  have hlen : ∀ arg ∈ args, arg.length < 1023 := by
    intro arg harg
    have := length_arg_lt harg
    omega
  have hfree := zero_not_mem_quoted free
  refine ⟨fun hseq => ?_, fun hseq seq his => ?_⟩
  · obtain ⟨s, hrun, hpush⟩ := run_quoted (s := ⟨[], [], false, false, true, none⟩)
      ⟨rfl, rfl, rfl, rfl⟩ args hne (by rw [length_nil]; omega) hlen
    have hparse : parseCommand l.withSeq (quoted args) = .ok ⟨args, [], false, false, true, none⟩ := by
      rw [hseq]
      exact parse_of_run hfree hrun hpush rfl
    exact ⟨hparse, by simp only [dispatchCommand, hparse]⟩
  · obtain ⟨s, hrun, hpush⟩ := run_quoted
      (s := ⟨[], [], false, false, true, some ((strtol seq).1.bmod (2 ^ 32))⟩)
      ⟨rfl, rfl, rfl, rfl⟩ args hne (by rw [length_nil]; omega) hlen
    have hword := run_plain ⟨[], [], false, false, false, none⟩ seq his.plain rfl (by
      rw [length_nil]
      have := his.short
      omega)
    have hnumber : feed ⟨[], seq, false, false, false, none⟩ blank =
        .ok ⟨[], [], false, false, true, some ((strtol seq).1.bmod (2 ^ 32))⟩ := by
      rw [feed_blank _ rfl rfl his.short, endWord, if_neg Bool.false_ne_true,
        if_neg (not_not.mpr his.whole)]
    have hall : run feed ⟨[], [], false, false, false, none⟩ (seq ++ blank :: quoted args) =
        .ok s := by
      rw [run_append, hword]
      dsimp only
      rw [nil_append, run_cons_ok hnumber, hrun]
    have hzero : 0 ∉ seq ++ blank :: quoted args := by
      intro hmem
      rcases mem_append.mp hmem with hmem | hmem
      · exact (his.plain 0 hmem).2.2 rfl
      · rcases mem_cons.mp hmem with hz | hmem
        · exact absurd hz (by decide)
        · exact hfree hmem
    have hparse : parseCommand l.withSeq (seq ++ blank :: quoted args) =
        .ok ⟨args, [], false, false, true, some ((strtol seq).1.bmod (2 ^ 32))⟩ := by
      rw [hseq]
      exact parse_of_run hzero hall hpush rfl
    exact ⟨hparse, by simp only [dispatchCommand, hparse]⟩

/-- An empty argument, one with a blank and one with a quote and a backslash. -/
theorem quoted_args_dispatched_three :
    dispatchCommand ⟨[ascii "set"], false, 0, 0⟩
        (quoted [ascii "set", [], ascii "a b", [quotes, backslash]]) =
      deliver ⟨[ascii "set"], false, 0, 0⟩ [ascii "set", [], ascii "a b", [quotes, backslash]] :=
  ((quoted_args_dispatched ⟨[ascii "set"], false, 0, 0⟩
    [ascii "set", [], ascii "a b", [quotes, backslash]] (by decide) (by decide) (by decide)
    (by decide)).1 rfl).2

/-- A listener with sequence numbers refuses two quoted arguments, as the first is no number. -/
theorem quoted_args_taken_for_sequence :
    dispatchCommand ⟨[ascii "set"], true, 0, 0⟩ (quoted [ascii "set", ascii "a"]) =
      (⟨[ascii "set"], true, 0, 0⟩, .refused .invalidSequence) := by
  decide +kernel

/-! ## What a handler gets -/

/-- A C string that fits into `tmp`. -/
def Word (a : Text) : Prop := a.length < CMD_BUF_SIZE ∧ 0 ∉ a

structure InBuffers (s : Parser) : Prop where
  tmp : Word s.tmp
  words : ∀ a ∈ s.argv, Word a
  args : s.argv.length ≤ CMD_ARGS_MAX

abbrev Kept : Except Refusal Parser → Prop := Outcome (fun _ => True) InBuffers

theorem word_nil : Word [] := ⟨by decide, not_mem_nil⟩

section InBuffers

variable {s : Parser} {c : UInt8} (h : InBuffers s)

include h

theorem InBuffers.pushArg : Kept (pushArg s) :=
  .ite (fun _ => trivial) fun hroom =>
    ⟨word_nil, by simpa [or_imp, forall_and] using ⟨h.words, h.tmp⟩, by simp; omega⟩

theorem InBuffers.store (hc : c ≠ 0) : Kept (store s c) :=
  .ite (fun _ => trivial) fun hroom =>
    ⟨⟨by simp; omega, by simpa [hc.symm] using h.tmp.2⟩, h.words, h.args⟩

theorem InBuffers.feed (hc : c ≠ 0) : Kept (feed s c) := by
  have hesc : ∀ b, InBuffers { s with esc := b } := fun _ => ⟨h.tmp, h.words, h.args⟩
  unfold Libsysutils.feed endWord
  split_ifs
  · exact (hesc false).store (by decide)
  · exact hesc true
  · exact (hesc false).store (by decide)
  · trivial
  · exact ⟨h.tmp, h.words, h.args⟩
  · trivial
  · exact h.pushArg
  · trivial
  · exact ⟨word_nil, h.words, h.args⟩
  · exact h.store hc

theorem InBuffers.run {data : Text} (hdata : ∀ c ∈ data, c ≠ 0) :
    Kept (run Libsysutils.feed s data) := by
  cases hr : Runs.run Libsysutils.feed s data with
  | error e => trivial
  | ok t =>
    exact run_of_along (Q := InBuffers) (P := fun _ c => c ≠ 0) (fun _ _ _ h hc => (h.feed hc).of_ok) data h
      (along_of_forall fun c hc _ => hdata c hc) hr

end InBuffers

theorem parseCommand_kept (withSeq : Bool) (data : Text) : Kept (parseCommand withSeq data) := by
  have h : InBuffers ⟨[], [], false, false, !withSeq, none⟩ := ⟨word_nil, nofun, Nat.zero_le _⟩
  refine (h.run fun c hc => ?_).bind fun t ht => ht.pushArg.bind fun u hu => ?_
  · simpa using mem_takeWhile_imp hc
  · exact .ite (fun _ => trivial) fun _ => hu

/-- A handler is called by its name, with arguments that are in `argv` and fit into `tmp`. -/
def Reply.Sound (l : Listener) : Reply → Prop
  | .ran c argv => c ∈ l.commands ∧ argv.head? = some c ∧ argv.length ≤ CMD_ARGS_MAX ∧
      ∀ a ∈ argv, Word a
  | _ => True

theorem dispatch_in_buffers (l : Listener) (data : Text) : (dispatchCommand l data).2.Sound l := by
  have hp := parseCommand_kept l.withSeq data
  unfold dispatchCommand
  generalize parseCommand l.withSeq data = r at hp ⊢
  cases r with
  | error r => trivial
  | ok s =>
    change (deliver l s.argv).2.Sound l
    unfold deliver
    extract_lets counted
    have hl : counted.commands = l.commands := by
      unfold counted
      split <;> rfl
    split
    · trivial
    · split
      · rename_i c hc
        rw [hl] at hc
        exact ⟨mem_of_find?_eq_some hc, of_decide_eq_true (find?_some hc :), hp.args, hp.words⟩
      · trivial

end SystemCore.Libsysutils
