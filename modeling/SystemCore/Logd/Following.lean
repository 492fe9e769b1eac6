import Mathlib.Data.List.Nodup
import Mathlib.Data.List.Perm.Basic
import SystemCore.Logd.FlushTo

/-!
# A reader that follows the log

Many threads log while one blocking reader makes pass after pass. A thread draws the number of
its element before it takes the lock, and a pass gives the lock back while it sends, so the
threads come in between. The lock makes the rest atomic: a step of the reader goes from taking
the lock to giving it back.
-/
namespace SystemCore.Logd

open Lib.Runs List

variable {μ : Type}

/-! ## The threads -/

/-- The reader's thread: before a pass from `start`, or in a pass from `start` and sending. -/
inductive ReaderState (μ : Type) where
  | idle (start : Nat)
  | sending (start : Nat) (e : LogBufferElement μ)
  | failed
  deriving DecidableEq

/-- The elements in `made` have their number and wait for the lock. -/
structure Following (μ : Type) where
  buffer : LogBuffer μ
  made : List (LogBufferElement μ)
  reader : ReaderState μ
  delivered : List (LogBufferElement μ)

inductive Event (μ : Type) where
  | construct (id : LogId) (call : LogBuffer.LogCall μ)
  /-- A thread that waits with the element at this place in `made` takes the lock. -/
  | insert (place : Nat)
  /-- The element is not loggable. -/
  | discard (place : Nat)
  | reader

namespace Following

def elements (s : Following μ) : List (LogBufferElement μ) := s.buffer.mLogElements

/-- The elements behind the iterator, which is at the element with this address. -/
def restAfter (addr : Nat) (l : List (LogBufferElement μ)) : List (LogBufferElement μ) :=
  (l.dropWhile fun e => e.addr ≠ addr).tail

/-- The pass goes on to the next element to send, or returns `max`. -/
def proceed (client : SocketClient μ) (start max : Nat) (rest : List (LogBufferElement μ))
    (s : Following μ) : Following μ :=
  match rest.find? fun e => (examine client start true none () e).1 = .take with
  | none => { s with reader := .idle max }
  | some e => { s with reader := .sending start e }

def readerStep (client : SocketClient μ) (s : Following μ) : Following μ :=
  match s.reader with
  | .idle start => s.proceed client start start (resumePoint start s.elements)
  | .sending start e =>
    if e.flushTo client = FLUSH_ERROR then { s with reader := .failed }
    else
      { s with delivered := s.delivered ++ [e] }.proceed client start (e.flushTo client)
        (restAfter e.addr s.elements)
  | .failed => s

def insertAt (place : Nat) (s : Following μ) : Following μ :=
  match s.made[place]? with
  | none => s
  | some elem =>
    let b := s.buffer.insert elem
    { s with buffer := { b with stats := b.stats.add elem }, made := s.made.eraseIdx place }

def discardAt (place : Nat) (s : Following μ) : Following μ :=
  match s.made[place]? with
  | none => s
  | some elem =>
    let b := s.buffer
    { s with
      buffer := { b with stats := (b.stats.add elem).subtract elem }
      made := s.made.eraseIdx place }

def constructElement (id : LogId) (call : LogBuffer.LogCall μ) (s : Following μ) : Following μ :=
  let (elem, b) := s.buffer.construct id call
  { s with buffer := b, made := s.made ++ [elem] }

/-- No event fails. -/
def step (client : SocketClient μ) (s : Following μ) : Event μ → Except Fault (Following μ)
  | .construct id call => .ok (s.constructElement id call)
  | .insert place => .ok (s.insertAt place)
  | .discard place => .ok (s.discardAt place)
  | .reader => .ok (s.readerStep client)

/-- At process start, with these readers registered. -/
def init (mMaxSize : LogId → Nat) (mTimes : List LogTimeEntry) : Following μ where
  buffer := { LogBuffer.init mMaxSize with mTimes }
  made := []
  reader := .idle 1
  delivered := []

/-! ## A pass with no one in between -/

section Send

variable {client : SocketClient μ} {start : Nat} {e : LogBufferElement μ}
  {rest : List (LogBufferElement μ)}

theorem examine_take_iff :
    (examine client start true none () e).1 = .take ↔ start < e.mSequence := by
  unfold examine
  by_cases he : e.mSequence ≤ start
  · simp [he]
  · simp [he, Nat.lt_of_not_le he]

theorem proceed_cons_take (h : start < e.mSequence) (max : Nat) (s : Following μ) :
    s.proceed client start max (e :: rest) = { s with reader := .sending start e } := by
  simp [proceed, examine_take_iff, h]

theorem proceed_cons_skip (h : ¬ start < e.mSequence) (max : Nat) (s : Following μ) :
    s.proceed client start max (e :: rest) = s.proceed client start max rest := by
  simp [proceed, examine_take_iff, h]

end Send

variable {s : Following μ} {pre post : List (LogBufferElement μ)} {e : LogBufferElement μ}

theorem restAfter_split (h : AddrsDistinct (pre ++ e :: post)) :
    restAfter e.addr (pre ++ e :: post) = post := by
  have hpre : ∀ x ∈ pre, decide (x.addr ≠ e.addr) = true := by
    intro x hx
    unfold AddrsDistinct at h
    rw [map_append, nodup_append] at h
    exact decide_eq_true (h.2.2 _ (mem_map_of_mem hx) _ (by simp))
  unfold restAfter
  rw [dropWhile_append_of_pos hpre, dropWhile_cons_of_neg (by simp), tail_cons]

section Alone

variable {client : SocketClient μ} {start : Nat} (hsend : ∀ e, client.sendDatav e = false)

include hsend

theorem readerStep_sending (hreader : s.reader = .sending start e) (hseq : start < e.mSequence)
    (hs : s.elements = pre ++ e :: post) (hd : AddrsDistinct s.elements) :
    s.readerStep client =
      { s with delivered := s.delivered ++ [e] }.proceed client start e.mSequence post := by
  have hflush := flushTo_of_sends hsend e
  have hne : e.mSequence ≠ FLUSH_ERROR := Nat.ne_of_gt (Nat.lt_of_le_of_lt (Nat.zero_le _) hseq)
  have hrest : restAfter e.addr s.elements = post := by
    rw [hs] at hd ⊢
    exact restAfter_split hd
  simp only [readerStep, hreader, hflush, hne, if_false, hrest]

/-- The steps of the reader from a place in the list on do what the loop of `flushTo` does. -/
theorem proceed_alone (start : Nat) (rest : List (LogBufferElement μ)) (s : Following μ)
    (pre : List (LogBufferElement μ)) (max : Nat) (hs : s.elements = pre ++ rest)
    (hd : AddrsDistinct s.elements) :
    ∃ n, run (step client) (s.proceed client start max rest) (List.replicate n .reader) =
      .ok { s with
        reader := .idle (flushLoop client start true none () max rest).max
        delivered := s.delivered ++ (flushLoop client start true none () max rest).passed } := by
  induction rest generalizing s pre max with
  | nil =>
    refine ⟨0, ?_⟩
    simp [run, proceed, flushLoop]
  | cons e rest ih =>
    by_cases he : start < e.mSequence
    case pos =>
      have hne : e.mSequence ≠ FLUSH_ERROR :=
        Nat.ne_of_gt (Nat.lt_of_le_of_lt (Nat.zero_le _) he)
      obtain ⟨n, hn⟩ := ih { s with delivered := s.delivered ++ [e] } (pre ++ [e]) e.mSequence
        (by rw [append_assoc]; exact hs) hd
      refine ⟨n + 1, ?_⟩
      have hstep : step client { s with reader := .sending start e } .reader =
          .ok ({ s with delivered := s.delivered ++ [e] }.proceed client start e.mSequence rest) := by
        have hread := readerStep_sending hsend
          (s := { s with reader := .sending start e }) rfl he hs hd
        rw [step, hread]
        unfold proceed
        split <;> rfl
      rw [proceed_cons_take he, replicate_succ, run_cons_ok hstep, hn]
      simp [flushLoop, examine, Nat.not_le_of_lt he, flushTo_of_sends hsend e, hne]
    case neg =>
      obtain ⟨n, hn⟩ := ih s (pre ++ [e]) max (by rw [append_assoc]; exact hs) hd
      refine ⟨n, ?_⟩
      rw [proceed_cons_skip he, hn]
      simp [flushLoop, examine, Nat.le_of_not_lt he]

/-- A pass that no thread interrupts is a call of `flushTo`. -/
theorem pass_alone (hreader : s.reader = .idle start) (hd : AddrsDistinct s.elements) :
    ∃ n, run (step client) s (List.replicate (n + 1) .reader) =
      .ok { s with
        reader := .idle (s.buffer.flushTo client start true none ()).max
        delivered := s.delivered ++ (s.buffer.flushTo client start true none ()).passed } := by
  obtain ⟨pre, hpre⟩ : ∃ pre, s.elements = pre ++ resumePoint start s.elements := by
    unfold resumePoint
    split
    · exact ⟨[], rfl⟩
    · obtain ⟨pre, hpre⟩ := rtakeWhile_suffix (fun e : LogBufferElement μ =>
        decide (start < e.mSequence)) s.elements
      exact ⟨pre, hpre.symm⟩
  obtain ⟨n, hn⟩ := proceed_alone hsend start (resumePoint start s.elements) s pre start hpre hd
  refine ⟨n, ?_⟩
  have hstep : step client s .reader =
      .ok (s.proceed client start start (resumePoint start s.elements)) := by
    simp only [step, readerStep, hreader]
  rw [replicate_succ, run_cons_ok hstep, hn]
  rfl

end Alone

/-! ## What the reader has and what is before it -/

/-- The number from which the reader takes elements: of the pass it is in, or of the next. -/
def mark (s : Following μ) : Nat :=
  match s.reader with
  | .idle start => start
  | .sending start _ => start
  | .failed => 0

/-- An element comes into the list with a number above the reader's. -/
def Timely (s : Following μ) : Event μ → Prop
  | .insert place => ∀ elem ∈ s.made[place]?, s.mark < elem.mSequence
  | _ => True

instance (s : Following μ) : ∀ ev, Decidable (Timely s ev)
  | .insert place => inferInstanceAs (Decidable (∀ elem ∈ s.made[place]?, _))
  | .construct .. | .discard _ | .reader => isTrue trivial

/-- The reader stands between what was delivered and the rest. -/
def Stands (delivered rest : List (LogBufferElement μ)) : ReaderState μ → Prop
  | .idle start => delivered = [] ∧ start = 1 ∨
      ∃ front last, delivered = front ++ [last] ∧ last.mSequence = start ∧ 1 < start
  | .sending start e => rest.head? = some e ∧ 1 ≤ start
  | .failed => False

/-- What was delivered is the list up to the reader's place, and the rest is still to come. -/
def Placed (s : Following μ) : Prop :=
  ∃ rest, s.elements = s.delivered ++ rest ∧ (∀ r ∈ rest, s.mark < r.mSequence) ∧
    Stands s.delivered rest s.reader

structure Kept (s : Following μ) : Prop where
  blocking : ∃ t ∈ s.buffer.mTimes, t.owned = true ∧ t.mNonBlock = false
  distinct : ((s.elements ++ s.made).map (·.addr)).Nodup
  addr_lt : ∀ e ∈ s.elements ++ s.made, e.addr < s.buffer.nextAddr
  placed : Placed s

theorem Kept.addrsDistinct (h : Kept s) : AddrsDistinct s.elements := by
  have hd := h.distinct
  rw [map_append] at hd
  exact (nodup_append.mp hd).1

theorem readersEnd_blocking (times : List LogTimeEntry) (end_ : Option Nat)
    (h : ∃ t ∈ times, t.owned = true ∧ t.mNonBlock = false) :
    (LogBuffer.readersEnd times end_).1 = true := by
  induction times generalizing end_ with
  | nil => obtain ⟨t, ht, -⟩ := h; cases ht
  | cons x times ih =>
    obtain ⟨t, ht, howned, hblock⟩ := h
    unfold LogBuffer.readersEnd
    rcases mem_cons.mp ht with rfl | ht
    · simp [howned, hblock]
    · have hrest := fun end_ => ih end_ ⟨t, ht, howned, hblock⟩
      split
      · split
        · rfl
        · split <;> exact hrest _
      · exact hrest _

/-- With a blocking reader every element goes to the end of the list. -/
theorem insert_at_end {b : LogBuffer μ} (elem : LogBufferElement μ)
    (h : ∃ t ∈ b.mTimes, t.owned = true ∧ t.mNonBlock = false) :
    b.insert elem = b.setElements (b.mLogElements ++ [elem]) := by
  unfold LogBuffer.insert
  split
  · rfl
  · simp only [readersEnd_blocking b.mTimes none h, true_or, if_true]
    rfl

/-- An element behind the list is one more to come. -/
theorem Placed.append {t : Following μ} {elem : LogBufferElement μ} (h : Placed s)
    (hreader : t.reader = s.reader) (hdelivered : t.delivered = s.delivered)
    (helements : t.elements = s.elements ++ [elem]) (htimely : s.mark < elem.mSequence) :
    Placed t := by
  obtain ⟨rest, hs, hrest, hstands⟩ := h
  refine ⟨rest ++ [elem], by rw [helements, hs, hdelivered, append_assoc], ?_, ?_⟩
  · rw [mark, hreader]
    exact forall_mem_append.mpr ⟨hrest, forall_mem_singleton.mpr htimely⟩
  · rw [hdelivered, hreader]
    cases hr : s.reader with
    | idle start => rwa [hr] at hstands
    | sending start e =>
      rw [hr] at hstands
      exact ⟨by rw [head?_append, hstands.1]; rfl, hstands.2⟩
    | failed => rwa [hr] at hstands

section Steps

variable {client : SocketClient μ} {start max : Nat} {rest delivered : List (LogBufferElement μ)}
  {s t : Following μ}

/-- The search from the end finds the reader's place again. -/
theorem resumePoint_of_placed (hrest : ∀ r ∈ rest, start < r.mSequence)
    (hlast : delivered = [] ∧ start = 1 ∨
      ∃ front last, delivered = front ++ [last] ∧ last.mSequence = start ∧ 1 < start) :
    resumePoint start (delivered ++ rest) = rest := by
  unfold resumePoint
  rcases hlast with ⟨rfl, rfl⟩ | ⟨front, last, rfl, hlast, hstart⟩
  · rfl
  · rw [if_neg (Nat.not_le_of_lt hstart), List.rtakeWhile, reverse_append]
    have hall : ∀ r ∈ rest.reverse, decide (start < r.mSequence) = true := fun r hr =>
      decide_eq_true (hrest r (mem_reverse.mp hr))
    have hfront : (front ++ [last]).reverse = last :: front.reverse := by simp
    rw [takeWhile_append_of_pos hall, hfront,
      takeWhile_cons_of_neg (by simp [hlast]), append_nil, reverse_reverse]

/-- What a step of the reader does: it leaves the buffer alone, delivers no more than what is
next, and ends a pass only when it has delivered the list. -/
structure Read (s t : Following μ) : Prop where
  buffer : t.buffer = s.buffer
  made : t.made = s.made
  delivered : s.delivered <+: t.delivered
  placed : Placed t
  ends : (∃ start e, t.reader = .sending start e) ∨ t.delivered = t.elements

theorem Read.elements_eq (h : Read s t) : t.elements = s.elements :=
  congrArg LogBuffer.mLogElements h.buffer

/-- The reader proceeds from the part of the list that is still to come. A pass that ends has
delivered the list. -/
theorem proceed_read (hs : s.elements = delivered ++ rest) (hgrows : s.delivered <+: delivered)
    (hrest : ∀ r ∈ rest, start < r.mSequence) (hpos : 1 ≤ start) (hlast : delivered = [] ∧ max = 1 ∨
      ∃ front last, delivered = front ++ [last] ∧ last.mSequence = max ∧ 1 < max) :
    Read s ({ s with delivered := delivered }.proceed client start max rest) := by
  cases rest with
  | nil =>
    refine ⟨rfl, rfl, hgrows, ⟨[], hs, fun _ hr => absurd hr not_mem_nil, hlast⟩, .inr ?_⟩
    rw [append_nil] at hs
    exact hs.symm
  | cons e rest =>
    rw [proceed_cons_take (hrest e mem_cons_self)]
    exact ⟨rfl, rfl, hgrows, ⟨e :: rest, hs, hrest, rfl, hpos⟩, .inl ⟨start, e, rfl⟩⟩

theorem readerStep_spec (hsend : ∀ e, client.sendDatav e = false) (hs : Kept s) :
    Read s (s.readerStep client) := by
  obtain ⟨rest, helements, hrest, hstands⟩ := hs.placed
  unfold mark at hrest
  cases hr : s.reader with
  | idle start =>
    rw [hr] at hrest hstands
    have hlast : s.delivered = [] ∧ start = 1 ∨ _ := hstands
    have hstep : s.readerStep client = s.proceed client start start rest := by
      simp only [readerStep, hr]
      rw [helements, resumePoint_of_placed hrest hlast]
    rw [hstep]
    exact proceed_read helements prefix_rfl hrest (by omega) hlast
  | sending start e =>
    rw [hr] at hrest hstands
    obtain ⟨hhead, hpos⟩ := hstands
    obtain ⟨rest, rfl⟩ := head?_eq_some_iff.mp hhead
    have hseq := hrest e mem_cons_self
    rw [readerStep_sending hsend hr hseq helements hs.addrsDistinct]
    refine proceed_read ?_ (prefix_append _ _) (fun r h => hrest r (mem_cons_of_mem e h))
      hpos (.inr ⟨s.delivered, e, rfl, rfl, Nat.lt_of_le_of_lt hpos hseq⟩)
    rw [append_assoc]
    exact helements
  | failed => rw [hr] at hstands; exact hstands.elim

theorem readerStep_kept (hsend : ∀ e, client.sendDatav e = false) (hs : Kept s) :
    Kept (s.readerStep client) := by
  have hread := readerStep_spec hsend hs
  refine ⟨hread.buffer ▸ hs.blocking, ?_, ?_, hread.placed⟩
  · rw [hread.elements_eq, hread.made]
    exact hs.distinct
  · rw [hread.elements_eq, hread.made, hread.buffer]
    exact hs.addr_lt

theorem Placed.of_eq (h : Placed s) (hreader : t.reader = s.reader)
    (hdelivered : t.delivered = s.delivered) (helements : t.elements = s.elements) : Placed t := by
  unfold Placed mark at *
  rwa [hreader, hdelivered, helements]

/-- The list and what was delivered only grow, and a reader that stops sending has delivered the
list. -/
structure Grows (s t : Following μ) : Prop where
  elements : s.elements <+: t.elements
  delivered : s.delivered <+: t.delivered
  ends : t.reader = s.reader ∨ (∃ start e, t.reader = .sending start e) ∨ t.delivered = t.elements

theorem constructElement_kept (hs : Kept s) (id : LogId) (call : LogBuffer.LogCall μ) :
    Kept (s.constructElement id call) := by
  have hnew : (s.buffer.construct id call).1.addr = s.buffer.nextAddr := rfl
  refine ⟨hs.blocking, ?_, fun e he => ?_, hs.placed.of_eq rfl rfl rfl⟩
  · change ((s.elements ++ (s.made ++ [(s.buffer.construct id call).1])).map (·.addr)).Nodup
    rw [← append_assoc, map_append, nodup_append]
    refine ⟨hs.distinct, nodup_singleton _, fun x hx y hy => ?_⟩
    obtain ⟨e, he, rfl⟩ := mem_map.mp hx
    obtain rfl : y = s.buffer.nextAddr := mem_singleton.mp hy
    exact Nat.ne_of_lt (hs.addr_lt e he)
  · change e ∈ s.elements ++ (s.made ++ [(s.buffer.construct id call).1]) at he
    rw [← append_assoc] at he
    rcases mem_append.mp he with he | he
    · exact Nat.lt_succ_of_lt (hs.addr_lt e he)
    · rw [mem_singleton.mp he, hnew]
      exact Nat.lt_succ_self _

theorem discardAt_kept (hs : Kept s) (place : Nat) :
    Kept (s.discardAt place) ∧ Grows s (s.discardAt place) := by
  unfold discardAt
  split
  case h_1 => exact ⟨hs, prefix_rfl, prefix_rfl, .inl rfl⟩
  case h_2 elem _ =>
    have hsub : (s.elements ++ s.made.eraseIdx place).Sublist (s.elements ++ s.made) :=
      List.Sublist.append_left (eraseIdx_sublist _ _) _
    exact ⟨⟨hs.blocking, hs.distinct.sublist (hsub.map _), fun e he => hs.addr_lt e (hsub.mem he),
      hs.placed.of_eq rfl rfl rfl⟩, prefix_rfl, prefix_rfl, .inl rfl⟩

theorem insertAt_kept (hs : Kept s) (place : Nat) (htimely : Timely s (.insert place)) :
    Kept (s.insertAt place) ∧ Grows s (s.insertAt place) := by
  unfold insertAt
  split
  case h_1 => exact ⟨hs, prefix_rfl, prefix_rfl, .inl rfl⟩
  case h_2 elem hat =>
    have hinsert := insert_at_end elem hs.blocking
    -- the element moves from those that wait to the end of the list
    have hperm : ((s.elements ++ [elem]) ++ s.made.eraseIdx place).Perm (s.elements ++ s.made) := by
      rw [append_assoc, singleton_append]
      obtain ⟨hlt, hget⟩ := List.getElem?_eq_some_iff.mp hat
      have hback := getElem_cons_eraseIdx_perm hlt
      rw [hget] at hback
      exact hback.append_left _
    simp only [hinsert]
    refine ⟨⟨hs.blocking, ?_, fun e he => hs.addr_lt e (hperm.mem_iff.mp he), ?_⟩,
      ⟨[elem], rfl⟩, prefix_rfl, .inl rfl⟩
    · exact ((hperm.map (·.addr)).nodup_iff).mpr hs.distinct
    · exact hs.placed.append rfl rfl rfl (htimely elem hat)

/-- What holds of the reader is kept by every event. -/
theorem step_kept (hsend : ∀ e, client.sendDatav e = false) (hs : Kept s) {ev : Event μ}
    (hev : Timely s ev) (hstep : step client s ev = .ok t) : Kept t ∧ Grows s t := by
  cases ev with
  | construct id call =>
    cases hstep
    exact ⟨constructElement_kept hs id call, prefix_rfl, prefix_rfl, .inl rfl⟩
  | insert place =>
    cases hstep
    exact insertAt_kept hs place hev
  | discard place =>
    cases hstep
    exact discardAt_kept hs place
  | reader =>
    cases hstep
    have hread := readerStep_spec hsend hs
    exact ⟨readerStep_kept hsend hs, hread.elements_eq ▸ prefix_rfl, hread.delivered, .inr hread.ends⟩

end Steps

/-! ## Whole runs -/

theorem init_kept (mMaxSize : LogId → Nat) {mTimes : List LogTimeEntry}
    (hblock : ∃ t ∈ mTimes, t.owned = true ∧ t.mNonBlock = false) :
    Kept (init mMaxSize mTimes : Following μ) where
  blocking := hblock
  distinct := nodup_nil
  addr_lt := fun _ h => by cases h
  placed := ⟨[], rfl, fun _ h => absurd h not_mem_nil, .inl ⟨rfl, rfl⟩⟩

section Runs

variable {client : SocketClient μ} (hsend : ∀ e, client.sendDatav e = false) {s t : Following μ}
  {events : List (Event μ)} {base : List (LogBufferElement μ)}

include hsend

/-- What was delivered stays delivered. -/
theorem run_kept (hs : Kept s) (htimely : Along (step client) Timely s events)
    (hrun : run (step client) s events = .ok t) : Kept t ∧ s.delivered <+: t.delivered := by
  refine run_of_along (P := Timely) (Q := fun t => Kept t ∧ s.delivered <+: t.delivered)
    (fun _ _ _ hs hev hstep => ?_) events ⟨hs, prefix_rfl⟩ htimely hrun
  obtain ⟨hkept, hgrows⟩ := step_kept hsend hs.1 hev hstep
  exact ⟨hkept, hs.2.trans hgrows.delivered⟩

/-- Until the pass that has begun is over, the reader is sending. Then it has delivered what
was in the list when the pass began. -/
theorem run_pass (hs : Kept s) (hbase : base <+: s.elements)
    (hpass : (∃ start e, s.reader = .sending start e) ∨ base <+: s.delivered)
    (htimely : Along (step client) Timely s events)
    (hrun : run (step client) s events = .ok t) :
    (∃ start e, t.reader = .sending start e) ∨ base <+: t.delivered := by
  refine (run_of_along (P := Timely) (Q := fun s => (Kept s ∧ base <+: s.elements) ∧
      ((∃ start e, s.reader = .sending start e) ∨ base <+: s.delivered))
    (fun s ev t hs hev hstep => ?_) events ⟨⟨hs, hbase⟩, hpass⟩ htimely hrun).2
  obtain ⟨⟨hkept, hbase⟩, hpass⟩ := hs
  obtain ⟨hkept', hgrows⟩ := step_kept hsend hkept hev hstep
  refine ⟨⟨hkept', hbase.trans hgrows.elements⟩, ?_⟩
  rcases hpass with ⟨start, e, hsending⟩ | hpass
  case inr => exact .inr (hpass.trans hgrows.delivered)
  case inl =>
    rcases hgrows.ends with hsame | hsending' | hall
    · exact .inl ⟨start, e, hsame.trans hsending⟩
    · exact .inl hsending'
    · exact .inr (hall ▸ hbase.trans hgrows.elements)

end Runs

theorem Kept.delivered_nodup (h : Kept s) : (s.delivered.map (·.addr)).Nodup := by
  obtain ⟨rest, hs, -⟩ := h.placed
  have hinitial : s.delivered <+: s.elements := ⟨rest, hs.symm⟩
  exact h.addrsDistinct.sublist (hinitial.sublist.map _)

/-- A following reader, under the condition that every element comes into the list with a
number above the reader's: from any time on, what was in the list has been delivered once, as
soon as the reader has made a pass. -/
theorem following_complete (client : SocketClient μ) (hsend : ∀ e, client.sendDatav e = false)
    (mMaxSize : LogId → Nat) (mTimes : List LogTimeEntry)
    (hblock : ∃ t ∈ mTimes, t.owned = true ∧ t.mNonBlock = false)
    (before pass later : List (Event μ)) (s t u : Following μ) (start : Nat)
    (htimely : Along (step client) Timely (init mMaxSize mTimes)
      (before ++ (.reader :: pass ++ later)))
    (hs : run (step client) (init mMaxSize mTimes) before = .ok s)
    (ht : run (step client) s (.reader :: pass) = .ok t) (hdone : t.reader = .idle start)
    (hu : run (step client) t later = .ok u) :
    ∀ e ∈ s.elements, e ∈ u.delivered ∧ (u.delivered.map (·.addr)).count e.addr = 1 := by
  obtain ⟨hbefore, hrest⟩ := htimely.append
  obtain ⟨hpass, hlater⟩ := (hrest s hs).append
  have hkept : Kept s := (run_kept hsend (init_kept mMaxSize hblock) hbefore hs).1
  have hkept_t : Kept t := (run_kept hsend hkept hpass ht).1
  -- the first step of the pass, from which on the reader is sending or done
  have hread := readerStep_spec hsend hkept
  have hfirst : (∃ start e, (s.readerStep client).reader = .sending start e) ∨
      s.elements <+: (s.readerStep client).delivered := by
    rcases hread.ends with hsending | hall
    · exact .inl hsending
    · rw [hall, hread.elements_eq]
      exact .inr prefix_rfl
  have hdelivered : s.elements <+: t.delivered := by
    rcases run_pass hsend (readerStep_kept hsend hkept)
      (hread.elements_eq ▸ prefix_rfl) hfirst (hpass.2 _ rfl) ht with ⟨_, _, h⟩ | h
    · rw [hdone] at h
      cases h
    · exact h
  obtain ⟨hkept_u, hstays⟩ := run_kept hsend hkept_t (hlater t ht) hu
  intro e he
  have hmem : e ∈ u.delivered := (hdelivered.trans hstays).subset he
  exact ⟨hmem, count_eq_one_of_mem hkept_u.delivered_nodup (mem_map_of_mem hmem)⟩

def follower : LogTimeEntry := ⟨1, false, 0xffffffff, fun _ => 0, 1, false, 0⟩

def followed : Following Unit := init (fun _ => 65536) [follower]

def constructAt (sec : UInt32) : Event Unit := .construct .main ⟨⟨sec, 0⟩, 1000, 1, 1, (), 10⟩

/-- Four numbers are drawn. The first two elements are not loggable. -/
def fourDrawn : List (Event Unit) :=
  [constructAt 1, constructAt 2, constructAt 3, constructAt 4, .discard 0, .discard 0]

/-- The element with number 3 comes in while the one with number 2 is sent. -/
theorem following_complete_sending :
    ∃ s u, run (step plainClient) followed (fourDrawn ++ [.insert 0, .reader, .insert 0]) = .ok s ∧
      run (step plainClient) s [.reader, .reader] = .ok u ∧ s.elements.length = 2 ∧
      ∀ e ∈ s.elements, e ∈ u.delivered ∧ (u.delivered.map (·.addr)).count e.addr = 1 := by
  obtain ⟨s, hs, hlen⟩ := exists_ok_of_any
    (r := run (step plainClient) followed (fourDrawn ++ [.insert 0, .reader, .insert 0]))
    (f := fun s => s.elements.length = 2 ∧
      (run (step plainClient) s [.reader, .reader]).toOption.any (fun u => u.reader = .idle 3))
    (by decide +kernel)
  obtain ⟨hlen, hany⟩ := of_decide_eq_true hlen
  obtain ⟨u, hu, hidle⟩ := exists_ok_of_any hany
  exact ⟨s, u, hs, hu, hlen, following_complete plainClient (fun _ => rfl) (fun _ => 65536) [follower]
    ⟨follower, mem_singleton_self _, rfl, rfl⟩ _ [.reader] [] s u u 3 (by decide +kernel) hs hu
    (of_decide_eq_true hidle) rfl⟩

theorem pass_alone_two :
    ∃ s n t, run (step plainClient) followed (fourDrawn ++ [.insert 0, .insert 0]) = .ok s ∧
      run (step plainClient) s (replicate (n + 1) .reader) = .ok t ∧
      t.delivered = (s.buffer.flushTo plainClient 1 true none ()).passed := by
  obtain ⟨s, hs, h⟩ := exists_ok_of_any
    (r := run (step plainClient) followed (fourDrawn ++ [.insert 0, .insert 0]))
    (f := fun s => s.reader = .idle 1 ∧ (s.elements.map (·.addr)).Nodup ∧ s.delivered = [])
    (by decide +kernel)
  obtain ⟨hreader, hd, hnone⟩ := of_decide_eq_true h
  obtain ⟨n, hn⟩ := pass_alone (fun _ => rfl : ∀ e, plainClient.sendDatav e = _) hreader hd
  exact ⟨s, n, _, hs, hn, by rw [hnone]; rfl⟩

/-- The thread with number 3 is the first to get the lock, and a pass delivers its element.
Then number 2 comes in, and the next pass is over without it. -/
theorem following_misses_overtaken :
    ∃ s t, run (step plainClient) followed
        (fourDrawn ++ [.insert 1, .reader, .reader, .insert 0]) = .ok s ∧
      s.reader = .idle 3 ∧ s.elements.map (·.mSequence) = [3, 2] ∧
      run (step plainClient) s [.reader] = .ok t ∧ t.reader = .idle 3 ∧
      t.delivered.map (·.mSequence) = [3] := by
  obtain ⟨s, hs, hcond⟩ := exists_ok_of_any
    (r := run (step plainClient) followed (fourDrawn ++ [.insert 1, .reader, .reader, .insert 0]))
    (f := fun s => (s.reader = .idle 3 ∧ s.elements.map (·.mSequence) = [3, 2]) ∧
      (run (step plainClient) s [.reader]).toOption.any fun t =>
        t.reader = .idle 3 ∧ t.delivered.map (·.mSequence) = [3])
    (by decide +kernel)
  obtain ⟨hbefore, hany⟩ := of_decide_eq_true hcond
  obtain ⟨t, ht, hafter⟩ := exists_ok_of_any hany
  exact ⟨s, t, hs, hbefore.1, hbefore.2, ht, of_decide_eq_true hafter⟩

end Following

end SystemCore.Logd
