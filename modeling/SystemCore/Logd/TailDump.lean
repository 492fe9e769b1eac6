import Mathlib
import SystemCore.Logd.FlushTo

/-!
# The last elements of the log

A reader that asks for the last elements makes two passes. The first one counts the elements that
match, the second one skips all but the last of them. Both leave out the dropped elements in front.
-/
namespace SystemCore.Logd

open Lib.Runs List

variable {μ α : Type}

/-! ## The passes -/

/-- A `LogTimeEntry` with what its filters read and change. -/
structure DumpReader extends LogTimeEntry where
  mError : Bool
  leadingDropped : Bool
  mPid : Int32
  mCount : Nat
  mTail : Nat
  mIndex : Nat

namespace DumpReader

/-- The constructor of a non-blocking reader. -/
def ofDump (tail : Nat) (logMask : UInt32) (pid : Int32) (start : Nat) : DumpReader where
  mRefCount := 1
  mRelease := false
  mError := false
  leadingDropped := false
  mLogMask := logMask
  mPid := pid
  skipAhead := fun _ => 0
  mCount := 0
  mTail := tail
  mIndex := 0
  mStart := start
  mNonBlock := true
  mEnd := 0

def filterFirstPass : Filter μ DumpReader := fun me e =>
  if me.leadingDropped = true ∧ e.getDropped ≠ 0 then (.skip, me)
  else
    let me := { me with leadingDropped := false }
    let me := if me.mCount = 0 then { me with mStart := e.mSequence } else me
    if (me.mPid = 0 ∨ me.mPid = e.mPid) ∧ me.isWatching e.mLogId = true then
      (.skip, { me with mCount := me.mCount + 1 })
    else (.skip, me)

/-- The label `ok`. -/
def accept (me : DumpReader) (e : LogBufferElement μ) : FilterResult × DumpReader :=
  if me.skipAhead e.mLogId = 0 then (.take, me) else (.skip, me)

def filterSecondPass : Filter μ DumpReader := fun me e =>
  let me := { me with mStart := e.mSequence }
  if me.skipAhead e.mLogId ≠ 0 then
    (.skip, { me with
      skipAhead := Function.update me.skipAhead e.mLogId (me.skipAhead e.mLogId - 1) })
  else if me.leadingDropped = true ∧ e.getDropped ≠ 0 then (.skip, me)
  else
    let me := { me with leadingDropped := false }
    if me.mNonBlock = true ∧ me.mTail ≠ 0 ∧ me.mIndex ≥ me.mCount then (.stop, me)
    else if me.isWatching e.mLogId = false then (.skip, me)
    else if me.mPid ≠ 0 ∧ me.mPid ≠ e.mPid then (.skip, me)
    else if me.mRelease = true ∨ me.mError = true then (.stop, me)
    else if me.mTail = 0 then accept me e
    else
      let me := { me with mIndex := me.mIndex + 1 }
      if me.mCount > me.mTail ∧ me.mIndex ≤ me.mCount - me.mTail then (.skip, me)
      else accept (if me.mNonBlock then me else { me with mTail := 0 }) e

/-- What `threadStart` does for a non-blocking reader. -/
def threadStart (client : SocketClient μ) (privileged : Bool) (b : LogBuffer μ)
    (me : DumpReader) : Flushed μ DumpReader :=
  let me := { me with leadingDropped := true }
  let start := me.mStart
  let me :=
    if me.mTail ≠ 0 then
      { (b.flushTo client start privileged (some filterFirstPass) me).arg with leadingDropped := true }
    else me
  b.flushTo client start privileged (some filterSecondPass) me

end DumpReader

/-! ## What is asked for -/

def readable (client : SocketClient μ) (privileged : Bool) (e : LogBufferElement μ) : Bool :=
  privileged || e.mUid = client.uid

def isDropped (e : LogBufferElement μ) : Bool := e.getDropped ≠ 0

def matching (logMask : UInt32) (pid : Int32) (e : LogBufferElement μ) : Bool :=
  (pid = 0 || pid = e.mPid) && logMask.toNat.testBit e.mLogId.toNat

/-- The elements that match the mask, the pid and the uid, behind the dropped ones in front. -/
def selected (client : SocketClient μ) (privileged : Bool) (logMask : UInt32) (pid : Int32)
    (l : List (LogBufferElement μ)) : List (LogBufferElement μ) :=
  ((l.filter (readable client privileged)).dropWhile isDropped).filter (matching logMask pid)

/-! ## One element -/

section Pass

variable {client : SocketClient μ} {start : Nat} {privileged : Bool} {σ : Type}
  {filter : Filter μ σ} {arg : σ}

def shown (client : SocketClient μ) (start : Nat) (privileged : Bool) (e : LogBufferElement μ) :
    Bool :=
  readable client privileged e && start < e.mSequence

theorem examine_hidden {e : LogBufferElement μ} (h : shown client start privileged e = false) :
    examine client start privileged (some filter) arg e = (.skip, arg) := by
  unfold examine
  split
  case isTrue => rfl
  case isFalse huid =>
    split
    case isTrue => rfl
    case isFalse hseq =>
      have hshown : shown client start privileged e = true := by
        cases privileged <;> simp_all [shown, readable]
      rw [hshown] at h
      exact absurd h Bool.noConfusion

theorem examine_shown {e : LogBufferElement μ} (h : shown client start privileged e = true) :
    examine client start privileged (some filter) arg e = filter arg e := by
  unfold shown readable at h
  rw [Bool.and_eq_true, Bool.or_eq_true, decide_eq_true_eq, decide_eq_true_eq] at h
  unfold examine
  rw [if_neg, if_neg (Nat.not_le_of_lt h.2)]
  intro ⟨hunprivileged, huid⟩
  rw [hunprivileged] at h
  exact huid (h.1.resolve_left Bool.false_ne_true)

/-- Only the elements that the filter gets to see matter. -/
theorem flushLoop_shown {σ : Type} (filter : Filter μ σ) (arg : σ) (max : Nat)
    (l : List (LogBufferElement μ)) :
    flushLoop client start privileged (some filter) arg max l =
      flushLoop client start privileged (some filter) arg max
        (l.filter (shown client start privileged)) := by
  induction l generalizing arg max with
  | nil => rfl
  | cons e l ih =>
    cases hshown : shown client start privileged e with
    | false =>
      rw [flushLoop, examine_hidden hshown, filter_cons_of_neg (Bool.eq_false_iff.mp hshown)]
      exact ih arg max
    | true =>
      rw [filter_cons_of_pos hshown, flushLoop, flushLoop]
      simp only [← ih]

/-- What the passes rely on: a non-blocking reader that is not to skip anything and has no error. -/
structure Dumping (logMask : UInt32) (pid : Int32) (tail : Nat) (me : DumpReader) : Prop where
  nonBlock : me.mNonBlock = true
  logMask_eq : me.mLogMask = logMask
  pid_eq : me.mPid = pid
  tail_eq : me.mTail = tail
  skipAhead_eq : me.skipAhead = fun _ => 0
  not_released : me.mRelease = false
  no_error : me.mError = false

variable {logMask : UInt32} {pid : Int32} {tail : Nat} {me : DumpReader} {e : LogBufferElement μ}

theorem isDropped_iff : isDropped e = true ↔ e.getDropped ≠ 0 := by
  rw [isDropped, decide_eq_true_eq]

/-- What a pass is to count. The dropped elements in front are left out, until another one comes. -/
def due (logMask : UInt32) (pid : Int32) (leading : Bool) (l : List (LogBufferElement μ)) :
    List (LogBufferElement μ) :=
  (if leading then l.dropWhile isDropped else l).filter (matching logMask pid)

section Due

variable {leading : Bool}

theorem due_nil : due (μ := μ) logMask pid leading [] = [] := by
  cases leading <;> rfl

theorem due_front {l : List (LogBufferElement μ)} (h : leading = true ∧ e.getDropped ≠ 0) :
    due logMask pid leading (e :: l) = due logMask pid leading l := by
  rw [due, due, if_pos h.1, if_pos h.1, dropWhile_cons_of_pos (isDropped_iff.mpr h.2)]

theorem due_cons {l : List (LogBufferElement μ)} (h : ¬ (leading = true ∧ e.getDropped ≠ 0)) :
    due logMask pid leading (e :: l) =
      if matching logMask pid e = true then e :: due logMask pid false l
      else due logMask pid false l := by
  have hfront : (if leading then (e :: l).dropWhile isDropped else e :: l) = e :: l := by
    cases leading with
    | false => rfl
    | true => exact dropWhile_cons_of_neg fun hdropped => h ⟨rfl, isDropped_iff.mp hdropped⟩
  rw [due, hfront, filter_cons]
  rfl

end Due

namespace Dumping

variable (h : Dumping logMask pid tail me)

include h

theorem matching_iff :
    (me.mPid = 0 ∨ me.mPid = e.mPid) ∧ me.isWatching e.mLogId = true ↔
      matching logMask pid e = true := by
  rw [matching, Bool.and_eq_true, Bool.or_eq_true, decide_eq_true_eq, decide_eq_true_eq, h.pid_eq,
    LogTimeEntry.isWatching, h.logMask_eq]

theorem moved (mStart mCount mIndex : Nat) (leadingDropped : Bool) :
    Dumping logMask pid tail { me with mStart, mCount, mIndex, leadingDropped } :=
  ⟨h.nonBlock, h.logMask_eq, h.pid_eq, h.tail_eq, h.skipAhead_eq, h.not_released, h.no_error⟩

/-- No element is skipped because of its number in its log. -/
theorem no_skip (id : LogId) : ¬ me.skipAhead id ≠ 0 := by
  rw [h.skipAhead_eq]
  exact not_not_intro rfl

variable {l : List (LogBufferElement μ)}

/-! ## Counting -/

/-- An element in front is passed over, and any other one is counted if it matches. -/
theorem first_step (e : LogBufferElement μ) (l : List (LogBufferElement μ)) :
    ∃ me', DumpReader.filterFirstPass me e = (.skip, me') ∧ Dumping logMask pid tail me'
      ∧ me'.mIndex = me.mIndex
      ∧ me'.mCount + (due logMask pid me'.leadingDropped l).length
        = me.mCount + (due logMask pid me.leadingDropped (e :: l)).length := by
  by_cases hfront : me.leadingDropped = true ∧ e.getDropped ≠ 0
  · rw [DumpReader.filterFirstPass, if_pos hfront]
    exact ⟨me, rfl, h, rfl, by rw [due_front hfront]⟩
  rw [DumpReader.filterFirstPass, if_neg hfront, due_cons hfront]
  simp only []
  generalize hstarted : (if me.mCount = 0 then
    { me with leadingDropped := false, mStart := e.mSequence }
    else { me with leadingDropped := false }) = started
  have hkept : Dumping logMask pid tail started ∧ started.leadingDropped = false
      ∧ started.mIndex = me.mIndex ∧ started.mCount = me.mCount := by
    rw [← hstarted]
    split <;>
      exact ⟨h.moved _ _ _ _, rfl, rfl, rfl⟩
  obtain ⟨hdumping, hlead, hindex, hcount⟩ := hkept
  by_cases hmatch : matching logMask pid e = true
  · rw [if_pos (hdumping.matching_iff.mpr hmatch), if_pos hmatch]
    refine ⟨_, rfl, hdumping.moved _ _ _ _, hindex, ?_⟩
    simp only [hcount, hlead, length_cons]
    omega
  · rw [if_neg fun hboth => hmatch (hdumping.matching_iff.mp hboth), if_neg hmatch]
    exact ⟨started, rfl, hdumping, hindex, by rw [hcount, hlead]⟩

/-- The state after the first pass. -/
theorem first_pass (max : Nat) (hl : ∀ e ∈ l, shown client start privileged e = true) :
    ∃ me', (flushLoop client start privileged (some DumpReader.filterFirstPass) me max l).arg = me'
      ∧ Dumping logMask pid tail me' ∧ me'.mIndex = me.mIndex
      ∧ me'.mCount = me.mCount + (due logMask pid me.leadingDropped l).length := by
  induction l generalizing me with
  | nil => exact ⟨me, rfl, h, rfl, by rw [due_nil]; rfl⟩
  | cons e l ih =>
    obtain ⟨he, hl⟩ := forall_mem_cons.mp hl
    obtain ⟨me', hfilter, h', hindex, hcount⟩ := h.first_step e l
    obtain ⟨me'', harg, hdumping, hindex', hcount'⟩ := ih h' hl
    rw [flushLoop, examine_shown he, hfilter]
    exact ⟨me'', harg, hdumping, hindex'.trans hindex, hcount'.trans hcount⟩

/-! ## Sending -/

/-- An element in front is passed over. -/
theorem second_front (hfront : me.leadingDropped = true ∧ e.getDropped ≠ 0) :
    DumpReader.filterSecondPass me e = (.skip, { me with mStart := e.mSequence }) := by
  unfold DumpReader.filterSecondPass
  simp only []
  rw [if_neg (h.no_skip e.mLogId), if_pos hfront]

variable (hopen : ¬ (me.leadingDropped = true ∧ e.getDropped ≠ 0))

include hopen

/-- An element that does not match is not counted. -/
theorem second_not_counted (hmore : me.mIndex < me.mCount) (hmatch : ¬ matching logMask pid e = true) :
    DumpReader.filterSecondPass me e =
      (.skip, { me with mStart := e.mSequence, leadingDropped := false }) := by
  unfold DumpReader.filterSecondPass
  simp only []
  rw [if_neg (h.no_skip e.mLogId), if_neg hopen, if_neg fun hstop => Nat.not_le_of_lt hmore hstop.2.2]
  split
  case isTrue => rfl
  case isFalse hwatch =>
    have hother : me.mPid ≠ 0 ∧ me.mPid ≠ e.mPid := by
      rw [← not_or]
      intro hpid
      exact hmatch (h.matching_iff.mp ⟨hpid, (Bool.not_eq_false _).mp hwatch⟩)
    rw [if_pos hother]

/-- A matching element is counted, and taken if it is one of the last. -/
theorem second_counted (htail : 0 < tail) (hmore : me.mIndex < me.mCount)
    (hmatch : matching logMask pid e = true) :
    DumpReader.filterSecondPass me e =
      (if me.mIndex + 1 ≤ me.mCount - tail then .skip else .take,
        { me with mStart := e.mSequence, leadingDropped := false, mIndex := me.mIndex + 1 }) := by
  obtain ⟨hpid, hwatch⟩ := h.matching_iff.mpr hmatch
  have herror : ¬ (me.mRelease = true ∨ me.mError = true) := by
    rw [h.not_released, h.no_error, or_self]
    exact Bool.false_ne_true
  have htail0 : ¬ me.mTail = 0 := by
    rw [h.tail_eq]
    omega
  unfold DumpReader.filterSecondPass
  simp only []
  rw [if_neg (h.no_skip e.mLogId), if_neg hopen, if_neg fun hstop => Nat.not_le_of_lt hmore hstop.2.2,
    if_neg fun hunwatched => Bool.false_ne_true (hunwatched.symm.trans hwatch),
    if_neg fun hother => hpid.elim hother.1 hother.2, if_neg herror, if_neg htail0, h.nonBlock,
    if_pos rfl, DumpReader.accept, if_pos (not_not.mp (h.no_skip e.mLogId)), h.tail_eq]
  by_cases hearly : me.mIndex + 1 ≤ me.mCount - tail
  · rw [if_pos ⟨by omega, hearly⟩, if_pos hearly]
  · rw [if_neg fun hboth => hearly hboth.2, if_neg hearly]

/-- Once all have been counted, the pass is over at the next element. -/
theorem second_stops (htail : 0 < tail) (hdone : me.mCount ≤ me.mIndex) :
    ∃ me', DumpReader.filterSecondPass me e = (.stop, me') := by
  have htail0 : me.mTail ≠ 0 := by
    rw [h.tail_eq]
    omega
  unfold DumpReader.filterSecondPass
  simp only []
  rw [if_neg (h.no_skip e.mLogId), if_neg hopen, if_pos ⟨h.nonBlock, htail0, hdone⟩]
  exact ⟨_, rfl⟩

omit hopen

/-- The second pass, when the elements still to come are those not counted yet. -/
theorem second_pass (hsend : ∀ e, client.sendDatav e = false) (htail : 0 < tail) (max : Nat)
    (hl : ∀ e ∈ l, shown client start privileged e = true)
    (hcount : me.mIndex + (due logMask pid me.leadingDropped l).length = me.mCount) :
    (flushLoop client start privileged (some DumpReader.filterSecondPass) me max l).passed
      = (due logMask pid me.leadingDropped l).drop (me.mCount - tail - me.mIndex) := by
  induction l generalizing me max with
  | nil => rw [due_nil, drop_nil]; rfl
  | cons e l ih =>
    obtain ⟨he, hl⟩ := forall_mem_cons.mp hl
    rw [flushLoop, examine_shown he]
    by_cases hfront : me.leadingDropped = true ∧ e.getDropped ≠ 0
    · rw [due_front hfront] at hcount ⊢
      rw [h.second_front hfront]
      exact ih (h.moved _ _ _ _) max hl hcount
    by_cases hmore : me.mIndex < me.mCount
    · rw [due_cons hfront] at hcount ⊢
      by_cases hmatch : matching logMask pid e = true
      · rw [if_pos hmatch, length_cons] at hcount
        rw [if_pos hmatch, h.second_counted hfront htail hmore hmatch]
        have hnext := fun max => @ih { me with
          mStart := e.mSequence, leadingDropped := false, mIndex := me.mIndex + 1 }
          (h.moved _ _ _ _) max hl (by simp only []; omega)
        by_cases hearly : me.mIndex + 1 ≤ me.mCount - tail
        · obtain ⟨k, hk⟩ : ∃ k, me.mCount - tail - me.mIndex = k + 1 :=
            ⟨me.mCount - tail - me.mIndex - 1, by omega⟩
          have hk' : me.mCount - tail - (me.mIndex + 1) = k := by omega
          rw [if_pos hearly, hk, drop_succ_cons, ← hk']
          exact hnext max
        · have hlast : me.mCount - tail - me.mIndex = 0 := by omega
          have hlast' : me.mCount - tail - (me.mIndex + 1) = 0 := by omega
          have hsent : e.flushTo client ≠ FLUSH_ERROR := by
            rw [shown, Bool.and_eq_true, decide_eq_true_eq] at he
            rw [flushTo_of_sends hsend]
            exact Nat.ne_of_gt (Nat.lt_of_le_of_lt (Nat.zero_le start) he.2)
          have htaken := hnext (e.flushTo client)
          rw [hlast', drop_zero] at htaken
          rw [if_neg hearly, hlast, drop_zero]
          simp only [if_neg hsent]
          rw [htaken]
      · rw [if_neg hmatch] at hcount ⊢
        rw [h.second_not_counted hfront hmore hmatch]
        exact ih (h.moved _ _ _ _) max hl hcount
    · -- all are counted, so none is to come
      obtain ⟨me', hstop⟩ := h.second_stops hfront htail (Nat.le_of_not_lt hmore)
      have hnone := eq_nil_of_length_eq_zero (l := due logMask pid me.leadingDropped (e :: l)) (by omega)
      rw [hstop, hnone, drop_nil]

end Dumping

end Pass

/-! ## The whole dump -/

theorem shown_filter (client : SocketClient μ) (start : Nat) (privileged : Bool)
    (l : List (LogBufferElement μ)) :
    l.filter (shown client start privileged) = (after start l).filter (readable client privileged) := by
  rw [after, filter_filter]
  rfl

section Increasing

variable {l : List (LogBufferElement μ)} (hl : l.Pairwise fun e f => e.mSequence < f.mSequence)
  (start : Nat)

include hl

/-- In a list with increasing numbers the elements behind a number are its end. -/
theorem after_eq_rtakeWhile : after start l = l.rtakeWhile fun e => start < e.mSequence := by
  have hscan := (takeWhile_eq_filter_iff (fun e : LogBufferElement μ => decide (start < e.mSequence))
    l.reverse).mpr
  rw [after, List.rtakeWhile, hscan, filter_reverse, reverse_reverse]
  rw [pairwise_reverse]
  apply hl.imp
  intro e f hef he
  rw [decide_eq_true_eq] at he ⊢
  exact Nat.lt_trans he hef

theorem after_resumePoint : after start (resumePoint start l) = after start l := by
  unfold resumePoint
  split
  case isTrue => rfl
  case isFalse =>
    rw [← after_eq_rtakeWhile hl start, after, after, filter_filter]
    simp only [Bool.and_self]

theorem after_suffix : after start l <:+ l := by
  rw [after_eq_rtakeWhile hl start]
  exact rtakeWhile_suffix _ l

end Increasing

theorem dropWhile_suffix_append (p : α → Bool) (front l : List α) :
    l.dropWhile p <:+ (front ++ l).dropWhile p := by
  induction front with
  | nil => exact suffix_rfl
  | cons a front ih =>
    rw [cons_append, dropWhile_cons]
    split
    case isTrue => exact ih
    case isFalse => exact (dropWhile_suffix p).trans (suffix_append (a :: front) l)

theorem selected_suffix (client : SocketClient μ) (privileged : Bool) (logMask : UInt32) (pid : Int32)
    {l m : List (LogBufferElement μ)} (h : l <:+ m) :
    selected client privileged logMask pid l <:+ selected client privileged logMask pid m := by
  obtain ⟨front, rfl⟩ := h
  unfold selected
  rw [filter_append]
  exact (dropWhile_suffix_append isDropped _ _).filter _

/-- The last elements of the end of a list are those of the list when there are enough of them. -/
theorem rtake_eq_iff_of_suffix {l m : List α} (h : l <:+ m) (n : Nat) :
    l.rtake n = m.rtake n ↔ n ≤ l.length ∨ l = m := by
  obtain ⟨front, rfl⟩ := h
  unfold List.rtake
  rw [length_append]
  constructor
  · intro hsame
    have hlength := congrArg List.length hsame
    rw [length_drop, length_drop, length_append] at hlength
    by_cases hn : n ≤ l.length
    · exact .inl hn
    · have hfront : front = [] := eq_nil_of_length_eq_zero (by omega)
      exact .inr (by rw [hfront, nil_append])
  · intro hcond
    cases hcond with
    | inl hn =>
      have hskip : front.length + l.length - n = front.length + (l.length - n) := by omega
      rw [hskip, drop_length_add_append]
    | inr hsame =>
      have hfront : front = [] := self_eq_append_left.mp hsame
      rw [hfront, length_nil, Nat.zero_add, nil_append]

/-- What a dump hands over: the last of the selected elements behind the reader's start. -/
theorem threadStart_passed {client : SocketClient μ} (hsend : ∀ e, client.sendDatav e = false)
    (privileged : Bool) (logMask : UInt32) (pid : Int32) {tail : Nat} (htail : 0 < tail)
    (start : Nat) {b : LogBuffer μ}
    (hseq : b.mLogElements.Pairwise fun e f => e.mSequence < f.mSequence) :
    ((DumpReader.ofDump tail logMask pid start).threadStart client privileged b).passed
      = (selected client privileged logMask pid (after start b.mLogElements)).rtake tail := by
  have hstarted : Dumping logMask pid tail
      { DumpReader.ofDump tail logMask pid start with leadingDropped := true } :=
    ⟨rfl, rfl, rfl, rfl, rfl, rfl, rfl⟩
  have hselected : due logMask pid true
      ((resumePoint start b.mLogElements).filter (shown client start privileged))
      = selected client privileged logMask pid (after start b.mLogElements) := by
    rw [shown_filter, after_resumePoint hseq]
    rfl
  have hshown : ∀ e ∈ (resumePoint start b.mLogElements).filter (shown client start privileged),
      shown client start privileged e = true := fun e he => (mem_filter.mp he).2
  obtain ⟨counted, harg, hcounted, hindex, hcount⟩ := hstarted.first_pass start hshown
  have hfirst : ¬ (DumpReader.ofDump tail logMask pid start).mTail = 0 := Nat.ne_of_gt htail
  unfold DumpReader.threadStart LogBuffer.flushTo
  simp only [ne_eq, hfirst, not_false_eq_true, if_true]
  change (flushLoop client start privileged (some DumpReader.filterSecondPass)
    { (flushLoop client start privileged (some DumpReader.filterFirstPass)
        { DumpReader.ofDump tail logMask pid start with leadingDropped := true } start
        (resumePoint start b.mLogElements)).arg with leadingDropped := true } start
    (resumePoint start b.mLogElements)).passed = _
  rw [flushLoop_shown, flushLoop_shown DumpReader.filterFirstPass, harg]
  have hagain : Dumping logMask pid tail { counted with leadingDropped := true } :=
    hcounted.moved _ _ _ _
  rw [hselected] at hcount
  have hnone : counted.mIndex = 0 := hindex
  have hall : counted.mCount
      = (selected client privileged logMask pid (after start b.mLogElements)).length :=
    hcount.trans (Nat.zero_add _)
  rw [hagain.second_pass hsend htail start hshown (by rw [hselected, hnone, hall, Nat.zero_add]),
    hselected, hnone, hall, Nat.sub_zero]
  rfl

/-- For every content, caller, mask and pid: a dump hands over the last of the selected elements
behind its start; and without a start time these are the last of all selected elements, if and only
if there are enough of them behind number 1, or none is lost there. -/
theorem tail_dump_exact_iff (client : SocketClient μ) (hsend : ∀ e, client.sendDatav e = false)
    (privileged : Bool) (logMask : UInt32) (pid : Int32) (tail : Nat) (htail : 0 < tail)
    (b : LogBuffer μ) (hseq : b.mLogElements.Pairwise fun e f => e.mSequence < f.mSequence) :
    (∀ start, ((DumpReader.ofDump tail logMask pid start).threadStart client privileged b).passed
      = (selected client privileged logMask pid (after start b.mLogElements)).rtake tail) ∧
    (((DumpReader.ofDump tail logMask pid 1).threadStart client privileged b).passed
        = (selected client privileged logMask pid b.mLogElements).rtake tail ↔
      tail ≤ (selected client privileged logMask pid (after 1 b.mLogElements)).length
        ∨ selected client privileged logMask pid (after 1 b.mLogElements)
          = selected client privileged logMask pid b.mLogElements) := by
  have hpassed := fun start =>
    threadStart_passed hsend privileged logMask pid htail start hseq
  refine ⟨hpassed, ?_⟩
  rw [hpassed 1]
  apply rtake_eq_iff_of_suffix
  exact selected_suffix client privileged logMask pid (after_suffix hseq 1)

/-- Of five messages the last two. -/
theorem tail_dump_exact_two :
    ∃ b, afterRequests ([1, 2, 3, 4, 5].map messageAt) = .ok b ∧
      ((DumpReader.ofDump 2 0xffffffff 0 1).threadStart plainClient true b).passed
        = (selected plainClient true 0xffffffff 0 b.mLogElements).rtake 2 := by
  obtain ⟨b, hb, hcond⟩ := exists_ok_of_any (r := afterRequests ([1, 2, 3, 4, 5].map messageAt))
    (f := fun b => b.mLogElements.Pairwise (fun e f => e.mSequence < f.mSequence)
      ∧ 2 ≤ (selected plainClient true 0xffffffff 0 (after 1 b.mLogElements)).length)
    (by decide +kernel)
  obtain ⟨hseq, henough⟩ := of_decide_eq_true hcond
  exact ⟨b, hb, (tail_dump_exact_iff plainClient (fun _ => rfl) true 0xffffffff 0 2 (by decide) b
    hseq).2.mpr (.inl henough)⟩

/-- After the first two messages a dump of the last two hands over nothing. -/
theorem tail_dump_misses_first_two :
    ∃ b, afterRequests [messageAt 1, messageAt 2] = .ok b ∧
      b.mLogElements.Pairwise (fun e f => e.mSequence < f.mSequence) ∧
      (selected plainClient true 0xffffffff 0 b.mLogElements).length = 2 ∧
      ((DumpReader.ofDump 2 0xffffffff 0 1).threadStart plainClient true b).passed = [] := by
  obtain ⟨b, hb, hmiss⟩ := exists_ok_of_any (r := afterRequests [messageAt 1, messageAt 2])
    (f := fun b => b.mLogElements.Pairwise (fun e f => e.mSequence < f.mSequence) ∧
      (selected plainClient true 0xffffffff 0 b.mLogElements).length = 2 ∧
      ((DumpReader.ofDump 2 0xffffffff 0 1).threadStart plainClient true b).passed = [])
    (by decide +kernel)
  exact ⟨b, hb, of_decide_eq_true hmiss⟩

end SystemCore.Logd
