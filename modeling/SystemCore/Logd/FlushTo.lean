import Mathlib.Data.List.DropRight
import Mathlib.Data.List.Pairwise
import SystemCore.Lib.Runs
import SystemCore.Logd.PruneSafety

/-!
# Passes of a reader

`flushTo` hands the elements behind a sequence number to a reader. It looks for the place to
start from at the end of the list, by sequence number, while the list is in the order of time.
The two orders are different ones as soon as a message arrives late.
-/
namespace SystemCore.Logd

open Lib.Runs List LogTime LogBuffer

variable {μ σ : Type}

/-! ## The pass -/

/-- The client of a reader: what `sendDatav` returns for an element, where `true` is an error,
and the length of the text made for a dropped element, which is 0 when there is no memory. -/
structure SocketClient (μ : Type) where
  uid : UInt32
  sendDatav : LogBufferElement μ → Bool
  populateDroppedMessage : LogBufferElement μ → Nat

def FLUSH_ERROR : Nat := 0

def LogBufferElement.flushTo (client : SocketClient μ) (e : LogBufferElement μ) : Nat :=
  if e.mMsg.isNone ∧ client.populateDroppedMessage e = 0 then e.mSequence
  else if client.sendDatav e then FLUSH_ERROR
  else e.mSequence

/-- What a filter returns: `false`, `true` or anything else. -/
inductive FilterResult where
  | skip
  | take
  | stop
  deriving DecidableEq, Repr

/-- A filter with the argument it reads and changes. -/
abbrev Filter (μ σ : Type) := σ → LogBufferElement μ → FilterResult × σ

/-- The value `flushTo` returns, the filter's argument, and the elements passed on. -/
structure Flushed (μ σ : Type) where
  max : Nat
  arg : σ
  passed : List (LogBufferElement μ)

/-- The decision about one element, under the lock. -/
def examine (client : SocketClient μ) (start : Nat) (privileged : Bool)
    (filter : Option (Filter μ σ)) (arg : σ) (e : LogBufferElement μ) : FilterResult × σ :=
  if privileged = false ∧ e.mUid ≠ client.uid then (.skip, arg)
  else if e.mSequence ≤ start then (.skip, arg)
  else
    match filter with
    | none => (.take, arg)
    | some f => f arg e

def flushLoop (client : SocketClient μ) (start : Nat) (privileged : Bool)
    (filter : Option (Filter μ σ)) : σ → Nat → List (LogBufferElement μ) → Flushed μ σ
  | arg, max, [] => ⟨max, arg, []⟩
  | arg, max, e :: rest =>
    match examine client start privileged filter arg e with
    | (.skip, arg) => flushLoop client start privileged filter arg max rest
    | (.stop, arg) => ⟨max, arg, []⟩
    | (.take, arg) =>
      if e.flushTo client = FLUSH_ERROR then ⟨FLUSH_ERROR, arg, []⟩
      else
        let r := flushLoop client start privileged filter arg (e.flushTo client) rest
        { r with passed := e :: r.passed }

/-- The elements from the place where the pass starts. The search from the end stops behind
the first element it meets that is not after `start`. -/
def resumePoint (start : Nat) (l : List (LogBufferElement μ)) : List (LogBufferElement μ) :=
  if start ≤ 1 then l else l.rtakeWhile fun e => start < e.mSequence

def LogBuffer.flushTo (client : SocketClient μ) (start : Nat) (privileged : Bool)
    (filter : Option (Filter μ σ)) (arg : σ) (b : LogBuffer μ) : Flushed μ σ :=
  flushLoop client start privileged filter arg start (resumePoint start b.mLogElements)

/-! ## What a pass hands over -/

/-- The elements a reader that has seen everything up to `start` still has to see. -/
def after (start : Nat) (l : List (LogBufferElement μ)) : List (LogBufferElement μ) :=
  l.filter fun e => start < e.mSequence

section Unfiltered

variable {client : SocketClient μ} (hsend : ∀ e, client.sendDatav e = false)

include hsend

theorem flushTo_of_sends (e : LogBufferElement μ) : e.flushTo client = e.mSequence := by
  unfold LogBufferElement.flushTo
  rw [hsend e]
  split <;> rfl

theorem flushLoop_passed (start : Nat) (arg : σ) (l : List (LogBufferElement μ)) (max : Nat) :
    (flushLoop client start true none arg max l).passed = after start l := by
  induction l generalizing max with
  | nil => rfl
  | cons e l ih =>
    by_cases he : e.mSequence ≤ start
    case pos =>
      have hskip : after start (e :: l) = after start l :=
        filter_cons_of_neg (by simpa using he)
      rw [hskip, ← ih max]
      simp [flushLoop, examine, he]
    case neg =>
      have htake : after start (e :: l) = e :: after start l :=
        filter_cons_of_pos (by simpa using he)
      -- the number of the element is above `start`, so it is not the number of an error
      have hne : e.flushTo client ≠ FLUSH_ERROR := by
        rw [flushTo_of_sends hsend]
        exact Nat.ne_of_gt (Nat.lt_of_le_of_lt (Nat.zero_le _) (Nat.lt_of_not_le he))
      rw [htake, ← ih (e.flushTo client)]
      simp [flushLoop, examine, he, hne]

theorem flushTo_passed (start : Nat) (arg : σ) (b : LogBuffer μ) :
    (b.flushTo client start true none arg).passed = after start (resumePoint start b.mLogElements) :=
  flushLoop_passed hsend start arg _ start

end Unfiltered

/-- A dump from the beginning is complete exactly if no element has one of the first two
sequence numbers, since the client's start at 1 is exclusive and the counter starts at 0. -/
theorem dump_complete_iff (client : SocketClient μ) (hsend : ∀ e, client.sendDatav e = false)
    (arg : σ) (b : LogBuffer μ) :
    (b.flushTo client 1 true none arg).passed = b.mLogElements ↔
      ∀ e ∈ b.mLogElements, 1 < e.mSequence := by
  rw [flushTo_passed hsend, resumePoint, if_pos (Nat.le_refl 1), after, filter_eq_self]
  simp only [decide_eq_true_eq]

def plainClient : SocketClient Unit := ⟨0, fun _ => false, fun _ => 1⟩

def messageAt (sec : UInt32) : Request Unit :=
  .log plainEnv 0 true ⟨⟨sec, 0⟩, 1000, 1, 1, (), 10⟩

def afterRequests (requests : List (Request Unit)) : Except Fault (LogBuffer Unit) :=
  run LogBuffer.step (LogBuffer.init fun _ => 65536) requests

/-- Once the first two elements are cleared, the dump is complete. -/
theorem dump_complete_cleared :
    ∃ b, afterRequests [messageAt 1, messageAt 2, .clear plainEnv .main 0, messageAt 3] = .ok b ∧
      b.mLogElements.length = 1 ∧
      (b.flushTo plainClient 1 true none ()).passed = b.mLogElements := by
  obtain ⟨b, hb, hone⟩ := exists_ok_of_any (r := afterRequests
      [messageAt 1, messageAt 2, .clear plainEnv .main 0, messageAt 3])
    (f := fun b => b.mLogElements.length = 1 ∧ ∀ e ∈ b.mLogElements, 1 < e.mSequence)
    (by decide +kernel)
  obtain ⟨hlen, hseq⟩ := of_decide_eq_true hone
  exact ⟨b, hb, hlen, (dump_complete_iff plainClient (fun _ => rfl) () b).mpr hseq⟩

/-- After the first two messages there are two elements, and a dump passes on none. -/
theorem dump_misses_first_two :
    ∃ b, afterRequests [messageAt 1, messageAt 2] = .ok b ∧ b.mLogElements.length = 2 ∧
      (b.flushTo plainClient 1 true none ()).passed = [] := by
  obtain ⟨b, hb, htwo⟩ := exists_ok_of_any (r := afterRequests [messageAt 1, messageAt 2])
    (f := fun b => b.mLogElements.length = 2 ∧
      (b.flushTo plainClient 1 true none ()).passed = [])
    (by decide +kernel)
  exact ⟨b, hb, of_decide_eq_true htwo⟩

/-! ## The order of time -/

/-- The order of the list when no reader is there: by time, then by arrival. -/
def Earlier (e f : LogBufferElement μ) : Prop :=
  e.mRealTime.lt f.mRealTime ∨ e.mRealTime = f.mRealTime ∧ e.addr < f.addr

instance (e f : LogBufferElement μ) : Decidable (Earlier e f) := inferInstanceAs (Decidable (_ ∨ _))

def Chronological (b : LogBuffer μ) : Prop := b.mLogElements.Pairwise Earlier

namespace LogTime

theorem lt_iff_toNat (a b : LogTime) : a.lt b ↔
    a.tvSec.toNat < b.tvSec.toNat ∨ a.tvSec.toNat = b.tvSec.toNat ∧ a.tvNsec.toNat < b.tvNsec.toNat := by
  unfold lt
  rw [UInt32.lt_iff_toNat_lt, UInt32.lt_iff_toNat_lt, UInt32.toNat_inj]

theorem eq_iff_toNat (a b : LogTime) : a = b ↔
    a.tvSec.toNat = b.tvSec.toNat ∧ a.tvNsec.toNat = b.tvNsec.toNat := by
  cases a
  cases b
  simp only [mk.injEq, UInt32.toNat_inj]

end LogTime

theorem Earlier.asymm {e f : LogBufferElement μ} (h : Earlier e f) : ¬ Earlier f e := by
  unfold Earlier at *
  rw [lt_iff_toNat, eq_iff_toNat] at *
  omega

variable {b : LogBuffer μ}

theorem LogBuffer.Edits.chronological {id : LogId} {held : LogBufferElement μ → Prop}
    {b' : LogBuffer μ} (h : Edits id held b b') (hb : Chronological b) : Chronological b' := by
  refine h.keeps (P := Chronological) (fun b₁ b₂ hedit h₁ => ?_) hb
  -- the order looks at the time and the address only
  let stamp := fun e : LogBufferElement μ => (e.mRealTime, e.addr)
  let ordered := fun s t : LogTime × Nat => s.1.lt t.1 ∨ s.1 = t.1 ∧ s.2 < t.2
  have hstamps : (b₁.mLogElements.map stamp).Pairwise ordered := pairwise_map.mpr h₁
  have hleft : (b₂.mLogElements.map stamp).Pairwise ordered :=
    hstamps.sublist (hedit.map_sublist stamp fun _ _ => rfl)
  exact (pairwise_map (f := stamp) (R := ordered)).mp hleft

theorem insertPoint_later (realtime : LogTime) (l : List (LogBufferElement μ)) :
    ∀ e ∈ (LogBuffer.insertPoint realtime l).2, realtime.lt e.mRealTime := by
  induction l with
  | nil => intro e he; cases he
  | cons x l ih =>
    unfold insertPoint
    simp only []
    split
    case isTrue h =>
      intro e he
      rcases mem_cons.mp he with rfl | he
      · exact not_not.mp h.2
      · exact ih e he
    case isFalse => exact ih

/-- In a list in the order of time, what is left before the place is not later. -/
theorem insertPoint_before (realtime : LogTime) (l : List (LogBufferElement μ))
    (hl : l.Pairwise Earlier) :
    ∀ e ∈ (LogBuffer.insertPoint realtime l).1, e.mRealTime.le realtime := by
  induction l with
  | nil => intro e he; cases he
  | cons x l ih =>
    obtain ⟨hx, htail⟩ := pairwise_cons.mp hl
    unfold insertPoint
    simp only []
    split
    case isTrue => intro e he; cases he
    case isFalse h =>
      intro e he
      rcases mem_cons.mp he with rfl | he
      · by_cases hnil : (insertPoint realtime l).1.isEmpty = true
        · exact not_not.mp fun hle => h ⟨hnil, hle⟩
        · -- an element behind it is not later, and it is earlier than that one
          obtain ⟨y, hy⟩ := exists_mem_of_ne_nil _ (mt isEmpty_iff.mpr hnil)
          have hmem : y ∈ l := insertPoint_append realtime l ▸ mem_append_left _ hy
          have hey := hx y hmem
          have hyle := ih htail y hy
          unfold Earlier at hey
          unfold le at *
          rw [lt_iff_toNat] at *
          rw [eq_iff_toNat] at hey
          omega
      · exact ih htail e he

theorem insert_chronological (elem : LogBufferElement μ) (hb : Chronological b)
    (hfresh : ∀ x ∈ b.mLogElements, x.addr < elem.addr) (htimes : b.mTimes = []) :
    Chronological (b.insert elem) := by
  have happend := insertPoint_append elem.mRealTime b.mLogElements
  have hlater := insertPoint_later elem.mRealTime b.mLogElements
  have hbefore : ∀ e ∈ (LogBuffer.insertPoint elem.mRealTime b.mLogElements).1, Earlier e elem := by
    intro e he
    have hle := insertPoint_before elem.mRealTime b.mLogElements hb e he
    have haddr := hfresh e (happend ▸ mem_append_left _ he)
    unfold le at hle
    unfold Earlier
    rw [lt_iff_toNat, eq_iff_toNat]
    rw [lt_iff_toNat] at hle
    omega
  have hinsert : (b.insert elem).mLogElements =
      (LogBuffer.insertPoint elem.mRealTime b.mLogElements).1 ++
        elem :: (LogBuffer.insertPoint elem.mRealTime b.mLogElements).2 := by
    unfold LogBuffer.insert
    split
    case h_1 before hpoint =>
      rw [hpoint, append_nil] at happend
      rw [hpoint, ← happend]
    case h_2 before last later hpoint =>
      simp [htimes, LogBuffer.readersEnd, hpoint]
  unfold Chronological at *
  rw [← happend, pairwise_append] at hb
  rw [hinsert, pairwise_append, pairwise_cons]
  refine ⟨hb.1, ⟨fun e he => Or.inl (hlater e he), hb.2.1⟩, fun e he f hf => ?_⟩
  rcases mem_cons.mp hf with rfl | hf
  · exact hbefore e he
  · exact hb.2.2 e he f hf

/-- No reader is there when a message comes in. -/
def Unread (b : LogBuffer μ) : Request μ → Prop
  | .log .. => b.mTimes = []
  | _ => True

instance (b : LogBuffer μ) : ∀ r, Decidable (Unread b r)
  | .log .. => inferInstanceAs (Decidable (b.mTimes = []))
  | .prune .. | .maybePrune .. | .clear .. | .setSize _ | .setPrune _ | .setReaders _ =>
    isTrue trivial

structure Ordered (b : LogBuffer μ) : Prop where
  wellFormed : WellFormed b
  chronological : Chronological b

theorem keeps_ordered : Keeps (Ordered (μ := μ)) where
  valid h := h.wellFormed.valid
  edits hedits h := ⟨hedits.wellFormed h.wellFormed, hedits.chronological h.chronological⟩
  settings _ _ _ h := ⟨keeps_wellFormed.settings _ _ _ h.wellFormed, h.chronological⟩

theorem arrived_ordered (hb : Ordered b) (htimes : b.mTimes = []) (loggable : Bool) (id : LogId)
    (call : LogBuffer.LogCall μ) : Ordered (b.arrived loggable id call) := by
  refine ⟨arrived_wellFormed hb.wellFormed loggable id call, ?_⟩
  cases loggable with
  | true =>
    exact insert_chronological (b := (b.construct id call).2) (b.construct id call).1
      hb.chronological hb.wellFormed.addr_lt htimes
  | false => exact hb.chronological

theorem step_ordered (hb : Ordered b) (r : Request μ) (hr : Unread b r) :
    ∃ b', b.step r = .ok b' ∧ Ordered b' := by
  refine keeps_ordered.step hb r fun env logId loggable call heq id hid => ?_
  have hunread : Unread b (.log env logId loggable call) := heq ▸ hr
  exact arrived_ordered hb hunread loggable id call

theorem run_ordered {mMaxSize : LogId → Nat} {requests : List (Request μ)}
    (hunread : Along LogBuffer.step Unread (LogBuffer.init mMaxSize) requests)
    (hrun : run LogBuffer.step (LogBuffer.init mMaxSize) requests = .ok b) : Ordered b := by
  refine run_of_along (P := Unread) (Q := Ordered) (fun b r b' hb hr hstep => ?_) requests
    ⟨init_wellFormed mMaxSize, List.Pairwise.nil⟩ hunread hrun
  obtain ⟨b₁, hb₁, ho⟩ := step_ordered hb r hr
  obtain rfl : b₁ = b' := Except.ok.inj (hb₁.symm.trans hstep)
  exact ho

/-! ## Resuming -/

section Suffix

variable {α : Type} (p : α → Bool)

/-- What a scan takes is all there is exactly if nothing to take is behind something to leave. -/
theorem takeWhile_eq_filter_iff (l : List α) :
    l.takeWhile p = l.filter p ↔ l.Pairwise fun x y => p y = true → p x = true := by
  induction l with
  | nil => simp
  | cons a l ih =>
    cases ha : p a with
    | true => simp [ha, ih]
    | false =>
      have hnone : l.Pairwise (fun x y => p y = true → p x = true) ∨ ∃ y ∈ l, p y = true := by
        by_cases hy : ∃ y ∈ l, p y = true
        · exact Or.inr hy
        · exact Or.inl (pairwise_of_forall_mem_list fun x _ y hm hp =>
            absurd ⟨y, hm, hp⟩ hy)
      rw [takeWhile_cons_of_neg (by simp [ha]), filter_cons_of_neg (by simp [ha]),
        pairwise_cons, eq_comm, filter_eq_nil_iff]
      simp only [ha, Bool.false_eq_true, imp_false]
      refine ⟨fun h => ⟨h, hnone.resolve_right fun ⟨y, hm, hp⟩ => h y hm hp⟩, fun h => h.1⟩

theorem rtakeWhile_perm_filter_iff (l : List α) :
    (l.rtakeWhile p).Perm (l.filter p) ↔ l.Pairwise fun x y => p x = true → p y = true := by
  have hreverse : (l.rtakeWhile p).Perm (l.filter p) ↔
      (l.reverse.takeWhile p).Perm (l.reverse.filter p) := by
    rw [List.rtakeWhile, filter_reverse, perm_reverse]
    exact (reverse_perm _).congr_left _
  have hsub : (l.reverse.takeWhile p).Sublist (l.reverse.filter p) := by
    have htake : (l.reverse.takeWhile p).filter p = l.reverse.takeWhile p :=
      filter_eq_self.mpr fun _ h => mem_takeWhile_imp h
    rw [← htake]
    exact (takeWhile_sublist p).filter p
  have heq : (l.reverse.takeWhile p).Perm (l.reverse.filter p) ↔
      l.reverse.takeWhile p = l.reverse.filter p :=
    ⟨fun h => hsub.eq_of_length h.length_eq, fun h => h ▸ List.Perm.refl _⟩
  rw [hreverse, heq, takeWhile_eq_filter_iff, pairwise_reverse]

end Suffix

theorem resumePoint_perm_iff {start : Nat} (hstart : 1 < start) (l : List (LogBufferElement μ)) :
    (after start (resumePoint start l)).Perm (after start l) ↔
      l.Pairwise fun e f => start < e.mSequence → start < f.mSequence := by
  have hall : after start (resumePoint start l) =
      l.rtakeWhile fun e => decide (start < e.mSequence) := by
    unfold after resumePoint
    rw [if_neg (Nat.not_le_of_lt hstart), filter_eq_self]
    intro e he
    exact mem_rtakeWhile_imp (p := fun e : LogBufferElement μ => decide (start < e.mSequence)) he
  rw [hall, after, rtakeWhile_perm_filter_iff]
  simp only [decide_eq_true_eq]

/-- In a list in the order of time, the order of places is that of `Earlier`. -/
theorem pairwise_imp_iff_of_chronological (hb : Chronological b) (p : LogBufferElement μ → Prop) :
    b.mLogElements.Pairwise (fun e f => p e → p f) ↔
      ∀ e ∈ b.mLogElements, ∀ f ∈ b.mLogElements, p e → ¬ p f → Earlier f e := by
  constructor
  · intro hp e he f hf hpe hpf
    let R := fun x y : LogBufferElement μ =>
      (Earlier x y ∧ (p x → p y)) ∨ (Earlier y x ∧ (p y → p x))
    have : Std.Symm R := ⟨fun x y h => h.symm⟩
    have hR : b.mLogElements.Pairwise R := (List.Pairwise.and hb hp).imp fun h => Or.inl h
    have hne : e ≠ f := fun h => hpf (h ▸ hpe)
    rcases hR.forall he hf hne with ⟨_, himp⟩ | ⟨hearlier, _⟩
    · exact absurd (himp hpe) hpf
    · exact hearlier
  · intro h
    refine List.Pairwise.imp_of_mem (fun {e f} he hf hef hpe => ?_) hb
    by_contra hpf
    exact hef.asymm (h e he f hf hpe hpf)

/-- Resuming is complete exactly if every element that the reader has seen is before, in time
and then in arrival, every element that it has not. -/
theorem resume_complete_iff (mMaxSize : LogId → Nat) (requests : List (Request μ))
    (hunread : Along LogBuffer.step Unread (LogBuffer.init mMaxSize) requests) (b : LogBuffer μ)
    (hrun : run LogBuffer.step (LogBuffer.init mMaxSize) requests = .ok b)
    (client : SocketClient μ) (hsend : ∀ e, client.sendDatav e = false) (arg : σ) (start : Nat)
    (hstart : 1 < start) :
    (b.flushTo client start true none arg).passed.Perm (after start b.mLogElements) ↔
      ∀ e ∈ b.mLogElements, ∀ f ∈ b.mLogElements, start < e.mSequence → f.mSequence ≤ start →
        Earlier f e := by
  rw [flushTo_passed hsend, resumePoint_perm_iff hstart,
    pairwise_imp_iff_of_chronological (run_ordered hunread hrun).chronological]
  simp only [Nat.not_lt]

theorem resume_complete_in_time :
    ∃ b, afterRequests ([1, 2, 3, 3, 4].map messageAt) = .ok b ∧
      (b.flushTo plainClient 2 true none ()).passed.Perm (after 2 b.mLogElements) := by
  obtain ⟨b, hb, hcond⟩ := exists_ok_of_any (r := afterRequests ([1, 2, 3, 3, 4].map messageAt))
    (f := fun b => ∀ e ∈ b.mLogElements, ∀ f ∈ b.mLogElements, 2 < e.mSequence →
      f.mSequence ≤ 2 → Earlier f e)
    (by decide +kernel)
  exact ⟨b, hb, (resume_complete_iff (fun _ => 65536) _ (by decide +kernel) b hb plainClient
    (fun _ => rfl) () 2 (by decide)).mpr (of_decide_eq_true hcond)⟩

/-- The fourth message is from before the third, which is the last that the reader has seen. -/
theorem resume_misses_late :
    Along LogBuffer.step Unread (LogBuffer.init fun _ => 65536) ([1, 2, 10, 5].map messageAt) ∧
    ∃ b, afterRequests ([1, 2, 10, 5].map messageAt) = .ok b ∧
      (after 2 b.mLogElements).length = 1 ∧
      (b.flushTo plainClient 2 true none ()).passed = [] := by
  obtain ⟨b, hb, hmiss⟩ := exists_ok_of_any (r := afterRequests ([1, 2, 10, 5].map messageAt))
    (f := fun b => (after 2 b.mLogElements).length = 1 ∧
      (b.flushTo plainClient 2 true none ()).passed = [])
    (by decide +kernel)
  exact ⟨by decide +kernel, b, hb, of_decide_eq_true hmiss⟩

end SystemCore.Logd
