import SystemCore.Lib.Runs

/-!
# The message queue of a looper

Any thread may put messages in the queue of a `Looper`; the looper thread takes those that
are due out again in `pollInner`, and sleeps in `epoll_wait` in between. Its sleep ends when
a message is due as far as `mNextMessageUptime` tells, or when `wake()` has made the event
counter positive.

The threads interleave. A section under `mLock` is one step, and so is a call of `wake()`,
which `sendMessageAtTime` makes after it has left its section. The looper thread runs code
of its caller and its handlers too: it may send from there as any other thread may.

Descriptors other than the event counter are left out, with the responses to their events:
what is left of a response is the phase in which its callback runs. `epoll_wait` may return
at any time, with any events.
-/
namespace SystemCore.Libutils.Looper

open Lib.Runs List

def LLONG_MAX : Int64 := 0x7fffffffffffffff

structure Message where
  what : Int32
  deriving DecidableEq, Repr

structure MessageEnvelope (Handler : Type) where
  uptime : Int64
  handler : Handler
  message : Message
  deriving DecidableEq, Repr

/-- An event that `epoll_wait` reports: of the event counter, with whether it is `EPOLLIN`, or
of another descriptor. -/
inductive PollEvent where
  | wakeEventFd (epollin : Bool)
  | other (fd : Int32)
  deriving DecidableEq, Repr

/-- What `epoll_wait` returns. -/
inductive PollResult where
  | error
  | events (eventItems : List PollEvent)
  deriving DecidableEq, Repr

/-- Where the looper thread is. In the two phases of sleep it holds its timeout, and the
`mNextMessageUptime` that the timeout was computed from. -/
inductive Phase where
  | outside
  | aboutToBlock (timeoutMillis : Int32) (nextMessageUptime : Int64)
  | blocked (timeoutMillis : Int32) (nextMessageUptime : Int64)
  | polled (result : PollResult)
  | handling (message : Message)
  | responding
  deriving DecidableEq, Repr

variable {Thread Handler : Type}

/-- The looper, and which threads have queued a message at the head and are on their way to
`wake()`. -/
structure State (Thread Handler : Type) where
  mMessageEnvelopes : List (MessageEnvelope Handler)
  mSendingMessage : Bool
  mEpollRebuildRequired : Bool
  mNextMessageUptime : Int64
  wakeCounter : Nat
  phase : Phase
  waking : Thread → Bool

def State.init : State Thread Handler where
  mMessageEnvelopes := []
  mSendingMessage := false
  mEpollRebuildRequired := false
  mNextMessageUptime := LLONG_MAX
  wakeCounter := 0
  phase := .outside
  waking := fun _ => false

/-! ## The sections of the source -/

/-- The loop of `sendMessageAtTime` that looks for the place of a message. -/
def insertPosition (uptime : Int64) : List (MessageEnvelope Handler) → Nat
  | [] => 0
  | e :: rest => if uptime ≥ e.uptime then insertPosition uptime rest + 1 else 0

/-- The locked section of `sendMessageAtTime`. -/
def sendLocked [DecidableEq Thread] (t : Thread) (e : MessageEnvelope Handler) (s : State Thread Handler) :
    State Thread Handler :=
  let i := insertPosition e.uptime s.mMessageEnvelopes
  let s := { s with mMessageEnvelopes := s.mMessageEnvelopes.insertIdx i e }
  if s.mSendingMessage then s
  else if i = 0 then { s with waking := Function.update s.waking t true }
  else s

/-- `wake()` at the end of `sendMessageAtTime`. -/
def wakeAfterSend [DecidableEq Thread] (t : Thread) (s : State Thread Handler) :
    State Thread Handler :=
  { s with wakeCounter := s.wakeCounter + 1, waking := Function.update s.waking t false }

/-- The loop of `removeMessages`, from the last envelope to the first. -/
def removeLoop (drop : MessageEnvelope Handler → Bool) :
    Nat → List (MessageEnvelope Handler) → List (MessageEnvelope Handler)
  | 0, queue => queue
  | i + 1, queue =>
    match queue[i]? with
    | none => removeLoop drop i queue
    | some e => removeLoop drop i (if drop e then queue.eraseIdx i else queue)

def removeMessages (drop : MessageEnvelope Handler → Bool) (s : State Thread Handler) :
    State Thread Handler :=
  { s with mMessageEnvelopes := removeLoop drop s.mMessageEnvelopes.length s.mMessageEnvelopes }

def scheduleEpollRebuildLocked (s : State Thread Handler) : State Thread Handler :=
  if s.mEpollRebuildRequired then s
  else { s with mEpollRebuildRequired := true, wakeCounter := s.wakeCounter + 1 }

def toMillisecondTimeoutDelay (referenceTime timeoutTime : Int64) : Int32 :=
  if timeoutTime > referenceTime then
    let timeoutDelay := (timeoutTime - referenceTime).toUInt64
    if timeoutDelay > 2147483646000000 then -1
    else ((timeoutDelay + 999999) / 1000000).toUInt32.toInt32
  else 0

/-- The timeout that `pollInner` passes to `epoll_wait`. -/
def adjustTimeout (timeoutMillis : Int32) (now nextMessageUptime : Int64) : Int32 :=
  if timeoutMillis ≠ 0 ∧ nextMessageUptime ≠ LLONG_MAX then
    let messageTimeoutMillis := toMillisecondTimeoutDelay now nextMessageUptime
    if messageTimeoutMillis ≥ 0 ∧ (timeoutMillis < 0 ∨ messageTimeoutMillis < timeoutMillis) then
      messageTimeoutMillis
    else timeoutMillis
  else timeoutMillis

/-- One turn of the loop over the events. -/
def handleEvent (s : State Thread Handler) : PollEvent → State Thread Handler
  | .wakeEventFd true => { s with wakeCounter := 0 }
  | .wakeEventFd false => s
  | .other _ => s

/-- `pollInner` from `mLock.lock()` to the label `Done`. -/
def handlePollResult (result : PollResult) (s : State Thread Handler) : State Thread Handler :=
  if s.mEpollRebuildRequired then { s with mEpollRebuildRequired := false }
  else
    match result with
    | .error => s
    | .events eventItems => eventItems.foldl handleEvent s

/-- The loop that invokes the message callbacks, up to the next place where it gives up
`mLock`: to call a handler, or for good. -/
def invokePending (now : Int64) (s : State Thread Handler) : State Thread Handler :=
  match s.mMessageEnvelopes with
  | [] => { s with phase := .responding }
  | e :: rest =>
    if e.uptime ≤ now then
      { s with mMessageEnvelopes := rest, mSendingMessage := true, phase := .handling e.message }
    else { s with mNextMessageUptime := e.uptime, phase := .responding }

/-! ## The threads together -/

inductive Act (Thread Handler : Type) where
  | sendMessageAtTime (t : Thread) (e : MessageEnvelope Handler)
  | wakeAfterSend (t : Thread)
  | wake (t : Thread)
  | removeMessages (t : Thread) (handler : Handler)
  | removeMessagesWhat (t : Thread) (handler : Handler) (what : Int32)
  | scheduleEpollRebuild (t : Thread)
  | pollInner (timeoutMillis : Int32) (now : Int64)
  | epollWait
  | epollReturn (result : PollResult)
  | lockAfterPoll (now : Int64)
  | lockAfterHandler (now : Int64)
  | returnFromPoll

/-- The looper thread runs code that is not the looper's own. -/
def Phase.callsOut : Phase → Bool
  | .outside | .handling _ | .responding => true
  | _ => false

/-- Thread `t` can begin a call. -/
def State.free (looper t : Thread) (s : State Thread Handler) : Prop :=
  s.waking t = false ∧ (t = looper → s.phase.callsOut = true)

instance [DecidableEq Thread] (looper t : Thread) (s : State Thread Handler) : Decidable (s.free looper t) :=
  inferInstanceAs (Decidable (_ ∧ _))

/-- `epoll_wait` reports the event counter only when it is positive. -/
def PollResult.possible (wakeCounter : Nat) : PollResult → Prop
  | .error => True
  | .events eventItems => .wakeEventFd true ∈ eventItems → 0 < wakeCounter

instance (n : Nat) : (result : PollResult) → Decidable (result.possible n)
  | .error => inferInstanceAs (Decidable True)
  | .events _ => inferInstanceAs (Decidable (_ → _))

/-- A step of one of the threads, refused when that thread is not there. -/
def step [DecidableEq Thread] [DecidableEq Handler] (looper : Thread) (s : State Thread Handler) :
    Act Thread Handler → Except Unit (State Thread Handler)
  | .sendMessageAtTime t e => if s.free looper t then .ok (sendLocked t e s) else .error ()
  | .wakeAfterSend t => if s.waking t then .ok (wakeAfterSend t s) else .error ()
  | .wake t =>
    if s.free looper t then .ok { s with wakeCounter := s.wakeCounter + 1 } else .error ()
  | .removeMessages t handler =>
    if s.free looper t then .ok (removeMessages (fun e => e.handler = handler) s) else .error ()
  | .removeMessagesWhat t handler what =>
    if s.free looper t then
      .ok (removeMessages (fun e => e.handler = handler ∧ e.message.what = what) s)
    else .error ()
  | .scheduleEpollRebuild t =>
    if s.free looper t then .ok (scheduleEpollRebuildLocked s) else .error ()
  | .pollInner timeoutMillis now =>
    if s.phase = .outside ∧ s.waking looper = false then
      .ok { s with phase := .aboutToBlock (adjustTimeout timeoutMillis now s.mNextMessageUptime)
                    s.mNextMessageUptime }
    else .error ()
  | .epollWait =>
    match s.phase with
    | .aboutToBlock timeoutMillis next => .ok { s with phase := .blocked timeoutMillis next }
    | _ => .error ()
  | .epollReturn result =>
    match s.phase with
    | .blocked _ _ =>
      if result.possible s.wakeCounter then .ok { s with phase := .polled result } else .error ()
    | _ => .error ()
  | .lockAfterPoll now =>
    match s.phase with
    | .polled result =>
      .ok (invokePending now { handlePollResult result s with mNextMessageUptime := LLONG_MAX })
    | _ => .error ()
  | .lockAfterHandler now =>
    match s.phase with
    | .handling _ =>
      if s.waking looper then .error ()
      else .ok (invokePending now { s with mSendingMessage := false })
    | _ => .error ()
  | .returnFromPoll =>
    if s.phase = .responding ∧ s.waking looper = false then .ok { s with phase := .outside }
    else .error ()

/-! ## The queue is in order -/

def InOrder (queue : List (MessageEnvelope Handler)) : Prop :=
  queue.Pairwise fun e e' => e.uptime ≤ e'.uptime

theorem insertPosition_le_length (uptime : Int64) (queue : List (MessageEnvelope Handler)) :
    insertPosition uptime queue ≤ queue.length := by
  induction queue with
  | nil => exact Nat.le_refl 0
  | cons x rest ih =>
    unfold insertPosition
    rw [length_cons]
    split <;> omega

section Insert

variable {α : Type} (f : α → MessageEnvelope Handler) {queue : List α} {x : α}

theorem mem_insert {m : α} :
    m ∈ queue.insertIdx (insertPosition (f x).uptime (queue.map f)) x ↔ m = x ∨ m ∈ queue := by
  apply mem_insertIdx
  have hle := insertPosition_le_length (f x).uptime (queue.map f)
  rwa [length_map] at hle

/-- A relation that holds to an item with a later uptime, and from one with the same or an earlier. -/
theorem pairwise_insert {r : α → α → Prop} (h : queue.Pairwise r)
    (hbehind : ∀ y ∈ queue, (f y).uptime ≤ (f x).uptime → r y x)
    (hfront : ∀ y ∈ queue, (f x).uptime < (f y).uptime → r x y ∧ ∀ z, r y z → r x z) :
    (queue.insertIdx (insertPosition (f x).uptime (queue.map f)) x).Pairwise r := by
  induction queue with
  | nil => exact pairwise_singleton r x
  | cons y rest ih =>
    obtain ⟨hy, hrest⟩ := pairwise_cons.mp h
    rw [map_cons, insertPosition]
    split
    case isTrue hge =>
      refine pairwise_cons.mpr ⟨fun m hm => ?_, ?_⟩
      · rcases (mem_insert f).mp hm with rfl | hm
        · exact hbehind y mem_cons_self hge
        · exact hy m hm
      · exact ih hrest (fun z hz => hbehind z (mem_cons_of_mem y hz))
          fun z hz => hfront z (mem_cons_of_mem y hz)
    case isFalse hlt =>
      obtain ⟨hxy, htrans⟩ := hfront y mem_cons_self (Int64.not_le.mp hlt)
      refine pairwise_cons.mpr ⟨fun m hm => ?_, h⟩
      rcases mem_cons.mp hm with rfl | hm
      · exact hxy
      · exact htrans m (hy m hm)

end Insert

variable {queue : List (MessageEnvelope Handler)} (drop : MessageEnvelope Handler → Bool)

theorem InOrder.insert (h : InOrder queue) (e : MessageEnvelope Handler) :
    InOrder (queue.insertIdx (insertPosition e.uptime queue) e) := by
  have hinsert := pairwise_insert id (x := e) h (fun _ _ hle => hle) fun _ _ hlt =>
    ⟨Int64.le_of_lt hlt, fun _ hle => Int64.le_trans (Int64.le_of_lt hlt) hle⟩
  rwa [map_id] at hinsert

theorem removeLoop_eq (i : Nat) (queue : List (MessageEnvelope Handler)) :
    removeLoop drop i queue = (queue.take i).filter (fun e => !drop e) ++ queue.drop i := by
  induction i generalizing queue with
  | zero => rfl
  | succ i ih =>
    rw [removeLoop]
    cases hi : queue[i]? with
    | none =>
      have hlen : queue.length ≤ i := List.getElem?_eq_none_iff.mp hi
      simp only []
      rw [ih, take_of_length_le hlen, take_of_length_le (Nat.le_succ_of_le hlen),
        drop_eq_nil_of_le hlen, drop_eq_nil_of_le (Nat.le_succ_of_le hlen)]
    | some e =>
      obtain ⟨hlt, hget⟩ := List.getElem?_eq_some_iff.mp hi
      have htake : queue.take (i + 1) = queue.take i ++ [e] := by
        rw [take_succ_eq_append_getElem hlt, hget]
      have hdrop : queue.drop i = e :: queue.drop (i + 1) := by
        rw [drop_eq_getElem_cons hlt, hget]
      simp only []
      rw [ih, htake, filter_append]
      cases hd : drop e with
      | true =>
        have herase : queue.eraseIdx i = queue.take i ++ queue.drop (i + 1) :=
          eraseIdx_eq_take_drop_succ queue i
        have hlength : (queue.take i).length = i := length_take_of_le (Nat.le_of_lt hlt)
        rw [if_pos rfl, herase, filter_cons_of_neg (by rw [hd]; exact Bool.false_ne_true),
          filter_nil, append_nil, take_left' hlength, drop_left' hlength]
      | false =>
        rw [if_neg Bool.false_ne_true, hdrop, filter_cons_of_pos (by rw [hd]; rfl),
          filter_nil, append_assoc]
        rfl

/-- All envelopes of the kind are removed, whatever the length of the queue. -/
theorem removeMessages_queue (s : State Thread Handler) :
    (removeMessages drop s).mMessageEnvelopes = s.mMessageEnvelopes.filter fun e => !drop e := by
  unfold removeMessages
  simp only []
  rw [removeLoop_eq, take_length, drop_length, append_nil]

theorem ok_of_guard {α : Type} {p : Prop} [Decidable p] {x y : α}
    (h : (if p then Except.ok x else Except.error ()) = Except.ok y) : p ∧ x = y := by
  split at h
  case isTrue hp => exact ⟨hp, Except.ok.inj h⟩
  case isFalse => cases h

/-! ## What sleep relies on -/

/-- The looper will be woken, or its `mNextMessageUptime` is right. -/
def Covered (s : State Thread Handler) : Prop :=
  0 < s.wakeCounter ∨ (∃ t, s.waking t = true) ∨
    ∀ m ∈ s.mMessageEnvelopes, s.mNextMessageUptime ≤ m.uptime

def Phase.isHandling : Phase → Bool
  | .handling _ => true
  | _ => false

structure Inv (looper : Thread) (s : State Thread Handler) : Prop where
  inOrder : InOrder s.mMessageEnvelopes
  sending : s.mSendingMessage = s.phase.isHandling
  covered : s.phase.isHandling = false → Covered s
  /-- Asleep, the looper thread makes no call, and its timeout is from `mNextMessageUptime`. -/
  asleep : ∀ timeoutMillis next,
    s.phase = .aboutToBlock timeoutMillis next ∨ s.phase = .blocked timeoutMillis next →
      next = s.mNextMessageUptime ∧ s.waking looper = false

theorem inv_init (looper : Thread) : Inv looper (State.init : State Thread Handler) where
  inOrder := List.Pairwise.nil
  sending := rfl
  covered := fun _ => .inr (.inr fun m hm => absurd hm not_mem_nil)
  asleep := fun _ _ h => by rcases h with h | h <;> cases h

variable {looper t : Thread} {s : State Thread Handler} {timeoutMillis : Int32} {next : Int64}
  {ph : Phase}

theorem Phase.callsOut_of_asleep
    (h : ph = .aboutToBlock timeoutMillis next ∨ ph = .blocked timeoutMillis next) :
    ph.callsOut = false := by
  rcases h with rfl | rfl <;> rfl

/-- A thread that begins a call while the looper sleeps is not the looper thread. -/
theorem ne_looper_of_free (hfree : s.free looper t)
    (h : s.phase = .aboutToBlock timeoutMillis next ∨ s.phase = .blocked timeoutMillis next) :
    looper ≠ t := by
  intro heq
  have := hfree.2 heq.symm
  rw [Phase.callsOut_of_asleep h] at this
  exact absurd this Bool.false_ne_true

/-- A message that is not put at the head is due no earlier than the one there. -/
theorem head_le_of_insertPosition {uptime : Int64} (h : insertPosition uptime queue ≠ 0) :
    ∃ e ∈ queue, e.uptime ≤ uptime := by
  cases queue with
  | nil => exact absurd rfl h
  | cons x rest =>
    unfold insertPosition at h
    split at h
    case isTrue hge => exact ⟨x, mem_cons_self, hge⟩
    case isFalse => exact absurd rfl h

theorem sendLocked_inv [DecidableEq Thread] (hs : Inv looper s) (hfree : s.free looper t)
    (e : MessageEnvelope Handler) : Inv looper (sendLocked t e s) := by
  unfold sendLocked
  have hcov : s.phase.isHandling = false → 0 < s.wakeCounter ∨ (∃ t, s.waking t = true) ∨
      ∀ m ∈ s.mMessageEnvelopes, s.mNextMessageUptime ≤ m.uptime := hs.covered
  simp only []
  split
  case isTrue hsend =>
    -- the looper looks at the queue again before it sleeps
    refine ⟨hs.inOrder.insert e, hs.sending, fun h => ?_, hs.asleep⟩
    rw [← hs.sending] at h
    exact absurd (h.symm.trans hsend) Bool.false_ne_true
  case isFalse hsend =>
    split
    case isTrue h0 =>
      refine ⟨hs.inOrder.insert e, hs.sending, fun _ => .inr (.inl ⟨t, ?_⟩), fun tm n h => ?_⟩
      · exact Function.update_self t true s.waking
      · obtain ⟨hn, hw⟩ := hs.asleep tm n h
        refine ⟨hn, ?_⟩
        show Function.update s.waking t true looper = false
        rw [Function.update_of_ne (ne_looper_of_free hfree h), hw]
    case isFalse h0 =>
      refine ⟨hs.inOrder.insert e, hs.sending, fun h => ?_, hs.asleep⟩
      refine (hcov h).imp_right (Or.imp_right fun hall m hm => ?_)
      have hmem : m = e ∨ m ∈ s.mMessageEnvelopes := by
        refine (mem_insert id).mp ?_
        rwa [map_id]
      rcases hmem with rfl | hm
      · obtain ⟨x, hx, hle⟩ := head_le_of_insertPosition h0
        exact Int64.le_trans (hall x hx) hle
      · exact hall m hm

theorem removeMessages_inv (hs : Inv looper s) : Inv looper (removeMessages drop s) := by
  have hsub : (removeMessages drop s).mMessageEnvelopes.Sublist s.mMessageEnvelopes := by
    rw [removeMessages_queue]
    exact filter_sublist
  refine ⟨hs.inOrder.sublist hsub, hs.sending, fun h => ?_, hs.asleep⟩
  exact (hs.covered h).imp_right (Or.imp_right fun hall m hm => hall m (hsub.mem hm))

theorem wakeAfterSend_inv [DecidableEq Thread] (hs : Inv looper s) (t : Thread) :
    Inv looper (wakeAfterSend t s) := by
  refine ⟨hs.inOrder, hs.sending, fun _ => .inl (Nat.succ_pos _), fun tm n h => ?_⟩
  obtain ⟨hn, hw⟩ := hs.asleep tm n h
  refine ⟨hn, ?_⟩
  show Function.update s.waking t false looper = false
  by_cases heq : looper = t
  · rw [heq, Function.update_self]
  · rw [Function.update_of_ne heq, hw]

theorem wake_inv (hs : Inv looper s) :
    Inv looper { s with wakeCounter := s.wakeCounter + 1 } :=
  ⟨hs.inOrder, hs.sending, fun _ => .inl (Nat.succ_pos _), hs.asleep⟩

theorem scheduleEpollRebuildLocked_inv (hs : Inv looper s) :
    Inv looper (scheduleEpollRebuildLocked s) := by
  unfold scheduleEpollRebuildLocked
  split
  case isTrue => exact hs
  case isFalse => exact ⟨hs.inOrder, hs.sending, fun _ => .inl (Nat.succ_pos _), hs.asleep⟩

/-- At the end of the loop over the queue `mNextMessageUptime` is right, whatever became of
the event counter before. -/
theorem invokePending_inv (now : Int64) (horder : InOrder s.mMessageEnvelopes)
    (hsend : s.mSendingMessage = false) : Inv looper (invokePending now s) := by
  unfold invokePending
  split
  case h_1 hq =>
    refine ⟨horder, hsend, fun _ => .inr (.inr fun m hm => ?_), fun _ _ h => ?_⟩
    · rw [hq] at hm
      exact absurd hm not_mem_nil
    · rcases h with h | h <;> cases h
  case h_2 e rest hq =>
    rw [hq] at horder
    obtain ⟨he, hrest⟩ := pairwise_cons.mp horder
    split
    case isTrue hdue =>
      refine ⟨hrest, rfl, fun h => absurd h (Bool.noConfusion), fun _ _ h => ?_⟩
      rcases h with h | h <;> cases h
    case isFalse =>
      refine ⟨hq ▸ horder, hsend, fun _ => .inr (.inr fun m hm => ?_), fun _ _ h => ?_⟩
      · rw [hq] at hm
        rcases mem_cons.mp hm with rfl | hm
        · exact Int64.le_refl _
        · exact he m hm
      · rcases h with h | h <;> cases h

theorem foldl_handleEvent (eventItems : List PollEvent) (s : State Thread Handler) :
    (eventItems.foldl handleEvent s).mMessageEnvelopes = s.mMessageEnvelopes
      ∧ (eventItems.foldl handleEvent s).mSendingMessage = s.mSendingMessage := by
  induction eventItems generalizing s with
  | nil => exact ⟨rfl, rfl⟩
  | cons ev rest ih =>
    rw [foldl_cons, (ih _).1, (ih _).2]
    rcases ev with ⟨_ | _⟩ | _ <;> exact ⟨rfl, rfl⟩

theorem handlePollResult_queue (result : PollResult) (s : State Thread Handler) :
    (handlePollResult result s).mMessageEnvelopes = s.mMessageEnvelopes
      ∧ (handlePollResult result s).mSendingMessage = s.mSendingMessage := by
  unfold handlePollResult
  split
  case isTrue => exact ⟨rfl, rfl⟩
  case isFalse =>
    cases result with
    | error => exact ⟨rfl, rfl⟩
    | events eventItems => exact foldl_handleEvent eventItems s

/-- A change of phase outside the handlers, which leaves everything else as it is. -/
theorem setPhase_inv (hs : Inv looper s) (hfrom : s.phase.isHandling = false)
    (hto : ph.isHandling = false) (hasleep : ∀ timeoutMillis next,
      ph = .aboutToBlock timeoutMillis next ∨ ph = .blocked timeoutMillis next →
        next = s.mNextMessageUptime ∧ s.waking looper = false) :
    Inv looper { s with phase := ph } where
  inOrder := hs.inOrder
  sending := hs.sending.trans (hfrom.trans hto.symm)
  covered := fun _ => hs.covered hfrom
  asleep := hasleep

theorem step_inv [DecidableEq Thread] [DecidableEq Handler] (s : State Thread Handler)
    (a : Act Thread Handler) (s' : State Thread Handler) (hs : Inv looper s)
    (h : step looper s a = .ok s') : Inv looper s' := by
  cases a with
  | sendMessageAtTime t e =>
    obtain ⟨hfree, rfl⟩ := ok_of_guard h
    exact sendLocked_inv hs hfree e
  | wakeAfterSend t =>
    obtain ⟨-, rfl⟩ := ok_of_guard h
    exact wakeAfterSend_inv hs t
  | wake t =>
    obtain ⟨-, rfl⟩ := ok_of_guard h
    exact wake_inv hs
  | removeMessages | removeMessagesWhat =>
    obtain ⟨-, rfl⟩ := ok_of_guard h
    exact removeMessages_inv _ hs
  | scheduleEpollRebuild t =>
    obtain ⟨-, rfl⟩ := ok_of_guard h
    exact scheduleEpollRebuildLocked_inv hs
  | pollInner timeoutMillis now =>
    obtain ⟨⟨hph, hw⟩, rfl⟩ := ok_of_guard h
    refine setPhase_inv hs (by rw [hph]; rfl) rfl fun tm n h => ?_
    rcases h with h | h
    · cases h
      exact ⟨rfl, hw⟩
    · cases h
  | epollWait =>
    simp only [step] at h
    split at h
    case h_1 tm n hph =>
      obtain rfl := Except.ok.inj h
      refine setPhase_inv hs (by rw [hph]; rfl) rfl fun tm' n' h => ?_
      rcases h with h | h
      · cases h
      · cases h
        exact hs.asleep tm n (.inl hph)
    case h_2 => cases h
  | epollReturn result =>
    simp only [step] at h
    split at h
    case h_1 tm n hph =>
      obtain ⟨-, rfl⟩ := ok_of_guard h
      refine setPhase_inv hs (by rw [hph]; rfl) rfl fun tm' n' h => ?_
      rcases h with h | h <;> cases h
    case h_2 => cases h
  | lockAfterPoll now =>
    simp only [step] at h
    split at h
    case h_1 result hph =>
      obtain rfl := Except.ok.inj h
      obtain ⟨hq, hsend⟩ := handlePollResult_queue result s
      have hsend' := hs.sending
      rw [hph] at hsend'
      exact invokePending_inv now (by rw [hq]; exact hs.inOrder) (hsend.trans hsend')
    case h_2 => cases h
  | lockAfterHandler now =>
    simp only [step] at h
    split at h
    case h_1 m hph =>
      split at h
      case isTrue => cases h
      case isFalse =>
        obtain rfl := Except.ok.inj h
        exact invokePending_inv now hs.inOrder rfl
    case h_2 => cases h
  | returnFromPoll =>
    obtain ⟨⟨hph, -⟩, rfl⟩ := ok_of_guard h
    refine setPhase_inv hs (by rw [hph]; rfl) rfl fun tm n h => ?_
    rcases h with h | h <;> cases h

theorem run_inv [DecidableEq Thread] [DecidableEq Handler] {acts : List (Act Thread Handler)}
    (h : run (step looper) State.init acts = .ok s) : Inv looper s :=
  run_of_along (P := fun _ _ => True) (fun s a s' hs _ => step_inv s a s' hs) acts
    (inv_init looper) (along_of_forall fun _ _ _ => trivial) h

/-- Whenever the looper thread sleeps or is about to, on a timeout from
`mNextMessageUptime`, the event counter is positive, or another thread has put a message at
the head of the queue and is about to call `wake()`, or no message is due earlier. -/
theorem sleep_covered [DecidableEq Thread] [DecidableEq Handler] (looper : Thread)
    (acts : List (Act Thread Handler)) (s : State Thread Handler) (timeoutMillis : Int32)
    (next : Int64) (hrun : run (step looper) State.init acts = .ok s)
    (hasleep : s.phase = .aboutToBlock timeoutMillis next ∨ s.phase = .blocked timeoutMillis next) :
    next = s.mNextMessageUptime ∧
      (0 < s.wakeCounter ∨ (∃ t, t ≠ looper ∧ s.waking t = true) ∨
        ∀ m ∈ s.mMessageEnvelopes, next ≤ m.uptime) := by
  have hs := run_inv hrun
  obtain ⟨rfl, hw⟩ := hs.asleep timeoutMillis next hasleep
  have hcov := hs.covered (by rcases hasleep with h | h <;> rw [h] <;> rfl)
  refine ⟨rfl, hcov.imp_right (Or.imp_left fun ⟨t, ht⟩ => ⟨t, fun heq => ?_, ht⟩)⟩
  rw [heq, hw] at ht
  exact absurd ht Bool.false_ne_true

/-- A message of thread `true` wakes the looper thread `false`, which sleeps on until the
message is due. -/
def messageInTime : List (Act Bool Unit) :=
  [.sendMessageAtTime true ⟨100, (), ⟨0⟩⟩, .wakeAfterSend true, .pollInner (-1) 10, .epollWait,
    .epollReturn (.events [.wakeEventFd true]), .lockAfterPoll 10, .returnFromPoll,
    .pollInner (-1) 10, .epollWait]

theorem sleep_covered_until_due :
    ∃ s, run (step false) State.init messageInTime = .ok s ∧ s.phase = .blocked 1 100
      ∧ s.wakeCounter = 0 ∧ 100 = s.mNextMessageUptime
      ∧ (0 < s.wakeCounter ∨ (∃ t, t ≠ false ∧ s.waking t = true) ∨
          ∀ m ∈ s.mMessageEnvelopes, 100 ≤ m.uptime) := by
  refine ⟨_, rfl, rfl, rfl, ?_⟩
  exact sleep_covered false messageInTime _ 1 100 rfl (.inr rfl)

/-- Between the locked section of `sendMessageAtTime` and its `wake()` the counter is not yet
positive. -/
theorem sleep_before_wake :
    ¬ ∀ (acts : List (Act Bool Unit)) (s : State Bool Unit) (timeoutMillis : Int32) (next : Int64),
      run (step false) State.init acts = .ok s →
      s.phase = .aboutToBlock timeoutMillis next ∨ s.phase = .blocked timeoutMillis next →
      0 < s.wakeCounter ∨ ∀ m ∈ s.mMessageEnvelopes, next ≤ m.uptime := by
  intro h
  have hs := h [.pollInner (-1) 0, .epollWait, .sendMessageAtTime true ⟨5, (), ⟨0⟩⟩] _ (-1)
    LLONG_MAX rfl (.inr rfl)
  rcases hs with hs | hs
  · exact absurd hs (Nat.lt_irrefl 0)
  · exact absurd (hs ⟨5, (), ⟨0⟩⟩ mem_cons_self) (by decide)

end SystemCore.Libutils.Looper
