import Mathlib.Data.List.InsertIdx
import SystemCore.Libutils.Looper

/-!
# The order of delivery

Beside a run of the looper its history is kept: every envelope in the queue with the place in the
history where it was sent, and every dispatch with what was waiting then. A dispatch is the locked
section of `pollInner` that takes an envelope from the queue; its handler is called with the lock
released, and what it sends and removes are steps of the history like those of any other thread.
-/
namespace SystemCore.Libutils.Looper

open Lib.Runs List

variable {Thread Handler : Type}

/-! ## The history of a run -/

/-- An envelope, with the place in the history where it was sent. -/
structure Sent (Handler : Type) where
  sentAt : Nat
  envelope : MessageEnvelope Handler

/-- A dispatch: its place in the history, the time read from the clock, and the messages waiting. -/
structure Delivery (Handler : Type) where
  message : Sent Handler
  deliveredAt : Nat
  now : Int64
  waiting : List (Sent Handler)

structure Tracked (Thread Handler : Type) where
  state : State Thread Handler
  history : List (Act Thread Handler)
  queue : List (Sent Handler)
  deliveries : List (Delivery Handler)

def Tracked.init : Tracked Thread Handler := ⟨State.init, [], [], []⟩

def Act.removes [DecidableEq Handler] (e : MessageEnvelope Handler) : Act Thread Handler → Bool
  | .removeMessages _ handler => e.handler = handler
  | .removeMessagesWhat _ handler what => e.handler = handler ∧ e.message.what = what
  | _ => false

/-- When the looper goes on to call a handler it has taken the head of the queue. -/
def dispatched (place : Nat) (now : Int64) :
    Phase → List (Sent Handler) → List (Sent Handler) × List (Delivery Handler)
  | .handling _, m :: rest => (rest, [⟨m, place, now, rest⟩])
  | _, queue => (queue, [])

/-- What a step at this place in the history does to the queue, and the dispatch it makes. The
phase is the one after the step. -/
def track [DecidableEq Handler] (place : Nat) (phase : Phase) (queue : List (Sent Handler)) :
    Act Thread Handler → List (Sent Handler) × List (Delivery Handler)
  | .sendMessageAtTime _ e =>
    (queue.insertIdx (insertPosition e.uptime (queue.map Sent.envelope)) ⟨place, e⟩, [])
  | .lockAfterPoll now => dispatched place now phase queue
  | .lockAfterHandler now => dispatched place now phase queue
  | a => (queue.filter fun m => !a.removes m.envelope, [])

def trackedStep [DecidableEq Thread] [DecidableEq Handler] (looper : Thread)
    (T : Tracked Thread Handler) (a : Act Thread Handler) : Except Unit (Tracked Thread Handler) :=
  match step looper T.state a with
  | .error e => .error e
  | .ok s => .ok {
      state := s
      history := T.history ++ [a]
      queue := (track T.history.length s.phase T.queue a).1
      deliveries := T.deliveries ++ (track T.history.length s.phase T.queue a).2 }

/-! ## What is true of every history -/

/-- The order of the queue: by uptime, and by sending where that is the same. -/
def Sent.Before (m n : Sent Handler) : Prop :=
  m.envelope.uptime < n.envelope.uptime
    ∨ m.envelope.uptime = n.envelope.uptime ∧ m.sentAt < n.sentAt

/-- The message was sent at its place in the history. -/
def WasSent (history : List (Act Thread Handler)) (m : Sent Handler) : Prop :=
  ∃ t, history[m.sentAt]? = some (.sendMessageAtTime t m.envelope)

/-- No step behind the sending, up to the place, removes the message. -/
def Unremoved [DecidableEq Handler] (history : List (Act Thread Handler)) (place : Nat)
    (m : Sent Handler) : Prop :=
  ∀ i a, m.sentAt < i → i < place → history[i]? = some a → a.removes m.envelope = false

/-- A dispatch as it should be. -/
structure Proper [DecidableEq Handler] (history : List (Act Thread Handler)) (d : Delivery Handler) :
    Prop where
  sent : WasSent history d.message
  sent_earlier : d.message.sentAt < d.deliveredAt
  delivered_earlier : d.deliveredAt < history.length
  due : d.message.envelope.uptime ≤ d.now
  unremoved : Unremoved history d.deliveredAt d.message
  first : ∀ m ∈ d.waiting, d.message.Before m

structure Tracked.Orderly [DecidableEq Handler] (T : Tracked Thread Handler) : Prop where
  vector : T.state.mMessageEnvelopes = T.queue.map Sent.envelope
  sorted : T.queue.Pairwise Sent.Before
  sent : ∀ m ∈ T.queue, WasSent T.history m
  unremoved : ∀ m ∈ T.queue, Unremoved T.history T.history.length m
  proper : ∀ d ∈ T.deliveries, Proper T.history d
  once : (T.deliveries.map fun d => d.message.sentAt).Nodup
  gone : ∀ d ∈ T.deliveries, ∀ m ∈ T.queue, d.message.sentAt ≠ m.sentAt

/-! ## The queue of the looper -/

variable {queue : List (Sent Handler)} {a : Act Thread Handler} {s s' : State Thread Handler}
  {looper : Thread} {now : Int64}

/-- The looper takes the head of the queue when it is due, and else leaves the queue. -/
theorem invokePending_dispatched (place : Nat) (now : Int64)
    (h : s.mMessageEnvelopes = queue.map Sent.envelope) :
    (∃ m rest, queue = m :: rest ∧ m.envelope.uptime ≤ now
      ∧ dispatched place now (invokePending now s).phase queue = (rest, [⟨m, place, now, rest⟩])
      ∧ (invokePending now s).mMessageEnvelopes = rest.map Sent.envelope)
    ∨ dispatched place now (invokePending now s).phase queue = (queue, [])
      ∧ (invokePending now s).mMessageEnvelopes = queue.map Sent.envelope := by
  unfold invokePending
  cases queue with
  | nil =>
    rw [h]
    exact .inr ⟨rfl, rfl⟩
  | cons m rest =>
    rw [h, map_cons]
    simp only []
    split
    case isTrue hdue => exact .inl ⟨m, rest, rfl, hdue, rfl, rfl⟩
    case isFalse => exact .inr ⟨rfl, rfl⟩

theorem invokePending_queue (place : Nat) (now : Int64)
    (h : s.mMessageEnvelopes = queue.map Sent.envelope) :
    (invokePending now s).mMessageEnvelopes
      = (dispatched place now (invokePending now s).phase queue).1.map Sent.envelope := by
  rcases invokePending_dispatched place now h with ⟨m, rest, -, -, htaken, hqueue⟩ | ⟨hkept, hqueue⟩
  · rw [htaken, hqueue]
  · rw [hkept, hqueue]

/-- Each of the two sections that dispatch ends with the loop over the queue. -/
theorem step_dispatch [DecidableEq Thread] [DecidableEq Handler]
    (ha : a = .lockAfterPoll now ∨ a = .lockAfterHandler now) (h : step looper s a = .ok s') :
    ∃ s₀, s' = invokePending now s₀ ∧ s₀.mMessageEnvelopes = s.mMessageEnvelopes := by
  cases ha with
  | inl ha =>
    subst ha
    simp only [step] at h
    split at h
    case h_1 result _ => exact ⟨_, (Except.ok.inj h).symm, (handlePollResult_queue result s).1⟩
    case h_2 => cases h
  | inr ha =>
    subst ha
    simp only [step] at h
    split at h
    case h_1 =>
      split at h
      case isTrue => cases h
      case isFalse => exact ⟨_, (Except.ok.inj h).symm, rfl⟩
    case h_2 => cases h

/-- The queue kept beside the run is that of the looper. -/
theorem track_queue [DecidableEq Thread] [DecidableEq Handler] (hstep : step looper s a = .ok s')
    (place : Nat) (h : s.mMessageEnvelopes = queue.map Sent.envelope) :
    s'.mMessageEnvelopes = (track place s'.phase queue a).1.map Sent.envelope := by
  -- a step that is neither a removal nor a dispatch leaves the queue
  have hall : (queue.filter fun _ => true).map Sent.envelope = s.mMessageEnvelopes := by
    rw [filter_true, h]
  have hremove : ∀ drop : MessageEnvelope Handler → Bool,
      (removeMessages drop s).mMessageEnvelopes
        = (queue.filter fun m => !drop m.envelope).map Sent.envelope := by
    intro drop
    rw [removeMessages_queue, h, filter_map]
    rfl
  cases a with
  | sendMessageAtTime t e =>
    obtain ⟨-, rfl⟩ := ok_of_guard hstep
    have hinsert : (sendLocked t e s).mMessageEnvelopes
        = s.mMessageEnvelopes.insertIdx (insertPosition e.uptime s.mMessageEnvelopes) e := by
      unfold sendLocked
      simp only []
      split
      · rfl
      · split <;> rfl
    rw [hinsert, h, track, map_insertIdx]
  | wakeAfterSend | wake | pollInner | returnFromPoll =>
    obtain ⟨-, rfl⟩ := ok_of_guard hstep
    exact hall.symm
  | removeMessages | removeMessagesWhat =>
    obtain ⟨-, rfl⟩ := ok_of_guard hstep
    exact hremove _
  | scheduleEpollRebuild t =>
    obtain ⟨-, rfl⟩ := ok_of_guard hstep
    unfold scheduleEpollRebuildLocked
    split <;> exact hall.symm
  | epollWait =>
    simp only [step] at hstep
    split at hstep
    case h_1 =>
      obtain rfl := Except.ok.inj hstep
      exact hall.symm
    case h_2 => cases hstep
  | epollReturn result =>
    simp only [step] at hstep
    split at hstep
    case h_1 =>
      obtain ⟨-, rfl⟩ := ok_of_guard hstep
      exact hall.symm
    case h_2 => cases hstep
  | lockAfterPoll now =>
    obtain ⟨s₀, rfl, hs₀⟩ := step_dispatch (.inl rfl) hstep
    exact invokePending_queue place now (hs₀.trans h)
  | lockAfterHandler now =>
    obtain ⟨s₀, rfl, hs₀⟩ := step_dispatch (.inr rfl) hstep
    exact invokePending_queue place now (hs₀.trans h)

/-! ## One step -/

section History

variable {history : List (Act Thread Handler)} {m n : Sent Handler}

theorem WasSent.lt (h : WasSent history m) : m.sentAt < history.length := by
  obtain ⟨t, ht⟩ := h
  exact (List.getElem?_eq_some_iff.mp ht).1

theorem WasSent.concat (h : WasSent history m) (a : Act Thread Handler) :
    WasSent (history ++ [a]) m := by
  obtain ⟨t, ht⟩ := h
  exact ⟨t, by rw [List.getElem?_append_left (WasSent.lt ⟨t, ht⟩), ht]⟩

/-- Two messages in the order of the queue were sent at different places. -/
theorem Sent.Before.sentAt_ne (h : m.Before n) (hm : WasSent history m) (hn : WasSent history n) :
    m.sentAt ≠ n.sentAt := by
  intro hsame
  obtain ⟨t, ht⟩ := hm
  obtain ⟨u, hu⟩ := hn
  rw [hsame, hu, Option.some.injEq, Act.sendMessageAtTime.injEq] at ht
  cases h with
  | inl hlt =>
    rw [ht.2] at hlt
    exact Int64.lt_irrefl hlt
  | inr hlater => exact Nat.ne_of_lt hlater.2 hsame

variable [DecidableEq Handler]

theorem Unremoved.concat {place : Nat} (h : Unremoved history place m)
    (hplace : place ≤ history.length) (a : Act Thread Handler) :
    Unremoved (history ++ [a]) place m := by
  intro i b hsent hi hb
  rw [List.getElem?_append_left (Nat.lt_of_lt_of_le hi hplace)] at hb
  exact h i b hsent hi hb

/-- A message that one more step does not remove. -/
theorem Unremoved.succ (h : Unremoved history history.length m) {a : Act Thread Handler}
    (ha : a.removes m.envelope = false) :
    Unremoved (history ++ [a]) (history ++ [a]).length m := by
  intro i b hsent hi hb
  rw [length_append, length_singleton] at hi
  by_cases hlast : i = history.length
  · subst hlast
    rw [List.getElem?_concat_length, Option.some.injEq] at hb
    rw [← hb]
    exact ha
  · rw [List.getElem?_append_left (by omega)] at hb
    exact h i b hsent (by omega) hb

theorem Proper.concat {d : Delivery Handler} (h : Proper history d) (a : Act Thread Handler) :
    Proper (history ++ [a]) d where
  sent := h.sent.concat a
  sent_earlier := h.sent_earlier
  delivered_earlier := by
    have hlt := h.delivered_earlier
    rw [length_append]
    omega
  due := h.due
  unremoved := h.unremoved.concat (Nat.le_of_lt h.delivered_earlier) a
  first := h.first

/-- What a step does to the queue: it puts a message in, takes the head out for dispatch, or leaves
the messages that it does not remove. -/
theorem track_cases [DecidableEq Thread] (hstep : step looper s a = .ok s') (place : Nat)
    (h : s.mMessageEnvelopes = queue.map Sent.envelope) :
    (∃ t e, a = .sendMessageAtTime t e ∧ track place s'.phase queue a
      = (queue.insertIdx (insertPosition e.uptime (queue.map Sent.envelope)) ⟨place, e⟩, []))
    ∨ (∃ m rest now, queue = m :: rest ∧ m.envelope.uptime ≤ now ∧ (∀ e, a.removes e = false)
      ∧ track place s'.phase queue a = (rest, [⟨m, place, now, rest⟩]))
    ∨ ∃ kept, kept.Sublist queue ∧ (∀ m ∈ kept, a.removes m.envelope = false)
      ∧ track place s'.phase queue a = (kept, []) := by
  have hhead : ∀ now, a = .lockAfterPoll now ∨ a = .lockAfterHandler now →
      (∀ e, a.removes e = false) →
      (∃ m rest now', queue = m :: rest ∧ m.envelope.uptime ≤ now' ∧ (∀ e, a.removes e = false)
        ∧ dispatched place now s'.phase queue = (rest, [⟨m, place, now', rest⟩]))
      ∨ ∃ kept, kept.Sublist queue ∧ (∀ m ∈ kept, a.removes m.envelope = false)
        ∧ dispatched place now s'.phase queue = (kept, []) := by
    intro now ha hnone
    obtain ⟨s₀, rfl, hs₀⟩ := step_dispatch ha hstep
    rcases invokePending_dispatched place now (hs₀.trans h) with
      ⟨m, rest, hqueue, hdue, htaken, -⟩ | ⟨hkept, -⟩
    · exact .inl ⟨m, rest, now, hqueue, hdue, hnone, htaken⟩
    · exact .inr ⟨queue, List.Sublist.refl _, fun n _ => hnone n.envelope, hkept⟩
  have hkeep : ∃ kept, kept.Sublist queue ∧ (∀ m ∈ kept, a.removes m.envelope = false)
      ∧ ((queue.filter fun m => !a.removes m.envelope, []) :
        List (Sent Handler) × List (Delivery Handler)) = (kept, []) := by
    refine ⟨_, filter_sublist, fun m hm => ?_, rfl⟩
    have hkept := (mem_filter.mp hm).2
    rw [Bool.not_eq_true'] at hkept
    exact hkept
  cases a with
  | sendMessageAtTime t e => exact .inl ⟨t, e, rfl, rfl⟩
  | lockAfterPoll now => exact .inr (hhead now (.inl rfl) fun _ => rfl)
  | lockAfterHandler now => exact .inr (hhead now (.inr rfl) fun _ => rfl)
  | wakeAfterSend | wake | removeMessages | removeMessagesWhat | scheduleEpollRebuild | pollInner
  | epollWait | epollReturn | returnFromPoll => exact .inr (.inr hkeep)

end History

/-- A message sent after all that wait goes behind those with the same uptime. -/
theorem sorted_insert (h : queue.Pairwise Sent.Before) {x : Sent Handler}
    (hlast : ∀ m ∈ queue, m.sentAt < x.sentAt) :
    (queue.insertIdx (insertPosition x.envelope.uptime (queue.map Sent.envelope)) x).Pairwise
      Sent.Before := by
  refine pairwise_insert Sent.envelope h (fun y hy hle => ?_) fun y _ hlt => ⟨.inl hlt, fun z hyz => ?_⟩
  · have hsent := hlast y hy
    unfold Sent.Before
    rw [Int64.le_iff_toInt_le] at hle
    rw [Int64.lt_iff_toInt_lt, ← Int64.toInt_inj]
    omega
  · unfold Sent.Before at hyz ⊢
    rw [Int64.lt_iff_toInt_lt, ← Int64.toInt_inj] at hyz ⊢
    rw [Int64.lt_iff_toInt_lt] at hlt
    omega

theorem orderly_init [DecidableEq Handler] : (Tracked.init : Tracked Thread Handler).Orderly where
  vector := rfl
  sorted := List.Pairwise.nil
  sent := fun _ hm => absurd hm not_mem_nil
  unremoved := fun _ hm => absurd hm not_mem_nil
  proper := fun _ hd => absurd hd not_mem_nil
  once := nodup_nil
  gone := fun _ hd => absurd hd not_mem_nil

section Step

variable [DecidableEq Thread] [DecidableEq Handler] {looper : Thread} {T T' : Tracked Thread Handler}
  {a : Act Thread Handler}

theorem trackedStep_ok (h : trackedStep looper T a = .ok T') :
    step looper T.state a = .ok T'.state ∧ T'.history = T.history ++ [a]
      ∧ T'.queue = (track T.history.length T'.state.phase T.queue a).1
      ∧ T'.deliveries = T.deliveries ++ (track T.history.length T'.state.phase T.queue a).2 := by
  unfold trackedStep at h
  split at h
  case h_1 => cases h
  case h_2 s hs =>
    obtain rfl := Except.ok.inj h
    exact ⟨hs, rfl, rfl, rfl⟩

omit [DecidableEq Thread] in
/-- A step that dispatches nothing: what waits then waited before and is not removed, or is sent by
the step. -/
theorem Tracked.Orderly.next (h : T.Orderly) (hhistory : T'.history = T.history ++ [a])
    (hdeliveries : T'.deliveries = T.deliveries)
    (hvector : T'.state.mMessageEnvelopes = T'.queue.map Sent.envelope)
    (hsorted : T'.queue.Pairwise Sent.Before)
    (hmem : ∀ m ∈ T'.queue, m ∈ T.queue ∧ a.removes m.envelope = false
      ∨ m.sentAt = T.history.length ∧ WasSent T'.history m) : T'.Orderly where
  vector := hvector
  sorted := hsorted
  sent m hm := by
    rcases hmem m hm with ⟨hold, -⟩ | ⟨-, hnew⟩
    · rw [hhistory]
      exact (h.sent m hold).concat a
    · exact hnew
  unremoved m hm := by
    rcases hmem m hm with ⟨hold, ha⟩ | ⟨hplace, -⟩
    · rw [hhistory]
      exact (h.unremoved m hold).succ ha
    · intro i b hsent hi
      rw [hhistory, length_append, length_singleton] at hi
      omega
  proper d hd := by
    rw [hdeliveries] at hd
    rw [hhistory]
    exact (h.proper d hd).concat a
  once := by
    rw [hdeliveries]
    exact h.once
  gone d hd m hm := by
    rw [hdeliveries] at hd
    rcases hmem m hm with ⟨hold, -⟩ | ⟨hplace, -⟩
    · exact h.gone d hd m hold
    · have hlt := Nat.lt_trans (h.proper d hd).sent_earlier (h.proper d hd).delivered_earlier
      rw [hplace]
      exact Nat.ne_of_lt hlt

omit [DecidableEq Thread] in
/-- A step that takes the head of the queue out and dispatches it. -/
theorem Tracked.Orderly.dispatch {m : Sent Handler} {now : Int64} (h : T.Orderly)
    (hhistory : T'.history = T.history ++ [a]) (hfirst : T.queue = m :: T'.queue)
    (hdeliveries : T'.deliveries = T.deliveries ++ [⟨m, T.history.length, now, T'.queue⟩])
    (hvector : T'.state.mMessageEnvelopes = T'.queue.map Sent.envelope)
    (hdue : m.envelope.uptime ≤ now) (hnone : ∀ e, a.removes e = false) : T'.Orderly := by
  have hsorted := h.sorted
  rw [hfirst] at hsorted
  obtain ⟨hbefore, hrest⟩ := pairwise_cons.mp hsorted
  have hm : m ∈ T.queue := by
    rw [hfirst]
    exact mem_cons_self
  have hmem : ∀ n ∈ T'.queue, n ∈ T.queue := by
    intro n hn
    rw [hfirst]
    exact mem_cons_of_mem m hn
  -- all but the dispatch itself
  have hnext : Tracked.Orderly { T' with deliveries := T.deliveries } :=
    h.next hhistory rfl hvector hrest fun n hn => .inl ⟨hmem n hn, hnone n.envelope⟩
  refine ⟨hvector, hnext.sorted, hnext.sent, hnext.unremoved, fun d hd => ?_, ?_,
    fun d hd n hn => ?_⟩
  · rw [hdeliveries] at hd
    cases mem_append.mp hd with
    | inl hold => exact hnext.proper d hold
    | inr hnew =>
      rw [mem_singleton] at hnew
      rw [hnew, hhistory]
      exact {
        sent := (h.sent m hm).concat a
        sent_earlier := (h.sent m hm).lt
        delivered_earlier := by rw [length_append]; exact Nat.lt_succ_self _
        due := hdue
        unremoved := (h.unremoved m hm).concat (Nat.le_refl _) a
        first := hbefore }
  · rw [hdeliveries, map_append, nodup_append]
    refine ⟨h.once, pairwise_singleton _ _, fun i hi j hj => ?_⟩
    obtain ⟨d, hd, rfl⟩ := mem_map.mp hi
    rw [map_singleton, mem_singleton] at hj
    rw [hj]
    exact h.gone d hd m hm
  · rw [hdeliveries] at hd
    cases mem_append.mp hd with
    | inl hold => exact hnext.gone d hold n hn
    | inr hnew =>
      rw [mem_singleton] at hnew
      rw [hnew]
      exact (hbefore n hn).sentAt_ne (h.sent m hm) (h.sent n (hmem n hn))

theorem trackedStep_orderly (h : T.Orderly) (hstep : trackedStep looper T a = .ok T') :
    T'.Orderly := by
  obtain ⟨hstate, hhistory, hqueue, hdeliveries⟩ := trackedStep_ok hstep
  have hvector : T'.state.mMessageEnvelopes = T'.queue.map Sent.envelope := by
    rw [hqueue]
    exact track_queue hstate T.history.length h.vector
  obtain ⟨t, e, rfl, htrack⟩ | ⟨m, rest, now, hfirst, hdue, hnone, htrack⟩ |
      ⟨kept, hsub, hkept, htrack⟩ := track_cases hstate T.history.length h.vector
  · -- a message is sent
    rw [htrack] at hqueue hdeliveries
    rw [append_nil] at hdeliveries
    refine h.next hhistory hdeliveries hvector ?_ fun m hm => ?_
    · rw [hqueue]
      exact sorted_insert (x := ⟨T.history.length, e⟩) h.sorted fun m hm => (h.sent m hm).lt
    · rw [hqueue] at hm
      rcases (mem_insert Sent.envelope (x := ⟨T.history.length, e⟩)).mp hm with rfl | hold
      · rw [hhistory]
        exact .inr ⟨rfl, t, List.getElem?_concat_length⟩
      · exact .inl ⟨hold, rfl⟩
  · -- the head is dispatched
    rw [htrack] at hqueue hdeliveries
    obtain rfl : T'.queue = rest := hqueue
    exact h.dispatch hhistory hfirst hdeliveries hvector hdue hnone
  · -- some messages are removed, or none
    rw [htrack] at hqueue hdeliveries
    rw [append_nil] at hdeliveries
    refine h.next hhistory hdeliveries hvector ?_ fun m hm => ?_
    · rw [hqueue]
      exact h.sorted.sublist hsub
    · rw [hqueue] at hm
      exact .inl ⟨hsub.mem hm, hkept m hm⟩

/-! ## Whole runs -/

/-- The history beside a run does not change the run. -/
theorem run_tracked_state {acts : List (Act Thread Handler)}
    (h : run (trackedStep looper) T acts = .ok T') :
    run (step looper) T.state acts = .ok T'.state ∧ T'.history = T.history ++ acts := by
  induction acts generalizing T with
  | nil =>
    obtain rfl := Except.ok.inj h
    exact ⟨rfl, (append_nil T.history).symm⟩
  | cons a acts ih =>
    obtain ⟨U, hU, hrest⟩ := run_cons_inv h
    obtain ⟨hstate, hhistory, -, -⟩ := trackedStep_ok hU
    obtain ⟨hrun, hall⟩ := ih hrest
    refine ⟨by rw [run_cons_ok hstate, hrun], ?_⟩
    rw [hall, hhistory, append_assoc]
    rfl

end Step

/-- In every history the queue is in order, and every message is dispatched at most once, when it is
due, unless a removal came in between, and before all that are behind it in the order. -/
theorem delivery_in_order [DecidableEq Thread] [DecidableEq Handler] (looper : Thread)
    (acts : List (Act Thread Handler)) (T : Tracked Thread Handler)
    (hrun : run (trackedStep looper) Tracked.init acts = .ok T) :
    run (step looper) State.init acts = .ok T.state ∧ T.history = acts ∧ T.Orderly := by
  obtain ⟨hstate, hhistory⟩ := run_tracked_state hrun
  refine ⟨hstate, hhistory, ?_⟩
  exact run_of_along (P := fun _ _ => True) (fun _ _ _ h _ => trackedStep_orderly h) acts
    orderly_init (along_of_forall fun _ _ _ => trivial) hrun

/-- Three messages for one time, of which the second is removed. -/
def threeSent : List (Act Bool Nat) :=
  [.sendMessageAtTime true ⟨5, 1, ⟨0⟩⟩, .wakeAfterSend true, .sendMessageAtTime true ⟨5, 2, ⟨0⟩⟩,
    .sendMessageAtTime true ⟨5, 3, ⟨0⟩⟩, .removeMessages true 2, .pollInner (-1) 5, .epollWait,
    .epollReturn (.events [.wakeEventFd true]), .lockAfterPoll 5, .lockAfterHandler 6]

theorem delivery_in_order_three :
    ∃ T, run (trackedStep false) Tracked.init threeSent = .ok T
      ∧ T.deliveries.map (fun d => (d.message.sentAt, d.deliveredAt)) = [(0, 8), (3, 9)]
      ∧ T.Orderly := by
  refine ⟨_, rfl, rfl, ?_⟩
  exact (delivery_in_order false threeSent _ rfl).2.2

end SystemCore.Libutils.Looper
