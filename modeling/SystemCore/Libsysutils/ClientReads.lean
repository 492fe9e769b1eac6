import Mathlib.Data.List.Induction
import SystemCore.Libsysutils.FrameworkListener

/-!
# Reads from several clients of one framework socket

After data that is not zero-terminated, `onDataAvailable` skips the rest of that command. Whether it
has to is noted in the listener and not with the client, so the next read may be another client's.
-/
namespace SystemCore.Libsysutils

variable {Client : Type}

structure Socket (Client : Type) where
  listener : Listener
  mSkipToNextNullByte : Bool
  /-- The calls of `dispatchCommand` so far. -/
  dispatched : List (Client × Text)

/-- One turn of the loop over the buffer, with the bytes since `offset`. -/
def scanByte (c : Client) (s : Socket Client × Text) (b : UInt8) : Socket Client × Text :=
  if b = 0 then
    if s.1.mSkipToNextNullByte then ({ s.1 with mSkipToNextNullByte := false }, [])
    else
      ({ s.1 with
        listener := (dispatchCommand s.1.listener s.2).1
        dispatched := s.1.dispatched ++ [(c, s.2)] }, [])
  else (s.1, s.2 ++ [b])

/-- The listener after `onDataAvailable`, and whether the client is kept. A failed read brings no
bytes, like the end of the stream. -/
def onDataAvailable (s : Socket Client) (c : Client) (buffer : Text) : Socket Client × Bool :=
  if buffer = [] then (s, false)
  else if buffer.getLast? ≠ some 0 then ({ s with mSkipToNextNullByte := true }, false)
  else ({ (buffer.foldl (scanByte c) (s, [])).1 with mSkipToNextNullByte := false }, true)

def readAll (s : Socket Client) (reads : List (Client × Text)) : Socket Client :=
  reads.foldl (fun s r => (onDataAvailable s r.1 r.2).1) s

/-- The complete commands in what was read. -/
def commandsIn (data : Text) : List Text := (data.splitOnP (· = 0)).dropLast

variable [DecidableEq Client]

def sentBy (a : Client) (reads : List (Client × Text)) : List Text :=
  (reads.filter (·.1 = a)).flatMap (commandsIn ·.2)

def dispatchedTo (a : Client) (calls : List (Client × Text)) : List Text :=
  (calls.filter (·.1 = a)).map (·.2)

variable {a c : Client} {s : Socket Client} {cur data : Text} {reads : List (Client × Text)}

omit [DecidableEq Client] in
/-- The loop dispatches the commands of the buffer, the first of them only if it does not skip. -/
theorem dispatched_scan (hcur : ∀ x ∈ cur, decide (x = 0) = false) :
    (data.foldl (scanByte c) (s, cur)).1.dispatched =
      s.dispatched ++ ((commandsIn (cur ++ data)).drop s.mSkipToNextNullByte.toNat).map (c, ·) := by
  unfold commandsIn
  induction data generalizing s cur with
  | nil => simp [List.splitOnP_eq_singleton hcur]
  | cons b data ih =>
    rw [List.foldl_cons]
    by_cases hb : b = 0
    · rw [List.splitOnP_append_cons_of_forall_mem hcur b (decide_eq_true hb),
        List.dropLast_cons_of_ne_nil (List.splitOnP_ne_nil _ data)]
      cases hskip : s.mSkipToNextNullByte
      · simp [scanByte, hb, hskip, ih]
      · simp [scanByte, hb, hskip, ih]
    · have hcur' : ∀ x ∈ cur ++ [b], decide (x = 0) = false := by
        simpa [or_imp, forall_and, hb] using hcur
      simp [scanByte, hb, ih hcur']

/-- What a read adds to the commands of a client whose reads are terminated. -/
theorem dispatchedTo_onDataAvailable (hr : c = a → data.getLast? = some 0) :
    dispatchedTo a (onDataAvailable s c data).1.dispatched = dispatchedTo a s.dispatched ++
      if c = a then (commandsIn data).drop s.mSkipToNextNullByte.toNat else [] := by
  have hcalls (cmds : List Text) :
      dispatchedTo a (s.dispatched ++ cmds.map (c, ·)) =
        dispatchedTo a s.dispatched ++ if c = a then cmds else [] := by
    by_cases h : c = a <;> simp [dispatchedTo, h, List.filter_map, Function.comp_def]
  by_cases hlast : data.getLast? = some 0
  · have hdata : data ≠ [] := by
      rintro rfl
      cases hlast
    simp [onDataAvailable, hlast, hdata, dispatched_scan, ← hcalls]
  · rw [if_neg (mt hr hlast), List.append_nil]
    by_cases hdata : data = [] <;> simp [onDataAvailable, hlast, hdata]

theorem commandsIn_ne_nil (h : data.getLast? = some 0) : commandsIn data ≠ [] := by
  obtain ⟨init, rfl⟩ := List.getLast?_eq_some_iff.mp h
  rw [commandsIn, List.splitOnP_append_cons init [] (decide_eq_true rfl), List.splitOnP_nil,
    List.dropLast_concat]
  exact List.splitOnP_ne_nil _ init

omit [DecidableEq Client] in
/-- The listener is to skip if the last data was not terminated. -/
theorem skip_readAll (l : Listener) :
    (readAll ⟨l, false, []⟩ reads).mSkipToNextNullByte = true ↔
      ∃ p ∈ (reads.filter (·.2 ≠ [])).getLast?, p.2.getLast? ≠ some 0 := by
  induction reads using List.reverseRecOn with
  | nil => simp [readAll]
  | append_singleton reads r ih =>
    rw [readAll, List.foldl_concat, ← readAll]
    by_cases hdata : r.2 = []
    · simpa [onDataAvailable, hdata] using ih
    · by_cases hlast : r.2.getLast? = some 0 <;> simp [onDataAvailable, hdata, hlast]

omit [DecidableEq Client] in
/-- Whatever the clients send, only complete commands of theirs are dispatched, each at most once and
in the order of the reads. -/
theorem dispatched_were_sent (l : Listener) (reads : List (Client × Text)) :
    (readAll ⟨l, false, []⟩ reads).dispatched.Sublist
      (reads.flatMap fun r => (commandsIn r.2).map (r.1, ·)) := by
  induction reads using List.reverseRecOn with
  | nil => exact .slnil
  | append_singleton reads r ih =>
    rw [readAll, List.foldl_concat, ← readAll, List.flatMap_append, List.flatMap_singleton]
    unfold onDataAvailable
    split_ifs
    · exact ih.trans (List.sublist_append_left _ _)
    · exact ih.trans (List.sublist_append_left _ _)
    · rw [dispatched_scan (by simp), List.nil_append]
      exact ih.append ((List.drop_sublist _ _).map _)

/-- When all reads of a client are commands, then all commands so far are dispatched once and in
order after every read exactly if no read of the client comes right behind data that is not
terminated. -/
theorem commands_dispatched_iff (l : Listener) (a : Client) (reads : List (Client × Text))
    (hreads : ∀ r ∈ reads, r.1 = a → r.2.getLast? = some 0) :
    (∀ done, done <+: reads →
        dispatchedTo a (readAll ⟨l, false, []⟩ done).dispatched = sentBy a done) ↔
      ∀ done r, done ++ [r] <+: reads → r.1 = a →
        ∀ p ∈ (done.filter (·.2 ≠ [])).getLast?, p.2.getLast? = some 0 := by
  have hstep (done : List (Client × Text)) (r : Client × Text) (h : done ++ [r] <+: reads) :
      dispatchedTo a (readAll ⟨l, false, []⟩ (done ++ [r])).dispatched =
        dispatchedTo a (readAll ⟨l, false, []⟩ done).dispatched ++ if r.1 = a then
          (commandsIn r.2).drop (readAll ⟨l, false, []⟩ done).mSkipToNextNullByte.toNat else [] := by
    rw [readAll, List.foldl_concat, ← readAll]
    exact dispatchedTo_onDataAvailable (hreads r (h.subset (by simp)))
  have hsent (done : List (Client × Text)) (r : Client × Text) :
      sentBy a (done ++ [r]) = sentBy a done ++ if r.1 = a then commandsIn r.2 else [] := by
    by_cases h : r.1 = a <;> simp [sentBy, h]
  constructor
  · intro h done r hdone hr p hp
    by_contra hend
    have hskip := (skip_readAll l).mpr ⟨p, hp, hend⟩
    have hpos := List.length_pos_of_ne_nil (commandsIn_ne_nil (hreads r (hdone.subset (by simp)) hr))
    have hall := h _ hdone
    rw [hstep _ r hdone, hsent, h done ((List.prefix_append done [r]).trans hdone), if_pos hr,
      if_pos hr, hskip] at hall
    have hlength := congrArg List.length (List.append_cancel_left hall)
    rw [List.length_drop, Bool.toNat_true] at hlength
    omega
  · intro h done
    induction done using List.reverseRecOn with
    | nil => exact fun _ => rfl
    | append_singleton done r ih =>
      intro hdone
      rw [hstep _ r hdone, hsent, ih ((List.prefix_append done [r]).trans hdone)]
      by_cases hr : r.1 = a
      · have hskip : (readAll ⟨l, false, []⟩ done).mSkipToNextNullByte = false := by
          rw [← Bool.not_eq_true, skip_readAll]
          rintro ⟨p, hp, hend⟩
          exact hend (h done r hdone hr p hp)
        rw [hskip, if_pos hr, if_pos hr, Bool.toNat_false, List.drop_zero]
      · rw [if_neg hr, if_neg hr]

/-- The first client sends a command, the second one a byte without a zero, and the first a command. -/
def disturbed : List (Bool × Text) := [(true, [97, 0]), (false, [98]), (true, [99, 0])]

/-- The second client leaves the first one alone when no other read follows. -/
theorem commands_dispatched_first :
    (∀ r ∈ disturbed.take 2, r.1 = true → r.2.getLast? = some 0) ∧
      ∀ done, done <+: disturbed.take 2 →
        dispatchedTo true (readAll ⟨⟨[], false, 0, 0⟩, false, []⟩ done).dispatched =
          sentBy true done := by
  refine ⟨by decide, (commands_dispatched_iff _ true _ (by decide)).mpr ?_⟩
  rintro done r ⟨rest, h⟩ hr p hp
  match done with
  | [] => cases hp
  | [x] =>
    obtain ⟨-, rfl, -⟩ : x = (true, [97, 0]) ∧ r = (false, [98]) ∧ rest = [] := by
      simpa [disturbed] using h
    cases hr
  | x :: y :: done => simp [disturbed] at h

theorem disturbed_loses_command :
    (∀ r ∈ disturbed, r.1 = true → r.2.getLast? = some 0) ∧
      dispatchedTo true (readAll ⟨⟨[], false, 0, 0⟩, false, []⟩ disturbed).dispatched = [[97]] ∧
      sentBy true disturbed = [[97], [99]] := by
  decide

end SystemCore.Libsysutils
