import Mathlib.Algebra.GroupWithZero.Nat
import Mathlib.Algebra.BigOperators.Group.List.Basic
import SystemCore.Logd.PruneSafety

/-!
# The statistics and the buffer

What the statistics say is what is in the list. Two steps of pruning can part them. A count
of dropped messages is merged into an element with the same key, and the key cuts the uid
down to 16 bits, so the count may go to another uid. And a message of no bytes may be dropped
when the table has no entry for its uid. Where messages are not empty, and where elements
with one key have one uid, every edit keeps the two together.
-/
namespace SystemCore.Logd

open LogBuffer Lib Lib.Runs LogBufferElement LogStatistics

/-! ## Tallies of a list

The sum of a measure over the members of a list that meet a condition. -/

section Tally

variable {α : Type*} (p : α → Bool) (g : α → Nat)

def tally (l : List α) : Nat := ((l.filter p).map g).sum

def share (a : α) : Nat := if p a then g a else 0

theorem tally_append (l l' : List α) : tally p g (l ++ l') = tally p g l + tally p g l' := by
  simp [tally]

theorem tally_cons (a : α) (l : List α) : tally p g (a :: l) = share p g a + tally p g l := by
  unfold tally share
  by_cases h : p a <;> simp [h]

theorem tally_middle (pre : List α) (a : α) (post : List α) :
    tally p g (pre ++ a :: post) = tally p g (pre ++ post) + share p g a := by
  rw [tally_append, tally_append, tally_cons]
  omega

theorem length_filter_eq_tally (l : List α) : (l.filter p).length = tally p (fun _ => 1) l := by
  simp [tally]

end Tally

/-! ## What the statistics are to say -/

variable {μ : Type} {held : LogBufferElement μ → Prop} {b b' : LogBuffer μ} {id : LogId}

def ofId (id : LogId) (e : LogBufferElement μ) : Bool := e.mLogId = id

def ofUid (id : LogId) (uid : UInt32) (e : LogBufferElement μ) : Bool :=
  e.mLogId = id ∧ e.mUid = uid

def msgLen (e : LogBufferElement μ) : Nat := e.getMsgLen.toNat

def dropCount (e : LogBufferElement μ) : Nat := e.getDropped.toNat

structure TracksList (s : LogStatistics) (l : List (LogBufferElement μ)) : Prop where
  elements : ∀ id, s.elements id = (l.filter (ofId id)).length
  sizes : ∀ id, s.sizes id = ((l.filter (ofId id)).map msgLen).sum
  uidSize : ∀ id uid, id ≠ .kernel →
    ((s.uidTable id).read uid).size = ((l.filter (ofUid id uid)).map msgLen).sum
  uidDropped : ∀ id uid, id ≠ .kernel →
    ((s.uidTable id).read uid).dropped = ((l.filter (ofUid id uid)).map dropCount).sum

def Tracks (b : LogBuffer μ) : Prop := TracksList b.stats b.mLogElements

/-! ## The calls of the statistics -/

section Calls

variable {s : LogStatistics} {pre post : List (LogBufferElement μ)} {e : LogBufferElement μ}

def entryOf (id : LogId) (uid : UInt32) (l : List (LogBufferElement μ)) : UidEntry :=
  ⟨tally (ofUid id uid) msgLen l, tally (ofUid id uid) dropCount l⟩

theorem tracksList_iff {l : List (LogBufferElement μ)} :
    TracksList s l ↔
      (∀ id, s.mElements id = tally (ofId id) (fun _ => 1) l) ∧
      (∀ id, s.mSizes id = tally (ofId id) msgLen l) ∧
      ∀ id uid, id ≠ .kernel → (s.uidTable id).read uid = entryOf id uid l := by
  constructor
  · intro h
    refine ⟨fun id => (h.elements id).trans (length_filter_eq_tally _ l), h.sizes,
      fun id uid hid => ?_⟩
    exact congrArg₂ UidEntry.mk (h.uidSize id uid hid) (h.uidDropped id uid hid)
  · intro ⟨h1, h2, h3⟩
    refine ⟨fun id => (h1 id).trans (length_filter_eq_tally _ l).symm, h2, fun id uid hid => ?_,
      fun id uid hid => ?_⟩
    · exact congrArg UidEntry.size (h3 id uid hid)
    · exact congrArg UidEntry.dropped (h3 id uid hid)

theorem tally_ofId_middle (id : LogId) (g : LogBufferElement μ → Nat)
    (pre : List (LogBufferElement μ)) (e : LogBufferElement μ)
    (post : List (LogBufferElement μ)) :
    tally (ofId id) g (pre ++ e :: post) =
      if id = e.mLogId then tally (ofId id) g (pre ++ post) + g e
      else tally (ofId id) g (pre ++ post) := by
  rw [tally_middle]
  unfold share ofId
  by_cases h : id = e.mLogId
  · simp [h]
  · simp [h, Ne.symm h]

theorem entryOf_middle (id : LogId) (uid : UInt32) (pre : List (LogBufferElement μ))
    (e : LogBufferElement μ) (post : List (LogBufferElement μ)) :
    entryOf id uid (pre ++ e :: post) =
      if id = e.mLogId ∧ uid = e.mUid then (entryOf id uid (pre ++ post)).add e
      else entryOf id uid (pre ++ post) := by
  unfold entryOf
  rw [tally_middle, tally_middle]
  unfold share ofUid
  by_cases h : id = e.mLogId ∧ uid = e.mUid
  · simp [h, UidEntry.add, msgLen, dropCount]
  · have h' : ¬ (e.mLogId = id ∧ e.mUid = uid) := fun h' => h ⟨h'.1.symm, h'.2.symm⟩
    simp [h, h']

theorem TracksList.add (h : TracksList s (pre ++ post)) (e : LogBufferElement μ) :
    TracksList (s.add e) (pre ++ e :: post) := by
  rw [tracksList_iff] at h ⊢
  obtain ⟨h1, h2, h3⟩ := h
  refine ⟨fun id => ?_, fun id => ?_, fun id uid hid => ?_⟩
  · rw [tally_ofId_middle, add_mElements, h1]
  · rw [tally_ofId_middle, add_mSizes, h2]
    rfl
  · rw [entryOf_middle, add_uidTable s e hid, ← h3 id uid hid]
    by_cases hk : id = e.mLogId
    · rw [if_pos hk, UidTable.read_add]
      by_cases hu : uid = e.mUid
      · rw [if_pos hu, if_pos ⟨hk, hu⟩, hu]
      · rw [if_neg hu, if_neg fun h' => hu h'.2]
    · rw [if_neg hk, if_neg fun h' => hk h'.1]

theorem TracksList.subtract (h : TracksList s (pre ++ e :: post)) :
    TracksList (s.subtract e) (pre ++ post) := by
  rw [tracksList_iff] at h ⊢
  obtain ⟨h1, h2, h3⟩ := h
  refine ⟨fun id => ?_, fun id => ?_, fun id uid hid => ?_⟩
  · rw [subtract_mElements]
    exact subSize_share ((h1 id).trans (tally_ofId_middle id _ pre e post))
  · rw [subtract_mSizes]
    exact subSize_share ((h2 id).trans (tally_ofId_middle id _ pre e post))
  · have hread := h3 id uid hid
    rw [entryOf_middle] at hread
    rw [subtract_uidTable s e hid]
    by_cases hk : id = e.mLogId
    · rw [if_pos hk]
      have hself := h3 id e.mUid hid
      rw [entryOf_middle, if_pos ⟨hk, rfl⟩] at hself
      rw [UidTable.read_subtract]
      · by_cases hu : uid = e.mUid
        · rw [if_pos hu, hself, hu]
          simp [UidEntry.add]
        · rw [if_neg hu, hread, if_neg fun h' => hu h'.2]
      · rw [hself]
        exact Nat.le_add_left _ _
      · rw [hself]
        exact Nat.le_add_left _ _
    · rw [if_neg hk, hread, if_neg fun h' => hk h'.1]

/-- A message is dropped whose uid has an entry. -/
theorem TracksList.drop (h : TracksList s (pre ++ e :: post)) (hlen : e.getMsgLen ≠ 0)
    (hdropped : e.getDropped = 0) :
    TracksList (s.drop e) (pre ++ e.setDropped 1 :: post) := by
  have hpos : 0 < e.getMsgLen.toNat := Nat.pos_of_ne_zero fun h0 => hlen (UInt16.toNat_inj.mp h0)
  rw [tracksList_iff] at h ⊢
  obtain ⟨h1, h2, h3⟩ := h
  refine ⟨fun id => ?_, fun id => ?_, fun id uid hid => ?_⟩
  · rw [tally_ofId_middle]
    exact (h1 id).trans (tally_ofId_middle id _ pre e post)
  · have hsize := subSize_share ((h2 id).trans (tally_ofId_middle id _ pre e post))
    rw [tally_ofId_middle, drop_mSizes, ← hsize, msgLen, msgLen]
    simp
  · have hread := h3 id uid hid
    rw [entryOf_middle] at hread
    rw [entryOf_middle, drop_uidTable, mLogId_setDropped,
      mUid_setDropped]
    by_cases hk : id = e.mLogId
    · rw [if_pos hk]
      have hself := h3 id e.mUid hid
      rw [entryOf_middle, if_pos ⟨hk, rfl⟩] at hself
      rw [UidTable.read_drop (by rw [hself]; exact Nat.le_add_left _ _) hpos]
      by_cases hu : uid = e.mUid
      · rw [if_pos hu, hself, if_pos ⟨hk, hu⟩, hu]
        simp [UidEntry.add, hdropped]
      · rw [if_neg hu, hread, if_neg fun h' => hu h'.2, if_neg fun h' => hu h'.2]
    · rw [if_neg hk, hread, if_neg fun h' => hk h'.1, if_neg fun h' => hk h'.1]

/-- A count goes into the element of another with the same log id and uid. -/
theorem TracksList.merge {mid : List (LogBufferElement μ)} {l : LogBufferElement μ}
    (h : TracksList s (pre ++ l :: (mid ++ e :: post))) (hl : l.mMsg = none) (he : e.mMsg = none)
    (hid : l.mLogId = e.mLogId) (huid : l.mUid = e.mUid)
    (hfit : e.getDropped.toNat + l.getDropped.toNat ≤ 65535) :
    TracksList (s.erase e)
      (pre ++ l.setDropped (e.getDropped + l.getDropped) :: (mid ++ post)) := by
  have hsum : (e.getDropped + l.getDropped).toNat = e.getDropped.toNat + l.getDropped.toNat := by
    rw [UInt16.toNat_add]
    omega
  have hassoc : ∀ l' : List (LogBufferElement μ), pre ++ (mid ++ l') = (pre ++ mid) ++ l' :=
    fun l' => (List.append_assoc pre mid l').symm
  rw [tracksList_iff] at h ⊢
  obtain ⟨h1, h2, h3⟩ := h
  refine ⟨fun id => ?_, fun id => ?_, fun id uid hker => ?_⟩
  · have hcount := h1 id
    rw [tally_ofId_middle, hassoc, tally_ofId_middle, hid] at hcount
    rw [tally_ofId_middle, hassoc, erase_mElements, mLogId_setDropped,
      hid]
    split
    case isTrue hk =>
      rw [if_pos hk, if_pos hk] at hcount
      rw [hcount, subSize_of_le (Nat.le_add_left _ _), Nat.add_sub_cancel]
    case isFalse hk => rwa [if_neg hk, if_neg hk] at hcount
  · have hsize := h2 id
    rw [tally_ofId_middle, hassoc, tally_ofId_middle, hid] at hsize
    rw [tally_ofId_middle, hassoc, mLogId_setDropped, hid]
    simp only [msgLen, getMsgLen_of_none hl, getMsgLen_of_none he,
      getMsgLen_setDropped, UInt16.toNat_zero, Nat.add_zero, ite_self]
      at hsize ⊢
    exact hsize
  · have hread := h3 id uid hker
    rw [entryOf_middle, hassoc, entryOf_middle, hid, huid] at hread
    rw [entryOf_middle, hassoc, mLogId_setDropped,
      mUid_setDropped, hid, huid]
    refine Eq.trans hread ?_
    split
    case isTrue hk =>
      simp only [UidEntry.add, getMsgLen_of_none hl,
        getMsgLen_of_none he, getMsgLen_setDropped,
        getDropped_setDropped, hsum, Nat.add_assoc, UInt16.toNat_zero]
    case isFalse => rfl

end Calls

/-! ## Edits -/

/-- Messages are not empty, and elements of one log id with one key have one uid. -/
structure Told (l : List (LogBufferElement μ)) : Prop where
  nonempty : ∀ e ∈ l, e.getDropped = 0 → e.getMsgLen ≠ 0
  uid_eq : ∀ e ∈ l, ∀ e' ∈ l, e.mLogId = e'.mLogId → e.key = e'.key → e.mUid = e'.mUid

theorem Told.of_mem {l l' : List (LogBufferElement μ)} (h : Told l)
    (hsub : ∀ x ∈ l', x ∈ l ∨ ∃ y ∈ l, ∃ value, value ≠ 0 ∧ x = y.setDropped value) : Told l' := by
  refine ⟨fun x hx h0 => ?_, fun x hx x' hx' hid hkey => ?_⟩
  · rcases hsub x hx with hx | ⟨y, -, value, hne, rfl⟩
    · exact h.nonempty x hx h0
    · exact absurd h0 hne
  · have hcopy : ∀ x ∈ l', ∃ y ∈ l, y.mLogId = x.mLogId ∧ y.key = x.key ∧ y.mUid = x.mUid := by
      intro x hx
      rcases hsub x hx with hx | ⟨y, hy, value, -, rfl⟩
      · exact ⟨x, hx, rfl, rfl, rfl⟩
      · exact ⟨y, hy, rfl, rfl, rfl⟩
    obtain ⟨y, hy, hyid, hykey, hyuid⟩ := hcopy x hx
    obtain ⟨y', hy', hyid', hykey', hyuid'⟩ := hcopy x' hx'
    rw [← hyuid, ← hyuid']
    exact h.uid_eq y hy y' hy' (by rw [hyid, hyid', hid]) (by rw [hykey, hykey', hkey])

theorem erase_stats (b : LogBuffer μ) (e : LogBufferElement μ) (s : Bool) :
    (b.erase e s).stats = if s then b.stats.subtract e else b.stats.erase e := by
  unfold LogBuffer.erase
  by_cases h : b.mLastWorstUid e.mLogId e.mUid = some e.addr
  · simp only [if_pos h]
    rfl
  · simp only [if_neg h]

/-- A count that comes from two is not zero. -/
theorem merged_ne_zero {l e : LogBufferElement μ} (hl : l.getDropped ≠ 0)
    (hfit : e.getDropped.toNat + l.getDropped.toNat ≤ 65535) :
    e.getDropped + l.getDropped ≠ 0 := by
  intro h
  have hpos : l.getDropped.toNat ≠ 0 := fun h0 => hl (UInt16.toNat_inj.mp h0)
  have := congrArg UInt16.toNat h
  rw [UInt16.toNat_add, UInt16.toNat_zero] at this
  omega

theorem LogBuffer.Edit.tracks (h : Edit id held b b') (hb : Tracks b ∧ Told b.mLogElements) :
    Tracks b' ∧ Told b'.mLogElements := by
  obtain ⟨htracks, htold⟩ := hb
  unfold Tracks at htracks ⊢
  cases h with
  | @erase e pre post hsplit hid hheld =>
    rw [erase_stats, erase_mLogElements]
    rw [hsplit] at htracks htold
    refine ⟨htracks.subtract, htold.of_mem fun x hx => .inl ?_⟩
    exact (List.Sublist.append_left (List.sublist_cons_self e post) pre).mem hx
  | @merge l e pre mid post hsplit hl he hkey hfit =>
    rw [erase_stats, erase_mLogElements]
    rw [hsplit] at htracks htold
    have hlmem : l ∈ pre ++ l :: (mid ++ e :: post) := by simp
    have hemem : e ∈ pre ++ l :: (mid ++ e :: post) := by simp
    have huid := htold.uid_eq l hlmem e hemem (hl.1.trans he.1.symm) hkey
    have hldrop : l.getDropped ≠ 0 := fun h0 =>
      htold.nonempty l hlmem h0 (getMsgLen_of_none hl.2.2)
    refine ⟨htracks.merge hl.2.2 he.2.2 (hl.1.trans he.1.symm) huid hfit, htold.of_mem fun x hx => ?_⟩
    simp only [setElements, List.mem_append, List.mem_cons] at hx
    rcases hx with hx | rfl | hx | hx
    · exact .inl (by simp [hx])
    · exact .inr ⟨l, hlmem, _, merged_ne_zero hldrop hfit, rfl⟩
    · exact .inl (by simp [hx])
    · exact .inl (by simp [hx])
  | @drop e pre post hsplit hid hheld hdropped =>
    rw [hsplit] at htracks htold
    have hemem : e ∈ pre ++ e :: post := by simp
    refine ⟨htracks.drop (htold.nonempty e hemem hdropped) hdropped, htold.of_mem fun x hx => ?_⟩
    simp only [setElements, List.mem_append, List.mem_cons] at hx
    rcases hx with hx | rfl | hx
    · exact .inl (by simp [hx])
    · exact .inr ⟨e, hemem, 1, by decide, rfl⟩
    · exact .inl (by simp [hx])
  | mark => exact ⟨htracks, htold⟩
  | readers => exact ⟨htracks, htold⟩

/-! ## Runs -/

def LogBuffer.LogCall.key (call : LogCall μ) : ElementKey :=
  ⟨call.uid.toUInt16, call.pid.toUInt32.toUInt16, call.tid.toUInt32.toUInt16⟩

/-- A message that the statistics can follow: it is not empty, and no element of its log id
has its key and another uid. -/
def Trackable (b : LogBuffer μ) : Request μ → Prop
  | .log _ logId loggable call => ∀ id ∈ LogId.ofInt logId, loggable = true →
      call.len ≠ 0 ∧ ∀ e ∈ b.mLogElements, e.mLogId = id → e.key = call.key → e.mUid = call.uid
  | _ => True

instance (b : LogBuffer μ) : (r : Request μ) → Decidable (Trackable b r)
  | .log _ _ _ _ => inferInstanceAs (Decidable (∀ _ ∈ _, _ → _))
  | .prune _ _ _ _ | .maybePrune _ _ | .clear _ _ _ | .setSize _ | .setPrune _ | .setReaders _ =>
    inferInstanceAs (Decidable True)

structure Sound (b : LogBuffer μ) : Prop where
  wellFormed : WellFormed b
  tracks : Tracks b
  told : Told b.mLogElements

theorem LogBuffer.Edits.sound (h : Edits id held b b') (hb : Sound b) : Sound b' := by
  have hkeep := h.keeps (P := fun b => Tracks b ∧ Told b.mLogElements)
    (fun _ _ hedit => hedit.tracks) ⟨hb.tracks, hb.told⟩
  exact ⟨h.wellFormed hb.wellFormed, hkeep.1, hkeep.2⟩

theorem keeps_sound : Keeps (Sound (μ := μ)) where
  valid h := h.wellFormed.valid
  edits hedits h := hedits.sound h
  settings _ _ _ h := ⟨keeps_wellFormed.settings _ _ _ h.wellFormed, h.tracks, h.told⟩

theorem Told.insert {before later : List (LogBufferElement μ)} {elem : LogBufferElement μ}
    (h : Told (before ++ later)) (hlen : elem.getMsgLen ≠ 0)
    (huid : ∀ e ∈ before ++ later, e.mLogId = elem.mLogId → e.key = elem.key → e.mUid = elem.mUid) :
    Told (before ++ elem :: later) := by
  have hmem : ∀ x ∈ before ++ elem :: later, x = elem ∨ x ∈ before ++ later := by
    intro x hx
    simp only [List.mem_append, List.mem_cons] at hx ⊢
    tauto
  refine ⟨fun x hx h0 => ?_, fun x hx x' hx' hid hkey => ?_⟩
  · rcases hmem x hx with rfl | hx
    · exact hlen
    · exact h.nonempty x hx h0
  · rcases hmem x hx with rfl | hx₁ <;> rcases hmem x' hx' with rfl | hx₁'
    · rfl
    · exact (huid x' hx₁' hid.symm hkey.symm).symm
    · exact huid x hx₁ hid hkey
    · exact h.uid_eq x hx₁ x' hx₁' hid hkey

/-- A message that can be followed comes in. -/
theorem insert_sound (elem : LogBufferElement μ) (hvalid : Valid b) (htracks : Tracks b)
    (htold : Told b.mLogElements) (hfresh : ∀ x ∈ b.mLogElements, x.addr < elem.addr)
    (haddr : elem.addr < b.nextAddr) (hlen : elem.getMsgLen ≠ 0)
    (huid : ∀ e ∈ b.mLogElements, e.mLogId = elem.mLogId → e.key = elem.key → e.mUid = elem.mUid) :
    Sound { b.insert elem with stats := (b.insert elem).stats.add elem } := by
  have hw := insert_wellFormed elem hvalid hfresh haddr
  obtain ⟨before, later, hsplit, hinsert⟩ := insert_spec elem b
  have htracks' : TracksList b.stats (before ++ later) := hsplit ▸ htracks
  rw [hinsert] at hw ⊢
  exact ⟨⟨⟨hw.valid.distinct, hw.valid.marks⟩, hw.addr_lt⟩, htracks'.add elem,
    Told.insert (hsplit ▸ htold) hlen (hsplit ▸ huid)⟩

theorem arrived_sound (hb : Sound b) (env : Env μ) (logId : Int) (loggable : Bool)
    (call : LogCall μ) (hcall : Trackable b (.log env logId loggable call)) (id : LogId)
    (hid : LogId.ofInt logId = some id) : Sound (b.arrived loggable id call) := by
  have hvalid := hb.wellFormed.valid
  cases loggable with
  | true =>
    obtain ⟨hlen, huid⟩ := hcall id hid rfl
    exact insert_sound (b := (b.construct id call).2) (b.construct id call).1
      ⟨hvalid.distinct, hvalid.marks⟩ hb.tracks hb.told hb.wellFormed.addr_lt
      (Nat.lt_succ_self _) hlen huid
  | false =>
    have htracks : TracksList b.stats (b.mLogElements ++ []) := by
      rw [List.append_nil]
      exact hb.tracks
    have hsub := (htracks.add (b.construct id call).1).subtract
    rw [List.append_nil] at hsub
    exact ⟨arrived_wellFormed hb.wellFormed false id call, hsub, hb.told⟩

theorem step_sound (hb : Sound b) (r : Request μ) (hr : Trackable b r) :
    ∃ b', b.step r = .ok b' ∧ Sound b' := by
  refine keeps_sound.step hb r fun env logId loggable call heq id hid => ?_
  exact arrived_sound hb env logId loggable call (heq ▸ hr) id hid

theorem init_sound (mMaxSize : LogId → Nat) : Sound (LogBuffer.init mMaxSize : LogBuffer μ) where
  wellFormed := init_wellFormed mMaxSize
  tracks := ⟨fun _ => rfl, fun _ => rfl, fun _ _ _ => rfl, fun _ _ _ => rfl⟩
  told := ⟨fun _ h => absurd h List.not_mem_nil, fun _ h => absurd h List.not_mem_nil⟩

/-- Where every message that comes in can be followed, the statistics are those of the list in
every state. -/
theorem statistics_track (mMaxSize : LogId → Nat) (requests : List (Request μ))
    (h : Along LogBuffer.step Trackable (LogBuffer.init mMaxSize) requests) :
    (∃ b, run LogBuffer.step (LogBuffer.init mMaxSize) requests = .ok b) ∧
      Throughout LogBuffer.step Tracks (LogBuffer.init mMaxSize) requests := by
  obtain ⟨hrun, hthrough, -⟩ := served_of_along (R := fun _ _ _ => True)
    (fun b r hb hr => by
      obtain ⟨b', hb', hsound⟩ := step_sound hb r hr
      exact ⟨b', hb', hsound, trivial⟩)
    requests (LogBuffer.init mMaxSize) (init_sound mMaxSize) h
  exact ⟨hrun, hthrough.imp fun _ hs => hs.tracks⟩

def message (uid : UInt32) (pid : Int32) (len : UInt16) : Request Unit :=
  .log plainEnv 0 true ⟨⟨0, 0⟩, uid, pid, pid, (), len⟩

/-- Two chatty uids with the same low 16 bits, one of them with messages of process 700, the
other with messages of process `pid`. The last two messages overflow the buffer. -/
def twoChattyUids (pid : Int32) : List (Request Unit) :=
  [message 1000 1 3000, message 13392 700 3000, message 210000 pid 3100]
    ++ List.replicate 4 (message 13392 701 3000) ++ List.replicate 4 (message 210000 703 3100)
    ++ (List.range 12).map fun i => message (UInt32.ofNat (20000 + i)) 900 3000

/-- The uid with the longest message, which is the first, has an empty one too. -/
def emptyMessage : List (Request Unit) :=
  [message 10001 1 10000, message 1000 1 2000, message 10001 1 0]
    ++ (List.range 28).map fun i => message (UInt32.ofNat (20000 + i)) 900 2000

theorem statistics_track_chatty :
    (∃ b, run LogBuffer.step (LogBuffer.init fun _ => 65536) (twoChattyUids 702) = .ok b) ∧
      Throughout LogBuffer.step Tracks (LogBuffer.init fun _ => 65536) (twoChattyUids 702) :=
  statistics_track (fun _ => 65536) (twoChattyUids 702) (by decide +kernel)

/-- The count of a uid in the table and in the list, at the end of a run. -/
def dropCounts (uid : UInt32) (requests : List (Request Unit)) : Option (Nat × Nat) :=
  (run LogBuffer.step (LogBuffer.init fun _ => 65536) requests).toOption.map fun b =>
    (((b.stats.uidTable .main).read uid).dropped,
      ((b.mLogElements.filter (ofUid .main uid)).map dropCount).sum)

theorem not_tracks_of_dropCounts {uid : UInt32} {requests : List (Request Unit)} {x y : Nat}
    (h : dropCounts uid requests = some (x, y)) (hne : x ≠ y) :
    ∃ b, run LogBuffer.step (LogBuffer.init fun _ => 65536) requests = .ok b ∧ ¬ Tracks b := by
  unfold dropCounts at h
  cases hrun : run LogBuffer.step (LogBuffer.init fun _ => 65536) requests with
  | error f => rw [hrun] at h; cases h
  | ok b =>
    rw [hrun] at h
    obtain ⟨rfl, rfl⟩ := Prod.mk.inj (Option.some.inj h)
    exact ⟨b, rfl, fun ht => hne (ht.uidDropped .main uid (by decide))⟩

/-- With process 700 again, the second uid's count is merged into the first's. And a count of
one for an empty message goes into no entry. -/
theorem statistics_part :
    (∃ b, run LogBuffer.step (LogBuffer.init fun _ => 65536) (twoChattyUids 700) = .ok b ∧
      ¬ Tracks b) ∧
    ∃ b, run LogBuffer.step (LogBuffer.init fun _ => 65536) emptyMessage = .ok b ∧ ¬ Tracks b := by
  have hmerged : dropCounts 13392 (twoChattyUids 700) = some (1, 2) := by decide +kernel
  have hempty : dropCounts 10001 emptyMessage = some (0, 1) := by decide +kernel
  exact ⟨not_tracks_of_dropCounts hmerged (by decide), not_tracks_of_dropCounts hempty (by decide)⟩

end SystemCore.Logd
