import SystemCore.Lib.Runs
import SystemCore.Logd.PruneEdits

/-!
# Readers and watermarks

Two promises of the buffer. Pruning leaves alone what a reader may still have to read, and
every watermark is at an element of its log id and uid, in every state that the calls can
reach, so that a search may go on from it.
-/
namespace SystemCore.Logd

open LogBuffer Lib.Runs List

variable {μ : Type}

/-! ## The region that readers hold -/

/-- Addresses tell the elements apart and the watermarks are at elements. -/
structure ValidBuffer (μ : Type) extends LogBuffer μ where
  valid : Valid toLogBuffer

/-- The smallest `mStart` among the owned readers that watch `id`. -/
def LogBuffer.regionStart (id : LogId) (b : LogBuffer μ) : Option Nat :=
  ((b.mTimes.filter fun t => t.owned && t.isWatching id).map (·.mStart)).min?

theorem oldestLoop_spec (id : LogId) (n : Nat) (times : List LogTimeEntry) (i : Nat)
    (oldest : Option (Nat × LogTimeEntry)) :
    (∃ o ∈ LogTimeEntry.oldestLoop id times i oldest, o.2.mStart ≤ n) ↔
      (∃ o ∈ oldest, o.2.mStart ≤ n) ∨
        ∃ t ∈ times, (t.owned && t.isWatching id) = true ∧ t.mStart ≤ n := by
  induction times generalizing i oldest with
  | nil => simp [LogTimeEntry.oldestLoop]
  | cons t times ih =>
    unfold LogTimeEntry.oldestLoop
    rw [exists_mem_cons_iff]
    split
    case isTrue h =>
      obtain ⟨howned, hwatch, hlt⟩ := h
      rw [ih]
      constructor
      · rintro (⟨o, ho, hle⟩ | hrest)
        · obtain rfl := Option.some.inj ho
          exact .inr (.inl ⟨by rw [howned, hwatch]; rfl, hle⟩)
        · exact .inr (.inr hrest)
      · rintro (⟨o, ho, hle⟩ | ⟨-, hle⟩ | hrest)
        · exact .inl ⟨(i, t), rfl, Nat.le_trans (Nat.le_of_lt (hlt o ho)) hle⟩
        · exact .inl ⟨(i, t), rfl, hle⟩
        · exact .inr hrest
    case isFalse h =>
      rw [ih]
      constructor
      · rintro (ho | hrest)
        · exact .inl ho
        · exact .inr (.inr hrest)
      · rintro (ho | ⟨hwatch, hle⟩ | hrest)
        · exact .inl ho
        · -- the reader was not taken since an earlier one starts no later
          rw [Bool.and_eq_true] at hwatch
          simp only [not_and, not_forall] at h
          obtain ⟨o, ho, hge⟩ := h hwatch.1 hwatch.2
          exact .inl ⟨o, ho, by omega⟩
        · exact .inr hrest

theorem exists_min_le_iff (l : List Nat) (n : Nat) : (∃ m ∈ l.min?, m ≤ n) ↔ ∃ m ∈ l, m ≤ n := by
  constructor
  · rintro ⟨m, hm, hle⟩
    exact ⟨m, (List.min?_eq_some_iff.mp hm).1, hle⟩
  · rintro ⟨m, hm, hle⟩
    cases hmin : l.min? with
    | none => rw [List.min?_eq_none_iff.mp hmin] at hm; cases hm
    | some k => exact ⟨k, rfl, Nat.le_trans ((List.min?_eq_some_iff.mp hmin).2 m hm) hle⟩

theorem locked_oldest_iff (b : LogBuffer μ) (id : LogId) (e : LogBufferElement μ) :
    locked (b.oldest id) e ↔ ∃ m ∈ b.regionStart id, m ≤ e.mSequence := by
  unfold locked oldest regionStart
  rw [oldestLoop_spec, exists_min_le_iff]
  simp [and_assoc]

/-- The elements that pruning of `id` has to leave alone. -/
def LogBuffer.untouchable (id : LogId) (b : LogBuffer μ) (e : LogBufferElement μ) : Prop :=
  e.mLogId ≠ id ∨ ∃ m ∈ b.regionStart id, m ≤ e.mSequence

instance (id : LogId) (b : LogBuffer μ) (e : LogBufferElement μ) :
    Decidable (b.untouchable id e) :=
  inferInstanceAs (Decidable (_ ∨ _))

variable {held : LogBufferElement μ → Prop} {b' b : LogBuffer μ} {id : LogId}

/-- An edit leaves the elements of the other log ids and those that are held as they are. -/
theorem LogBuffer.Edit.filter_eq (h : Edit id held b b') (f : LogBufferElement μ → Bool)
    (hf : ∀ e, e.mLogId = id → ¬ held e → f e = false)
    (hset : ∀ e value, f e = false → f (e.setDropped value) = false) :
    b'.mLogElements.filter f = b.mLogElements.filter f := by
  cases h with
  | erase hb hid hheld => simp [hb, setElements, hf _ hid hheld]
  | merge hb hl he =>
    have hl' := hf _ hl.1 hl.2.1
    simp [hb, setElements, hl', hset _ _ hl', hf _ he.1 he.2.1]
  | drop hb hid hheld =>
    have he' := hf _ hid hheld
    simp [hb, setElements, he', hset _ _ he']
  | mark => rfl
  | readers => rfl

/-- Pruning ends, and neither erases nor changes an element of another log id, or one from
the start of the region that the readers of the log id hold on. -/
theorem prune_region_locked (b : ValidBuffer μ) (env : Env μ) (id : LogId) (pruneRows : Nat)
    (callerUid : UInt32) :
    ∃ b', b.prune env id pruneRows callerUid = .ok b' ∧
      b'.mLogElements.filter (fun e => b.untouchable id e) =
        b.mLogElements.filter (fun e => b.untouchable id e) := by
  obtain ⟨b', hb', hedits⟩ := prune_spec id env pruneRows callerUid b.valid
  refine ⟨b', hb', ?_⟩
  refine hedits.keeps (P := fun b' => b'.mLogElements.filter (fun e => b.untouchable id e) =
    b.mLogElements.filter (fun e => b.untouchable id e)) (fun b₁ b₂ hedit h => ?_) rfl
  rw [← h]
  refine hedit.filter_eq (fun e => b.untouchable id e) (fun e hid hheld => ?_) fun e value he => he
  rw [decide_eq_false_iff_not, untouchable, ← locked_oldest_iff]
  exact not_or.mpr ⟨not_not.mpr hid, hheld⟩

/-! ## Runs -/

/-- The addresses in use are below those that are still to be given out. -/
structure WellFormed (b : LogBuffer μ) : Prop where
  valid : Valid b
  addr_lt : ∀ e ∈ b.mLogElements, e.addr < b.nextAddr

theorem LogBuffer.Edit.nextAddr_eq (h : Edit id held b b') : b'.nextAddr = b.nextAddr := by
  have herase : ∀ (b : LogBuffer μ) e s, (b.erase e s).nextAddr = b.nextAddr := by
    intro b e s
    unfold LogBuffer.erase
    simp only []
    split <;> rfl
  cases h with
  | erase => exact herase _ _ _
  | merge => exact herase _ _ _
  | drop => rfl
  | mark => rfl
  | readers => rfl

theorem LogBuffer.Edits.wellFormed (h : Edits id held b b') (hb : WellFormed b) :
    WellFormed b' := by
  refine ⟨h.valid hb.valid, h.keeps (P := fun b => ∀ e ∈ b.mLogElements, e.addr < b.nextAddr)
    (fun b₁ b₂ hedit h₁ e he => ?_) hb.addr_lt⟩
  obtain ⟨e₁, he₁, haddr⟩ := mem_map.mp
    (hedit.addrs_sublist.mem (mem_map_of_mem (f := (·.addr)) he))
  rw [hedit.nextAddr_eq, ← haddr]
  exact h₁ e₁ he₁

theorem insertPoint_append (realtime : LogTime) (l : List (LogBufferElement μ)) :
    (insertPoint realtime l).1 ++ (insertPoint realtime l).2 = l := by
  induction l with
  | nil => rfl
  | cons e l ih =>
    unfold insertPoint
    simp only []
    split
    case isTrue h =>
      rw [isEmpty_iff.mp h.1, nil_append] at ih
      rw [nil_append, ih]
    case isFalse => rw [cons_append, ih]

theorem insert_spec (elem : LogBufferElement μ) (b : LogBuffer μ) :
    ∃ before later, b.mLogElements = before ++ later ∧
      b.insert elem = b.setElements (before ++ elem :: later) := by
  have happend := insertPoint_append elem.mRealTime b.mLogElements
  have hend : b.mLogElements = b.mLogElements ++ [] := (append_nil _).symm
  unfold LogBuffer.insert
  split
  case h_1 => exact ⟨_, _, hend, rfl⟩
  case h_2 before last later hpoint =>
    simp only []
    split
    · exact ⟨_, _, hend, rfl⟩
    · rw [hpoint] at happend
      exact ⟨before, last :: later, happend.symm, rfl⟩

theorem insert_wellFormed (elem : LogBufferElement μ) (hb : Valid b)
    (hfresh : ∀ x ∈ b.mLogElements, x.addr < elem.addr) (haddr : elem.addr < b.nextAddr) :
    WellFormed (b.insert elem) := by
  obtain ⟨before, later, hsplit, hinsert⟩ := insert_spec elem b
  have hmem : ∀ x, x ∈ before ++ elem :: later ↔ x = elem ∨ x ∈ b.mLogElements := by
    intro x
    rw [hsplit]
    simp only [mem_append, mem_cons]
    tauto
  rw [hinsert]
  refine ⟨⟨?_, fun id uid addr hmark => ?_⟩, fun x hx => ?_⟩
  · have hperm : (before ++ elem :: later).Perm (elem :: b.mLogElements) := by
      rw [hsplit]
      exact perm_middle
    refine ((hperm.map (·.addr)).nodup_iff).mpr ?_
    rw [map_cons, nodup_cons]
    refine ⟨fun h => ?_, hb.distinct⟩
    obtain ⟨x, hx, hxa⟩ := mem_map.mp h
    exact absurd (hfresh x hx) (hxa ▸ Nat.lt_irrefl _)
  · obtain ⟨x, hx, hrest⟩ := hb.marks id uid addr hmark
    exact ⟨x, (hmem x).mpr (.inr hx), hrest⟩
  · rcases (hmem x).mp hx with rfl | hx
    · exact haddr
    · exact Nat.lt_trans (hfresh x hx) haddr

/-! ### What every request keeps -/

/-- The buffer with a new message, before anything is pruned for it. -/
def LogBuffer.arrived (loggable : Bool) (id : LogId) (call : LogCall μ) (b : LogBuffer μ) :
    LogBuffer μ :=
  let (elem, b) := b.construct id call
  if loggable then { b.insert elem with stats := (b.insert elem).stats.add elem }
  else { b with stats := (b.stats.add elem).subtract elem }

/-- A fact about the list, the statistics and the marks that the edits of pruning keep. -/
structure Keeps (Q : LogBuffer μ → Prop) : Prop where
  valid : ∀ {b}, Q b → Valid b
  edits : ∀ {id held b b'}, LogBuffer.Edits id held b b' → Q b → Q b'
  settings : ∀ {b : LogBuffer μ} (mMaxSize : LogId → Nat) (mPrune : PruneList)
    (mTimes : List LogTimeEntry), Q b → Q { b with mMaxSize, mPrune, mTimes }

namespace Keeps

variable {Q : LogBuffer μ → Prop} {b : LogBuffer μ}

theorem prune (h : Keeps Q) (hb : Q b) (env : Env μ) (id : LogId) (pruneRows : Nat)
    (callerUid : UInt32) : ∃ b', b.prune env id pruneRows callerUid = .ok b' ∧ Q b' := by
  obtain ⟨b', hb', hedits⟩ := prune_spec id env pruneRows callerUid (h.valid hb)
  exact ⟨b', hb', h.edits hedits hb⟩

theorem maybePrune (h : Keeps Q) (hb : Q b) (env : Env μ) (id : LogId) :
    ∃ b', b.maybePrune env id = .ok b' ∧ Q b' := by
  unfold LogBuffer.maybePrune
  simp only []
  split
  case isTrue => exact h.prune hb env id _ _
  case isFalse => exact ⟨b, rfl, hb⟩

theorem log (h : Keeps Q) (hb : Q b) (env : Env μ) (logId : Int) (loggable : Bool)
    (call : LogCall μ)
    (harrived : ∀ id, LogId.ofInt logId = some id → Q (b.arrived loggable id call)) :
    ∃ r b', b.log env logId loggable call = .ok (r, b') ∧ Q b' := by
  unfold LogBuffer.log
  split
  case h_1 => exact ⟨_, b, rfl, hb⟩
  case h_2 id hid =>
    have hq := harrived id hid
    have hlocked : ∃ b', (b.construct id call).2.logLocked env loggable (b.construct id call).1
        = .ok b' ∧ Q b' := by
      cases loggable with
      | true => exact h.maybePrune hq env _
      | false => exact ⟨_, rfl, hq⟩
    obtain ⟨b', hb', hq'⟩ := hlocked
    simp only [hb']
    exact ⟨_, b', rfl, hq'⟩

/-- Only a new message has to be looked at. -/
theorem step (h : Keeps Q) (hb : Q b) (r : Request μ)
    (harrived : ∀ env logId loggable call, r = .log env logId loggable call →
      ∀ id, LogId.ofInt logId = some id → Q (b.arrived loggable id call)) :
    ∃ b', b.step r = .ok b' ∧ Q b' := by
  cases r with
  | log env logId loggable call =>
    obtain ⟨ret, b', hb', hq⟩ := h.log hb env logId loggable call
      (harrived env logId loggable call rfl)
    exact ⟨b', by rw [LogBuffer.step, hb']; rfl, hq⟩
  | prune env id pruneRows callerUid => exact h.prune hb env id pruneRows callerUid
  | maybePrune env id => exact h.maybePrune hb env id
  | clear env id uid => exact h.prune hb env id ULONG_MAX uid
  | setSize mMaxSize => exact ⟨_, rfl, h.settings mMaxSize b.mPrune b.mTimes hb⟩
  | setPrune mPrune => exact ⟨_, rfl, h.settings b.mMaxSize mPrune b.mTimes hb⟩
  | setReaders mTimes => exact ⟨_, rfl, h.settings b.mMaxSize b.mPrune mTimes hb⟩

end Keeps

theorem keeps_wellFormed : Keeps (WellFormed (μ := μ)) where
  valid h := h.valid
  edits hedits h := hedits.wellFormed h
  settings _ _ _ h := ⟨⟨h.valid.distinct, h.valid.marks⟩, h.addr_lt⟩

theorem arrived_wellFormed (hb : WellFormed b) (loggable : Bool) (id : LogId) (call : LogCall μ) :
    WellFormed (b.arrived loggable id call) := by
  cases loggable with
  | true =>
    have hins : WellFormed ((b.construct id call).2.insert (b.construct id call).1) :=
      insert_wellFormed _ ⟨hb.valid.distinct, hb.valid.marks⟩ hb.addr_lt (Nat.lt_succ_self _)
    exact ⟨⟨hins.valid.distinct, hins.valid.marks⟩, hins.addr_lt⟩
  | false =>
    exact ⟨⟨hb.valid.distinct, hb.valid.marks⟩, fun e he => Nat.lt_succ_of_lt (hb.addr_lt e he)⟩

theorem step_wellFormed (hb : WellFormed b) (r : Request μ) :
    ∃ b', b.step r = .ok b' ∧ WellFormed b' :=
  keeps_wellFormed.step hb r fun _ _ loggable call _ id _ => arrived_wellFormed hb loggable id call

theorem init_wellFormed (mMaxSize : LogId → Nat) :
    WellFormed (LogBuffer.init mMaxSize : LogBuffer μ) where
  valid := ⟨nodup_nil, fun _ _ _ h => by cases h⟩
  addr_lt := fun _ h => by cases h

/-- A run never stops, and its states are well formed. -/
theorem run_wellFormed (mMaxSize : LogId → Nat) (requests : List (Request μ)) :
    (∃ b, run LogBuffer.step (LogBuffer.init mMaxSize) requests = .ok b) ∧
      Throughout LogBuffer.step WellFormed (LogBuffer.init mMaxSize) requests := by
  obtain ⟨hrun, hthrough, -⟩ := served_of_along (P := fun _ _ => True)
    (R := fun _ _ _ => True) (fun b r hb _ => by
      obtain ⟨b', hb', hw⟩ := step_wellFormed hb r
      exact ⟨b', hb', hw, trivial⟩)
    requests (init mMaxSize) (init_wellFormed mMaxSize)
    (along_of_forall fun _ _ _ => trivial)
  exact ⟨hrun, hthrough⟩

/-- In every state that the calls reach, every watermark is at an element of the list, of its
log id and uid; so no search starts from an element that is gone. -/
theorem watermarks_valid (mMaxSize : LogId → Nat) (requests : List (Request μ)) :
    (∃ b, run LogBuffer.step (LogBuffer.init mMaxSize) requests = .ok b) ∧
      Throughout LogBuffer.step MarksValid (LogBuffer.init mMaxSize) requests :=
  ⟨(run_wellFormed mMaxSize requests).1,
    (run_wellFormed mMaxSize requests).2.imp fun _ h => h.valid.marks⟩

/-- The order of the map and what a freed element reads as, for runs on fixed messages. -/
def plainEnv : Env Unit := ⟨fun t => t, (·.mUid), (·.getMsgLen)⟩

end SystemCore.Logd
