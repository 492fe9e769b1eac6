import SystemCore.Logd.PruneSafety

/-!
# Clearing

`clear` is `prune` with as many rows as there can be. The batches for the worst offender take a
row for each message that they drop, and the straight expiration takes one for each element it
erases. So an element costs at most two rows, and these do not run out. Without a reader nothing
else stops the expiration before the end of the list.
-/
namespace SystemCore.Logd

open LogBuffer List

variable {μ : Type} {id : LogId} {b b' : LogBuffer μ} {held : LogBufferElement μ → Prop}

theorem not_locked_none (e : LogBufferElement μ) : ¬ locked none e := by
  rintro ⟨o, ho, -⟩
  cases ho

theorem oldest_none_of_no_reader (h : b.mTimes = []) : b.oldest id = none := by
  unfold LogBuffer.oldest
  rw [h]
  rfl

/-- Pruning leaves the elements of the other log ids in their order. -/
theorem LogBuffer.Edits.others_eq (h : Edits id held b b') :
    b'.mLogElements.filter (fun e => e.mLogId ≠ id) =
      b.mLogElements.filter fun e => e.mLogId ≠ id := by
  refine h.keeps (P := fun b' => b'.mLogElements.filter (fun e => e.mLogId ≠ id) =
    b.mLogElements.filter fun e => e.mLogId ≠ id) (fun b₁ b₂ hedit heq => ?_) rfl
  rw [← heq]
  exact hedit.filter_eq (fun e => e.mLogId ≠ id) (fun e hid _ => decide_eq_false (not_not.mpr hid))
    fun e value he => he

theorem LogBuffer.Edits.length_le (h : Edits id held b b') :
    b'.mLogElements.length ≤ b.mLogElements.length := by
  refine h.keeps (P := fun b' => b'.mLogElements.length ≤ b.mLogElements.length)
    (fun b₁ b₂ hedit hle => Nat.le_trans ?_ hle) (Nat.le_refl _)
  have hsub := hedit.addrs_sublist.length_le
  rw [length_map, length_map] at hsub
  exact hsub

/-! ## Straight expiration -/

variable {todo : List (LogBufferElement μ)} {pruneRows : Nat}

/-- With rows for all elements, the first loop spares an element of the log id only when it says
so, and has a row for each element it leaves. -/
theorem expireLoop_open (id : LogId) (whitelist : Bool)
    (hrows : b.mLogElements.length + todo.length < pruneRows) :
    (expireLoop none id pruneRows whitelist b todo).1.mLogElements.length <
        (expireLoop none id pruneRows whitelist b todo).2.1 ∧
      (whitelist = true → (expireLoop none id pruneRows whitelist b todo).2.2 = true) ∧
      ∀ e ∈ (expireLoop none id pruneRows whitelist b todo).1.mLogElements, e.mLogId = id →
        e ∈ b.mLogElements ∨ (expireLoop none id pruneRows whitelist b todo).2.2 = true := by
  induction todo generalizing b pruneRows whitelist with
  | nil => exact ⟨hrows, fun h => h, fun e he _ => Or.inl he⟩
  | cons x todo ih =>
    rw [length_cons] at hrows
    have hkeep : (b.keep x).mLogElements.length + todo.length < pruneRows := by
      unfold keep
      rw [length_append, length_singleton]
      omega
    unfold expireLoop
    rw [if_neg (show ¬ pruneRows = 0 by omega), if_neg (not_locked_none x)]
    split_ifs with hid hnice
    · obtain ⟨hlen, hwhite, hleft⟩ := ih whitelist hkeep
      refine ⟨hlen, hwhite, fun e he heid => (hleft e he heid).imp_left fun hmem => ?_⟩
      rcases mem_append.mp hmem with hmem | hmem
      · exact hmem
      · rw [mem_singleton.mp hmem] at heid
        exact absurd heid hid
    · obtain ⟨hlen, hwhite, -⟩ := ih true hkeep
      exact ⟨hlen, fun _ => hwhite rfl, fun _ _ _ => Or.inr (hwhite rfl)⟩
    · have herase : (b.erase x true).mLogElements.length + todo.length < pruneRows - 1 := by
        rw [erase_mLogElements]
        omega
      have hnext := ih whitelist herase
      rw [erase_mLogElements] at hnext
      exact hnext

/-- With rows for all elements, the second loop leaves no element of the log id. -/
theorem expireAllLoop_open (hrows : todo.length < pruneRows) :
    ∀ e ∈ (expireAllLoop none id pruneRows b todo).mLogElements, e.mLogId = id →
      e ∈ b.mLogElements := by
  induction todo generalizing b pruneRows with
  | nil => exact fun e he _ => he
  | cons x todo ih =>
    rw [length_cons] at hrows
    unfold expireAllLoop
    rw [if_neg (show ¬ pruneRows = 0 by omega), if_neg (not_locked_none x)]
    split_ifs with hid
    · intro e he heid
      rcases mem_append.mp (ih (show todo.length < pruneRows by omega) e he heid) with hmem | hmem
      · exact hmem
      · rw [mem_singleton.mp hmem] at heid
        exact absurd heid hid
    · have hnext := ih (b := b.erase x true) (show todo.length < pruneRows - 1 by omega)
      rw [erase_mLogElements] at hnext
      exact hnext

/-- Without a reader and with rows for all elements, expiration leaves none of the log id. -/
theorem expire_open (id : LogId) (hrows : b.mLogElements.length < pruneRows) :
    ∀ e ∈ (b.expire none id pruneRows).mLogElements, e.mLogId ≠ id := by
  have hbegin : b.atBegin.mLogElements.length + b.mLogElements.length < pruneRows := by
    change 0 + b.mLogElements.length < pruneRows
    omega
  obtain ⟨hlen, -, hleft⟩ := expireLoop_open id false hbegin
  unfold expire
  simp only []
  intro e he hid
  split at he
  case isTrue =>
    exact not_mem_nil (expireAllLoop_open hlen e he hid)
  case isFalse hdone =>
    rcases hleft e he hid with hmem | hwhite
    · exact not_mem_nil hmem
    · exact hdone ⟨hwhite, Nat.lt_of_le_of_lt (Nat.zero_le _) hlen⟩

/-! ## One uid -/

/-- With rows for all elements, exactly those of the log id and the uid go. -/
theorem pruneUidLoop_open {callerUid : UInt32} (hrows : todo.length < pruneRows) :
    (pruneUidLoop none id callerUid pruneRows b todo).mLogElements =
      b.mLogElements ++ todo.filter fun e => ¬ (e.mLogId = id ∧ e.mUid = callerUid) := by
  induction todo generalizing b pruneRows with
  | nil => exact (append_nil _).symm
  | cons x todo ih =>
    rw [length_cons] at hrows
    have hdec : decRows pruneRows = pruneRows - 1 := if_neg (by omega)
    unfold pruneUidLoop
    rw [if_neg (not_locked_none x), hdec, if_neg (show ¬ pruneRows - 1 = 0 by omega)]
    split_ifs with hid huid
    · rw [ih (by omega), filter_cons_of_pos (by simp [hid])]
      exact append_assoc ..
    · rw [ih (by omega), filter_cons_of_neg (by simp [not_not.mp hid, huid]), erase_mLogElements]
    · rw [ih (by omega), filter_cons_of_pos (by simp [huid])]
      exact append_assoc ..

/-! ## The call -/

/-- What `clear` is to erase: for root all of the log id, and else what the uid has logged. -/
def clears (id : LogId) (uid : UInt32) (e : LogBufferElement μ) : Prop :=
  e.mLogId = id ∧ (uid = AID_ROOT ∨ e.mUid = uid)

instance (id : LogId) (uid : UInt32) (e : LogBufferElement μ) : Decidable (clears id uid e) :=
  inferInstanceAs (Decidable (_ ∧ _))

/-- Without a reader `clear` ends, and what it is to erase goes and nothing else. A list has fewer
elements than `2 ^ 63 - 1`, since each takes more than two bytes. -/
theorem clear_exact (b : ValidBuffer μ) (env : Env μ) (id : LogId) (uid : UInt32)
    (hreaders : b.mTimes = []) (hsize : 2 * b.mLogElements.length < ULONG_MAX) :
    ∃ b', b.clear env id uid = .ok b' ∧
      b'.mLogElements = b.mLogElements.filter fun e => ¬ clears id uid e := by
  have holdest : b.oldest id = none := oldest_none_of_no_reader hreaders
  unfold LogBuffer.clear LogBuffer.prune
  simp only [holdest]
  by_cases hroot : uid = AID_ROOT
  · obtain ⟨b₁, rows, hworst, hedits, hample⟩ := worstLoop_spec env none id
      (Nat.lt_succ_self ULONG_MAX) b.valid
    rw [if_neg (not_not.mpr hroot), hworst]
    have hmessages : b.messages ≤ b.mLogElements.length := countP_le_length
    have hrows : b₁.mLogElements.length < rows := by
      have hleft := hample b.mLogElements.length (by omega)
      have hless := hedits.length_le
      omega
    refine ⟨_, rfl, ?_⟩
    have hall : Edits id (locked none) b.toLogBuffer (b₁.expire none id rows) :=
      hedits.trans (expire_spec none id rows)
    have hothers := hall.others_eq
    have hnone := expire_open id hrows
    have hself : (b₁.expire none id rows).mLogElements =
        (b₁.expire none id rows).mLogElements.filter fun e => e.mLogId ≠ id :=
      (filter_eq_self.mpr fun e he => decide_eq_true (hnone e he)).symm
    rw [hself, hothers]
    refine filter_congr fun e _ => decide_eq_decide.mpr (not_congr ?_)
    exact ⟨fun hid => ⟨hid, Or.inl hroot⟩, And.left⟩
  · rw [if_pos hroot]
    refine ⟨_, rfl, ?_⟩
    rw [pruneUidLoop_open (by omega)]
    change [] ++ _ = _
    rw [nil_append]
    refine filter_congr fun e _ => decide_eq_decide.mpr (not_congr ?_)
    exact and_congr_right fun _ => ⟨Or.inr, fun h => h.resolve_left hroot⟩

/-- Two messages of a uid on the white list and one of another log id. -/
def littleBuffer : ValidBuffer Unit where
  mLogElements :=
    [⟨0, .main, 1000, 1, 1, some (), 10, 0, ⟨1, 0⟩⟩, ⟨1, .radio, 1000, 1, 1, some (), 10, 1, ⟨2, 0⟩⟩,
      ⟨2, .main, 1000, 1, 1, some (), 10, 2, ⟨3, 0⟩⟩]
  stats := LogStatistics.init
  mPrune := ⟨[⟨2000, -1⟩], [⟨1000, -1⟩], true⟩
  mLastWorstUid := fun _ _ => none
  mMaxSize := fun _ => 65536
  mTimes := []
  sequence := 3
  nextAddr := 3
  valid := ⟨by unfold AddrsDistinct; decide, fun _ _ _ hmark => by cases hmark⟩

theorem clear_exact_little :
    (littleBuffer.mTimes = [] ∧ 2 * littleBuffer.mLogElements.length < ULONG_MAX) ∧
      ∃ b', littleBuffer.clear ⟨fun t => t, (·.mUid), (·.getMsgLen)⟩ .main AID_ROOT = .ok b' ∧
        b'.mLogElements = littleBuffer.mLogElements.filter fun e => ¬ clears .main AID_ROOT e :=
  ⟨⟨rfl, by decide⟩, clear_exact littleBuffer _ .main AID_ROOT rfl (by decide)⟩

end SystemCore.Logd
