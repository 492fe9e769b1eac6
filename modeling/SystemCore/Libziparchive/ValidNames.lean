import SystemCore.Libziparchive.NameIndex

/-!
# Valid names

A name is read by a small machine whose state is the number of bytes that the last sequence still
needs. `IsValidEntryName` runs this machine. On a name that goes beyond the end of the directory
it stops in time exactly when nothing that begins with the bytes up to the end is a valid name.
-/
namespace SystemCore.Libziparchive

/-! ## The machine -/

/-- The number of leading ones, as the inner loop counts them. -/
def ones : Nat → UInt8 → Nat
  | 0, _ => 0
  | fuel + 1, first => if first &&& 0x80 = 0 then 0 else ones fuel (first <<< 1) + 1

/-- One byte, with the number of bytes that are still needed before and after it. -/
def nameStep : Nat → UInt8 → Option Nat
  | 0, byte =>
    if byte = 0 then none
    else if byte &&& 0x80 = 0 then some 0
    else if byte &&& 0xc0 = 0x80 ∨ byte &&& 0xfe = 0xfe then none
    else some (ones 8 (byte <<< 1))
  | needed + 1, byte => if isContinuation byte = false then none else some needed

def nameScan (needed : Nat) (name : List UInt8) : Option Nat := name.foldlM nameStep needed

/-- Complete sequences, and no NUL. -/
def ValidName (name : List UInt8) : Prop := nameScan 0 name = some 0

instance (name : List UInt8) : Decidable (ValidName name) :=
  inferInstanceAs (Decidable (nameScan 0 name = some 0))

variable (needed : Nat)

theorem nameScan_cons (byte : UInt8) (name : List UInt8) :
    nameScan needed (byte :: name) = (nameStep needed byte).bind fun n => nameScan n name :=
  List.foldlM_cons

theorem nameScan_append (name rest : List UInt8) :
    nameScan needed (name ++ rest) = (nameScan needed name).bind fun n => nameScan n rest :=
  List.foldlM_append

theorem nameScan_replicate : nameScan needed (List.replicate needed 0x80) = some 0 := by
  induction needed with
  | zero => rfl
  | succ n ih =>
    have hstep : nameStep (n + 1) 0x80 = some n := by
      rw [nameStep, if_neg (by decide)]
    rw [List.replicate_succ, nameScan_cons, hstep, Option.bind_some, ih]

/-- The machine refuses exactly what no valid name begins with. -/
theorem nameScan_eq_none_iff (name : List UInt8) :
    nameScan 0 name = none ↔ ∀ rest, ¬ ValidName (name ++ rest) := by
  constructor
  · intro hnone rest hvalid
    rw [ValidName, nameScan_append, hnone] at hvalid
    cases hvalid
  · intro hall
    cases hscan : nameScan 0 name with
    | none => rfl
    | some needed =>
      refine absurd ?_ (hall (List.replicate needed 0x80))
      rw [ValidName, nameScan_append, hscan]
      exact nameScan_replicate needed

/-! ## The loops run the machine -/

/-- The machine on as many bytes as the length says, which may be more than there are. -/
def scanBytes : Nat → Nat → List UInt8 → Except Stop Bool
  | needed, 0, _ => .ok (decide (needed = 0))
  | _, _ + 1, [] => .error .outOfRange
  | needed, n + 1, byte :: rest =>
    match nameStep needed byte with
    | none => .ok false
    | some needed => scanBytes needed n rest

theorem scanBytes_of_le {n : Nat} :
    ∀ {needed : Nat} {bytes : List UInt8}, n ≤ bytes.length →
      scanBytes needed n bytes = .ok (decide (nameScan needed (bytes.take n) = some 0)) := by
  induction n with
  | zero =>
    intro needed bytes _
    simp [scanBytes, nameScan]
  | succ n ih =>
    intro needed bytes hle
    cases bytes with
    | nil => cases hle
    | cons byte bytes =>
      rw [List.take_succ_cons, nameScan_cons, scanBytes]
      cases nameStep needed byte with
      | none => rfl
      | some needed => exact ih (Nat.le_of_succ_le_succ hle)

theorem scanBytes_of_lt {bytes : List UInt8} :
    ∀ {needed n : Nat}, bytes.length < n →
      scanBytes needed n bytes =
        if nameScan needed bytes = none then .ok false else .error .outOfRange := by
  induction bytes with
  | nil =>
    intro needed n hlt
    obtain ⟨m, rfl⟩ : ∃ m, n = m + 1 := ⟨n - 1, by simp at hlt; omega⟩
    simp [scanBytes, nameScan]
  | cons byte bytes ih =>
    intro needed n hlt
    obtain ⟨m, rfl⟩ : ∃ m, n = m + 1 := ⟨n - 1, by simp at hlt; omega⟩
    rw [nameScan_cons, scanBytes]
    cases nameStep needed byte with
    | none => rfl
    | some needed => exact ih (Nat.lt_of_succ_lt_succ hlt)

section Loops

variable {cd : List UInt8} {ptr length fuel : Nat}

/-- A byte of the directory, and the list of bytes from it on. -/
theorem byteAt_cases (cd : List UInt8) (ptr i : Nat) :
    (byteAt cd ptr i = .error .outOfRange ∧ cd.drop (ptr + i) = []) ∨
      ∃ byte, byteAt cd ptr i = .ok byte ∧ cd.drop (ptr + i) = byte :: cd.drop (ptr + (i + 1)) := by
  unfold byteAt
  by_cases h : ptr + i < cd.length
  · refine Or.inr ⟨cd[ptr + i], by rw [List.getElem?_eq_getElem h], ?_⟩
    exact List.drop_eq_getElem_cons h
  · refine Or.inl ⟨by rw [List.getElem?_eq_none (Nat.le_of_not_lt h)], ?_⟩
    exact List.drop_eq_nil_of_le (Nat.le_of_not_lt h)

theorem continuationBytes_le :
    ∀ {first : UInt8} {i j : Nat},
      continuationBytes (byteAt cd ptr) length fuel first i = .ok (some j) → i ≤ j := by
  induction fuel with
  | zero =>
    intro first i j h
    cases h
    exact Nat.le_refl i
  | succ fuel ih =>
    intro first i j h
    unfold continuationBytes at h
    split at h
    · cases h
      exact Nat.le_refl i
    · split at h
      · cases h
      · split at h
        · cases h
        · split at h
          · cases h
          · exact Nat.le_trans (Nat.le_succ i) (ih h)

/-- The inner loop and what follows it, as the machine in the state that the first byte leads
to. -/
theorem continuationBytes_eq :
    ∀ {first : UInt8} {i : Nat}, i < length →
      (match continuationBytes (byteAt cd ptr) length fuel first i with
        | .error e => .error e
        | .ok none => .ok false
        | .ok (some j) => scanBytes 0 (length - (j + 1)) (cd.drop (ptr + (j + 1)))) =
      scanBytes (ones fuel first) (length - (i + 1)) (cd.drop (ptr + (i + 1))) := by
  induction fuel with
  | zero => exact fun _ => rfl
  | succ fuel ih =>
    intro first i hi
    unfold continuationBytes ones
    by_cases hfirst : first &&& 0x80 = 0
    · simp only [if_pos hfirst]
    simp only [if_neg hfirst]
    by_cases hend : i + 1 = length
    · simp only [if_pos hend]
      rw [hend, Nat.sub_self, scanBytes]
      rfl
    simp only [if_neg hend]
    obtain ⟨n, hn⟩ : ∃ n, length - (i + 1) = n + 1 := ⟨length - (i + 1) - 1, by omega⟩
    rcases byteAt_cases cd ptr (i + 1) with ⟨hbyte, hdrop⟩ | ⟨byte, hbyte, hdrop⟩
    · rw [hbyte, hdrop, hn, scanBytes]
    · rw [hbyte, hdrop, hn, scanBytes]
      by_cases hcont : isContinuation byte = false
      · have hstep : nameStep (ones fuel (first <<< 1) + 1) byte = none := if_pos hcont
        simp only [if_pos hcont, hstep]
      · have hstep : nameStep (ones fuel (first <<< 1) + 1) byte = some (ones fuel (first <<< 1)) :=
          if_neg hcont
        have hrest := @ih (first <<< 1) (i + 1) (by omega)
        rw [show length - (i + 1 + 1) = n by omega] at hrest
        simp only [if_neg hcont, hstep]
        exact hrest

theorem validFrom_eq :
    ∀ {i : Nat}, length - i ≤ fuel →
      validFrom (byteAt cd ptr) length fuel i = scanBytes 0 (length - i) (cd.drop (ptr + i)) := by
  induction fuel with
  | zero =>
    intro i hfuel
    rw [Nat.le_zero.mp hfuel]
    rfl
  | succ fuel ih =>
    intro i hfuel
    unfold validFrom
    by_cases hi : i < length
    case neg =>
      rw [if_neg hi, Nat.sub_eq_zero_of_le (Nat.le_of_not_lt hi)]
      rfl
    rw [if_pos hi]
    obtain ⟨n, hn⟩ : ∃ n, length - i = n + 1 := ⟨length - i - 1, by omega⟩
    have hn' : length - (i + 1) = n := by omega
    rcases byteAt_cases cd ptr i with ⟨hbyte, hdrop⟩ | ⟨byte, hbyte, hdrop⟩
    · rw [hbyte, hdrop, hn, scanBytes]
    rw [hbyte, hdrop, hn, scanBytes]
    by_cases hzero : byte = 0
    · have hstep : nameStep 0 byte = none := if_pos hzero
      simp only [if_pos hzero, hstep]
    by_cases hsingle : byte &&& 0x80 = 0
    · have hstep : nameStep 0 byte = some 0 := by rw [nameStep, if_neg hzero, if_pos hsingle]
      simp only [if_neg hzero, if_pos hsingle, hstep]
      rw [ih (by omega), hn']
    by_cases hbad : byte &&& 0xc0 = 0x80 ∨ byte &&& 0xfe = 0xfe
    · have hstep : nameStep 0 byte = none := by
        rw [nameStep, if_neg hzero, if_neg hsingle, if_pos hbad]
      simp only [if_neg hzero, if_neg hsingle, if_pos hbad, hstep]
    have hstep : nameStep 0 byte = some (ones 8 (byte <<< 1)) := by
      rw [nameStep, if_neg hzero, if_neg hsingle, if_neg hbad]
    simp only [if_neg hzero, if_neg hsingle, if_neg hbad, hstep]
    rw [← hn', ← continuationBytes_eq hi]
    cases hloop : continuationBytes (byteAt cd ptr) length 8 (byte <<< 1) i with
    | error e => rfl
    | ok result =>
      cases result with
      | none => rfl
      | some j =>
        have hle := continuationBytes_le hloop
        exact ih (by omega)

end Loops

/-! ## Names in the directory -/

theorem isValidEntryName_eq (cd : List UInt8) (ptr length : Nat) :
    isValidEntryName (byteAt cd ptr) length = scanBytes 0 length (cd.drop ptr) :=
  validFrom_eq (Nat.le_refl _)

variable {ptr length : Nat} {cd : List UInt8}

/-- A name that ends inside the directory. -/
theorem isValidEntryName_inside (h : length ≤ (cd.drop ptr).length) :
    isValidEntryName (byteAt cd ptr) length =
      .ok (decide (ValidName ((cd.drop ptr).take length))) := by
  rw [isValidEntryName_eq, scanBytes_of_le h]
  rfl

/-- A name that goes beyond the end is refused without a read there exactly if no valid name
begins with what is there of it. -/
theorem isValidEntryName_cut (h : (cd.drop ptr).length < length) :
    (isValidEntryName (byteAt cd ptr) length = .ok false ∧
        ∀ rest, ¬ ValidName (cd.drop ptr ++ rest)) ∨
      (isValidEntryName (byteAt cd ptr) length = .error .outOfRange ∧
        ∃ rest, ValidName (cd.drop ptr ++ rest)) := by
  rw [isValidEntryName_eq, scanBytes_of_lt h]
  by_cases hnone : nameScan 0 (cd.drop ptr) = none
  · rw [if_pos hnone]
    exact Or.inl ⟨rfl, (nameScan_eq_none_iff _).mp hnone⟩
  · rw [if_neg hnone]
    refine Or.inr ⟨rfl, ?_⟩
    rw [nameScan_eq_none_iff] at hnone
    simpa using hnone

end SystemCore.Libziparchive
