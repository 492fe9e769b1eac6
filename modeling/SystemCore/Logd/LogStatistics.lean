import Mathlib.Algebra.Group.Nat.Defs
import SystemCore.Logd.LogBufferElement

/-!
# Statistics of the log buffer

For each log id the number of elements and of bytes in the buffer, and for each log id but
the kernel's a table from uids to bytes and dropped messages. Counts are naturals: no buffer
holds 2^64 bytes. A subtraction below zero wraps, as it does for `size_t`.

The totals since boot and the tables by pid, tid and tag are left out: only the reports read
them.
-/
namespace SystemCore.Logd

/-- Subtraction of `size_t` values. -/
def subSize (a b : Nat) : Nat :=
  if b ≤ a then a - b else a + 2 ^ 64 - b

theorem subSize_of_le {a b : Nat} (h : b ≤ a) : subSize a b = a - b := if_pos h

/-- A share that is in a count is taken out again. -/
theorem subSize_share {c : Prop} [Decidable c] {x total share : Nat}
    (h : x = if c then total + share else total) :
    (if c then subSize x share else x) = total := by
  split at h
  case isTrue hc => rw [if_pos hc, h, subSize_of_le (Nat.le_add_left _ _), Nat.add_sub_cancel]
  case isFalse hc => rw [if_neg hc, h]

structure UidEntry where
  size : Nat
  dropped : Nat
  deriving DecidableEq, Repr

variable {μ : Type}

namespace UidEntry

def ofElement (e : LogBufferElement μ) : UidEntry :=
  ⟨e.getMsgLen.toNat, e.getDropped.toNat⟩

def add (e : LogBufferElement μ) (x : UidEntry) : UidEntry :=
  ⟨x.size + e.getMsgLen.toNat, x.dropped + e.getDropped.toNat⟩

/-- The entry, and whether nothing is left in it. -/
def subtract (e : LogBufferElement μ) (x : UidEntry) : UidEntry × Bool :=
  let size := subSize x.size e.getMsgLen.toNat
  let dropped := subSize x.dropped e.getDropped.toNat
  (⟨size, dropped⟩, size = 0 ∧ dropped = 0)

def drop (e : LogBufferElement μ) (x : UidEntry) : UidEntry :=
  ⟨subSize x.size e.getMsgLen.toNat, x.dropped + 1⟩

end UidEntry

/-- `LogHashtable<uid_t, UidEntry>`, each uid once. -/
abbrev UidTable := List (UInt32 × UidEntry)

namespace UidTable

/-- The entry of a uid, zero when there is none. -/
def read (uid : UInt32) (t : UidTable) : UidEntry :=
  match t.lookup uid with
  | none => ⟨0, 0⟩
  | some x => x

def set (uid : UInt32) (x : UidEntry) (t : UidTable) : UidTable :=
  t.map fun (u, y) => if u = uid then (u, x) else (u, y)

def remove (uid : UInt32) (t : UidTable) : UidTable :=
  t.filter fun (u, _) => u ≠ uid

def add (uid : UInt32) (e : LogBufferElement μ) (t : UidTable) : UidTable :=
  match t.lookup uid with
  | none => (uid, UidEntry.ofElement e) :: t
  | some x => set uid (x.add e) t

def subtract (uid : UInt32) (e : LogBufferElement μ) (t : UidTable) : UidTable :=
  match t.lookup uid with
  | none => t
  | some x =>
    let (x, empty) := x.subtract e
    if empty then remove uid t else set uid x t

def drop (uid : UInt32) (e : LogBufferElement μ) (t : UidTable) : UidTable :=
  match t.lookup uid with
  | none => t
  | some x => set uid (x.drop e) t

/-! ### Reading after a change -/

variable {uid : UInt32} {t : UidTable} {e : LogBufferElement μ}

theorem lookup_cons_ite (u v : UInt32) (y : UidEntry) (t : UidTable) :
    List.lookup u ((v, y) :: t) = if u = v then some y else t.lookup u := by
  by_cases h : u = v
  · simp [h]
  · rw [List.lookup_cons, beq_false_of_ne h, if_neg h]

theorem lookup_set (u : UInt32) (x : UidEntry) :
    (set uid x t).lookup u = if u = uid then (t.lookup uid).map fun _ => x else t.lookup u := by
  induction t with
  | nil => simp [set]
  | cons p t ih =>
    obtain ⟨v, y⟩ := p
    unfold set at ih ⊢
    by_cases hv : v = uid
    · subst hv
      by_cases hu : u = v
      · simp [hu]
      · simp [lookup_cons_ite, hu, ih]
    · by_cases hu : u = uid
      · subst hu
        simp [lookup_cons_ite, hv, Ne.symm hv, ih]
      · simp [lookup_cons_ite, hv, hu, ih]

theorem lookup_remove (u : UInt32) :
    (remove uid t).lookup u = if u = uid then none else t.lookup u := by
  induction t with
  | nil => simp [remove]
  | cons p t ih =>
    obtain ⟨v, y⟩ := p
    unfold remove at ih ⊢
    by_cases hv : v = uid
    · rw [List.filter_cons_of_neg (by simp [hv]), ih, lookup_cons_ite, hv]
      by_cases hu : u = uid <;> simp [hu]
    · rw [List.filter_cons_of_pos (by simp [hv]), lookup_cons_ite, lookup_cons_ite, ih]
      by_cases hu : u = uid
      · simp [hu, Ne.symm hv]
      · simp [hu]

theorem read_set {y : UidEntry} (h : t.lookup uid = some y) (u : UInt32) (x : UidEntry) :
    read u (set uid x t) = if u = uid then x else read u t := by
  unfold read
  rw [lookup_set]
  by_cases hu : u = uid
  · simp [hu, h]
  · simp [hu]

theorem read_add (e : LogBufferElement μ) (u : UInt32) :
    read u (add uid e t) = if u = uid then (read uid t).add e else read u t := by
  unfold add
  split
  case h_1 hnone =>
    unfold read
    rw [lookup_cons_ite, hnone]
    by_cases hu : u = uid
    · simp [hu, UidEntry.ofElement, UidEntry.add]
    · simp [hu]
  case h_2 x hx =>
    rw [read_set hx]
    unfold read
    rw [hx]

theorem read_subtract (hsize : e.getMsgLen.toNat ≤ (read uid t).size)
    (hdropped : e.getDropped.toNat ≤ (read uid t).dropped) (u : UInt32) :
    read u (subtract uid e t) =
      if u = uid then ⟨(read uid t).size - e.getMsgLen.toNat,
        (read uid t).dropped - e.getDropped.toNat⟩
      else read u t := by
  unfold subtract
  split
  case h_1 hnone =>
    by_cases hu : u = uid
    · subst hu
      simp only [read, hnone, if_true, Nat.zero_sub]
    · rw [if_neg hu]
  case h_2 x hx =>
    have hread : read uid t = x := by simp [read, hx]
    rw [hread] at hsize hdropped ⊢
    simp only [UidEntry.subtract, subSize_of_le hsize, subSize_of_le hdropped]
    split
    case isTrue hempty =>
      rw [decide_eq_true_eq] at hempty
      unfold read
      rw [lookup_remove]
      by_cases hu : u = uid
      · simp [hu, hempty.1, hempty.2]
      · simp [hu]
    case isFalse => rw [read_set hx]

/-- A drop of a message from an entry that is there. -/
theorem read_drop (hsize : e.getMsgLen.toNat ≤ (read uid t).size) (hpos : 0 < e.getMsgLen.toNat)
    (u : UInt32) :
    read u (drop uid e t) =
      if u = uid then ⟨(read uid t).size - e.getMsgLen.toNat, (read uid t).dropped + 1⟩
      else read u t := by
  unfold drop
  split
  case h_1 hnone =>
    simp only [read, hnone] at hsize
    omega
  case h_2 x hx =>
    have hread : read uid t = x := by simp [read, hx]
    rw [hread] at hsize ⊢
    rw [read_set hx, UidEntry.drop, subSize_of_le hsize]

/-! ### The largest entries -/

/-- Where `sort` puts an entry of size `s`: behind the last one that is not smaller. -/
def sortPosition (s : Nat) (retval : List (UInt32 × UidEntry)) : Nat :=
  (retval.reverse.dropWhile fun r => r.2.size < s).length

/-- The `n` largest entries, `iterated` being the table in the order in which the map is
walked. -/
def sort (n : Nat) (iterated : List (UInt32 × UidEntry)) : List (UInt32 × UidEntry) :=
  iterated.foldl
    (fun retval entry => (retval.insertIdx (sortPosition entry.2.size retval) entry).take n) []

end UidTable

structure LogStatistics where
  mSizes : LogId → Nat
  mElements : LogId → Nat
  uidTable : LogId → UidTable

namespace LogStatistics

def init : LogStatistics := ⟨fun _ => 0, fun _ => 0, fun _ => []⟩

def sizes (id : LogId) (s : LogStatistics) : Nat := s.mSizes id

def elements (id : LogId) (s : LogStatistics) : Nat := s.mElements id

def add (e : LogBufferElement μ) (s : LogStatistics) : LogStatistics :=
  let id := e.mLogId
  { mSizes := Function.update s.mSizes id (s.mSizes id + e.getMsgLen.toNat)
    mElements := Function.update s.mElements id (s.mElements id + 1)
    uidTable :=
      if id = .kernel then s.uidTable
      else Function.update s.uidTable id ((s.uidTable id).add e.mUid e) }

def subtract (e : LogBufferElement μ) (s : LogStatistics) : LogStatistics :=
  let id := e.mLogId
  { mSizes := Function.update s.mSizes id (subSize (s.mSizes id) e.getMsgLen.toNat)
    mElements := Function.update s.mElements id (subSize (s.mElements id) 1)
    uidTable :=
      if id = .kernel then s.uidTable
      else Function.update s.uidTable id ((s.uidTable id).subtract e.mUid e) }

/-- `drop`, before the element is set to dropped. -/
def drop (e : LogBufferElement μ) (s : LogStatistics) : LogStatistics :=
  let id := e.mLogId
  { s with
    mSizes := Function.update s.mSizes id (subSize (s.mSizes id) e.getMsgLen.toNat)
    uidTable := Function.update s.uidTable id ((s.uidTable id).drop e.mUid e) }

/-- `erase`, for an element whose count went to another. -/
def erase (e : LogBufferElement μ) (s : LogStatistics) : LogStatistics :=
  { s with mElements := Function.update s.mElements e.mLogId (subSize (s.mElements e.mLogId) 1) }

/-! ### What the calls do to each count -/

theorem update_count (f : LogId → α) (g : α → α) (a id : LogId) :
    Function.update f a (g (f a)) id = if id = a then g (f id) else f id := by
  rw [Function.update_apply]
  split
  case isTrue h => rw [h]
  case isFalse => rfl

/-- The kernel log may have no table. -/
theorem update_count_unless (f : LogId → α) (g : α → α) (a : LogId) {id k : LogId} (hid : id ≠ k) :
    (if a = k then f else Function.update f a (g (f a))) id = if id = a then g (f id) else f id := by
  split
  case isTrue h => rw [h, if_neg hid]
  case isFalse => exact update_count f g a id

variable (s : LogStatistics) (e : LogBufferElement μ) (id : LogId) (uid : UInt32)

theorem add_mElements :
    (s.add e).mElements id = if id = e.mLogId then s.mElements id + 1 else s.mElements id :=
  update_count _ (· + 1) _ id

theorem add_mSizes :
    (s.add e).mSizes id =
      if id = e.mLogId then s.mSizes id + e.getMsgLen.toNat else s.mSizes id :=
  update_count _ (· + e.getMsgLen.toNat) _ id

theorem subtract_mElements :
    (s.subtract e).mElements id =
      if id = e.mLogId then subSize (s.mElements id) 1 else s.mElements id :=
  update_count _ (subSize · 1) _ id

theorem subtract_mSizes :
    (s.subtract e).mSizes id =
      if id = e.mLogId then subSize (s.mSizes id) e.getMsgLen.toNat else s.mSizes id :=
  update_count _ (subSize · e.getMsgLen.toNat) _ id

theorem drop_mSizes :
    (s.drop e).mSizes id =
      if id = e.mLogId then subSize (s.mSizes id) e.getMsgLen.toNat else s.mSizes id :=
  update_count _ (subSize · e.getMsgLen.toNat) _ id

theorem erase_mElements :
    (s.erase e).mElements id =
      if id = e.mLogId then subSize (s.mElements id) 1 else s.mElements id :=
  update_count _ (subSize · 1) _ id

variable {id}

theorem add_uidTable (hid : id ≠ .kernel) :
    (s.add e).uidTable id =
      if id = e.mLogId then (s.uidTable id).add e.mUid e else s.uidTable id :=
  update_count_unless _ (UidTable.add e.mUid e) _ hid

theorem subtract_uidTable (hid : id ≠ .kernel) :
    (s.subtract e).uidTable id =
      if id = e.mLogId then (s.uidTable id).subtract e.mUid e else s.uidTable id :=
  update_count_unless _ (UidTable.subtract e.mUid e) _ hid

theorem drop_uidTable :
    (s.drop e).uidTable id =
      if id = e.mLogId then (s.uidTable id).drop e.mUid e else s.uidTable id :=
  update_count _ (UidTable.drop e.mUid e) _ id

end LogStatistics

end SystemCore.Logd
