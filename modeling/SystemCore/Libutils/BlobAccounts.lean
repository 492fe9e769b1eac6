import Mathlib.Data.List.Lex
import Mathlib.Data.Prod.Lex
import SystemCore.Lib.Outcome
import SystemCore.Lib.Runs
import SystemCore.Libutils.BlobCache

/-!
# The accounts of the blob cache

The entries stay in the order of their keys, and `mTotalSize` is the sum of their sizes, as
long as `unflatten` is called on a cache without entries: it clears the entries and leaves
`mTotalSize` alone.
-/
namespace SystemCore.Libutils.BlobCache

open Lib Lib.Runs List CacheEntry Blob

variable {ρ : Type} {nrand48 : ρ → Nat × ρ} {buildId : BuildId} {c c' : Cache ρ}
  {entries : List CacheEntry} {key value : Blob}

/-! ## The order of keys -/

/-- Keys are ordered by their length, then byte by byte. -/
def keyRank (k : List UInt8) : ℕ ×ₗ List ℕ := toLex (k.length, k.map UInt8.toNat)

variable {a b buffer : List UInt8} {i size : Nat} (f : CacheEntry → Nat)

theorem keyRank_injective (eq : keyRank a = keyRank b) : a = b := by
  have bytes : a.map UInt8.toNat = b.map UInt8.toNat := congrArg (fun p => (ofLex p).2) eq
  exact map_injective_iff.mpr (fun _ _ => UInt8.toNat_inj.mp) bytes

theorem memcmp_neg_iff (len : a.length = b.length) :
    memcmp a b < 0 ↔ a.map UInt8.toNat < b.map UInt8.toNat := by
  induction a generalizing b with
  | nil =>
    obtain rfl := eq_nil_of_length_eq_zero len.symm
    simp [memcmp]
  | cons x xs ih =>
    cases b with
    | nil => cases len
    | cons y ys =>
      rw [memcmp, map_cons, map_cons, cons_lt_cons_iff]
      split
      · next eq => simp [eq, ih (Nat.succ.inj len)]
      · next ne =>
        have apart : x.toNat ≠ y.toNat := fun eq => ne (UInt8.toNat_inj.mp eq)
        omega

def cmpKey (a b : List UInt8) : Int :=
  (if keyRank b < keyRank a then 1 else 0) - (if keyRank a < keyRank b then 1 else 0)

def cmpEntry (e f : CacheEntry) : Int := cmpKey e.key f.key

theorem cmpEntry_compares : Compares cmpEntry := Compares.of_lt fun e : CacheEntry => keyRank e.key

theorem eq_of_cmpKey (zero : cmpKey a b = 0) : a = b := by
  refine keyRank_injective ?_
  rcases lt_trichotomy (keyRank a) (keyRank b) with lt | eq | gt
  · simp [cmpKey, lt, lt.asymm] at zero
  · exact eq
  · simp [cmpKey, gt, gt.asymm] at zero

theorem Blob.less_eq {a b : Blob} (ha : a.size ≤ a.data.length) (hb : b.size ≤ b.data.length) :
    a.less b = .ok (decide (keyRank (a.data.take a.size) < keyRank (b.data.take b.size))) := by
  have la : (a.data.take a.size).length = a.size := by rw [length_take, Nat.min_eq_left ha]
  have lb : (b.data.take b.size).length = b.size := by rw [length_take, Nat.min_eq_left hb]
  simp only [less, keyRank, Prod.Lex.toLex_lt_toLex, la, lb]
  by_cases same : a.size = b.size
  · have readable : ¬ (a.data.length < a.size ∨ b.data.length < b.size) := by omega
    rw [if_pos same, if_neg readable]
    simp only [memcmp_neg_iff (la.trans (same.trans lb.symm))]
    simp [same]
  · simp [same]

theorem Blob.compare_eq {a b : Blob} (ha : a.size ≤ a.data.length) (hb : b.size ≤ b.data.length) :
    a.compare b = .ok (cmpKey (a.data.take a.size) (b.data.take b.size)) := by
  simp only [compare, less_eq ha hb, less_eq hb ha, bind, Except.bind, cmpKey,
    decide_eq_true_eq]

def Blob.bytes (b : Blob) : List UInt8 := b.data.take b.size

theorem compare_owned (k : List UInt8) (readable : key.size ≤ key.data.length) :
    (owned k).compare key = .ok (cmpKey k key.bytes) := by
  rw [compare_eq (Nat.le_refl _) readable, owned, take_length, bytes]

theorem compare_owned_owned (k l : List UInt8) :
    (owned k).compare (owned l) = .ok (cmpKey k l) := by
  rw [compare_eq (Nat.le_refl _) (Nat.le_refl _)]
  simp only [owned, take_length]

/-- Equal keys have been read to their ends. -/
theorem readable_of_compare {k : List UInt8} (zero : (owned k).compare key = .ok 0) :
    key.size ≤ key.data.length := by
  by_contra short
  simp only [Blob.compare, Blob.less, owned, bind, Except.bind] at zero
  by_cases same : key.size = k.length
  · have unreadable : key.data.length < k.length := by omega
    simp [same, unreadable] at zero
  · have same' : ¬ k.length = key.size := fun eq => same eq.symm
    simp only [same, same', if_false] at zero
    rcases Nat.lt_or_gt_of_ne same with lt | gt
    · simp [lt, Nat.lt_asymm lt] at zero
    · simp [gt, Nat.lt_asymm gt] at zero

/-! ## Searching -/

theorem indexOrderOf_found {i : Int} (found : indexOrderOf entries key = .ok (true, i)) :
    ∃ e, entries[i.toNat]? = some e ∧ i.toNat < entries.length ∧ e.key = key.bytes ∧
      key.size ≤ key.data.length := by
  obtain ⟨lower, upper, zero⟩ := bisect_found found
  rw [compareEntry] at zero
  cases he : entries[i.toNat]? with
  | none => simp [he] at zero
  | some e =>
    simp only [he] at zero
    have readable := readable_of_compare zero
    rw [compare_owned e.key readable] at zero
    exact ⟨e, rfl, by omega, eq_of_cmpKey (Except.ok.inj zero), readable⟩

theorem indexOrderOf_readable (sorted : Sorted cmpEntry entries)
    (readable : key.size ≤ key.data.length) (v : List UInt8) :
    (∃ k : Nat, indexOrderOf entries key = .ok (true, (k : Int))) ∨
      ∃ k : Nat, indexOrderOf entries key = .ok (false, (k : Int)) ∧
        Splits (against cmpEntry entries ⟨key.bytes, v⟩) entries.length k := by
  have probe : ∀ i : Nat, i < entries.length →
      compareEntry entries key i = .ok (against cmpEntry entries ⟨key.bytes, v⟩ i) := by
    intro i hi
    simp only [compareEntry, Int.toNat_natCast, List.getElem?_eq_getElem hi,
      compare_owned _ readable, against_of_lt hi, cmpEntry]
  rcases bisect_all (sorted.increasing cmpEntry_compares ⟨key.bytes, v⟩) probe with
    ⟨k, hsearch, -, -⟩ | ⟨k, hsearch, split⟩
  · exact .inl ⟨k, hsearch⟩
  · exact .inr ⟨k, hsearch, split⟩

/-- A search that finds nothing finds nothing the second time, and the entry goes where it
ended. -/
theorem addEntry_ok (sorted : Sorted cmpEntry entries) {k v : List UInt8} {i : Int}
    (missing : indexOrderOf entries key = .ok (false, i)) (readable : key.size ≤ key.data.length)
    (hk : k = key.bytes) :
    ∃ n : Nat, addEntry entries ⟨k, v⟩ =
        .ok (entries.take n ++ [⟨k, v⟩] ++ entries.drop n) ∧
      Splits (against cmpEntry entries ⟨k, v⟩) entries.length n := by
  have same : compareEntry entries (owned k) = compareEntry entries key := by
    funext mid
    rw [compareEntry, compareEntry]
    cases entries[mid.toNat]? with
    | none => rfl
    | some e =>
      show (owned e.key).compare (owned k) = (owned e.key).compare key
      rw [compare_owned e.key readable, compare_owned_owned, hk]
  have again : indexOrderOf entries (owned k) = indexOrderOf entries key := by
    rw [indexOrderOf, same, indexOrderOf]
  rcases indexOrderOf_readable sorted readable v with ⟨n, hn⟩ | ⟨n, hn, split⟩
  · rw [missing] at hn
    cases hn
  · refine ⟨n, ?_, hk ▸ split⟩
    simp only [addEntry, again, hn, bind, Except.bind, Int.toNat_natCast, Bool.false_eq_true,
      if_false]

/-! ## Sums over entries -/

theorem sum_split (entries : List CacheEntry) (i : Nat) :
    ((entries.take i).map f).sum + ((entries.drop i).map f).sum = (entries.map f).sum := by
  rw [← sum_append, ← map_append, take_append_drop]

theorem sum_insert (entries : List CacheEntry) (i : Nat) (e : CacheEntry) :
    ((entries.take i ++ [e] ++ entries.drop i).map f).sum = (entries.map f).sum + f e := by
  have split := sum_split f entries i
  simp only [map_append, sum_append, map_cons, map_nil, sum_cons,
    sum_nil]
  omega

theorem sum_at (hi : i < entries.length) :
    (entries.map f).sum =
      ((entries.take i).map f).sum + f entries[i] + ((entries.drop (i + 1)).map f).sum := by
  have split := sum_split f entries i
  rw [drop_eq_getElem_cons hi, map_cons, sum_cons] at split
  omega

theorem sum_erase (hi : i < entries.length) :
    ((entries.eraseIdx i).map f).sum + f entries[i] = (entries.map f).sum := by
  rw [sum_at f hi, eraseIdx_eq_take_drop_succ, map_append, sum_append]
  omega

theorem sum_replace (hi : i < entries.length) (e : CacheEntry) :
    ((entries.set i e).map f).sum + f entries[i] = (entries.map f).sum + f e := by
  rw [sum_at f hi, set_eq_take_append_cons_drop, if_pos hi, map_append, sum_append,
    map_cons, sum_cons]
  omega

theorem le_sum (hi : i < entries.length) : f entries[i] ≤ (entries.map f).sum := by
  have := sum_erase f hi
  omega

/-! ## What the calls keep -/

/-- What the limits let into the cache. -/
structure Allowed (limits : Limits) (e : CacheEntry) : Prop where
  key_pos : 0 < e.key.length
  key_le : e.key.length ≤ limits.maxKeySize
  value_pos : 0 < e.value.length
  value_le : e.value.length ≤ limits.maxValueSize
  size_le : e.size ≤ limits.maxTotalSize

/-- The entries are in order, within the limits and within the address space. -/
structure Tidy (c : Cache ρ) : Prop where
  sorted : Sorted cmpEntry c.entries
  allowed : ∀ e ∈ c.entries, Allowed c.limits e
  fits : live c.entries ≤ PTRDIFF_MAX

def held (c : Cache ρ) : Nat := (c.entries.map CacheEntry.size).sum

/-- `mTotalSize` is what is held, and within its limit. -/
structure Accounts (c : Cache ρ) : Prop where
  total : c.totalSize = held c
  le_max : c.totalSize ≤ c.limits.maxTotalSize

structure Kept (c c' : Cache ρ) : Prop where
  tidy : Tidy c'
  accounts : Accounts c'
  limits : c'.limits = c.limits

def Stops (e : Fault) : Prop := e = .outOfBounds ∨ e = .nullDeref

/-- How a call ends: its cache is in order, or it stopped at a bad pointer or for lack of
memory. -/
def Ends (c : Cache ρ) : Except Fault (Cache ρ) → Prop := Outcome Stops (Kept c)

theorem Kept.trans {c₁ c₂ : Cache ρ} (h : Kept c c₁) (h' : Kept c₁ c₂) : Kept c c₂ :=
  ⟨h'.tidy, h'.accounts, h'.limits.trans h.limits⟩

theorem held_le_live (entries : List CacheEntry) :
    (entries.map CacheEntry.size).sum ≤ live entries := by
  induction entries with
  | nil => exact Nat.le_refl _
  | cons e es ih =>
    simp only [live, map_cons, sum_cons, footprint] at ih ⊢
    omega

theorem wrapSub_eq {m n : Nat} (le : n ≤ m) (small : m - n < 2 ^ 64) :
    wrapSub m n = m - n := by
  simp only [wrapSub, wrap]
  omega

theorem Tidy.subset (tidy : Tidy c) (limits : c'.limits = c.limits)
    (sub : c'.entries.Sublist c.entries) (le : live c'.entries ≤ live c.entries) : Tidy c' where
  sorted := List.Pairwise.sublist sub tidy.sorted
  allowed e he := by
    rw [limits]
    exact tidy.allowed e (sub.subset he)
  fits := Nat.le_trans le tidy.fits

/-! ## `clean` -/

variable (nrand48)

theorem Kept.removed (tidy : Tidy c) (accounts : Accounts c) (hi : i < c.entries.length) (r : ρ) :
    Kept c ⟨c.limits, wrapSub c.totalSize c.entries[i].size, c.entries.eraseIdx i, r⟩ := by
  have smaller := sum_erase size hi
  have lighter := sum_erase footprint hi
  have total := accounts.total
  have bound := tidy.fits
  have le := held_le_live c.entries
  simp only [held, live, PTRDIFF_MAX] at total bound le
  have sub : wrapSub c.totalSize c.entries[i].size = c.totalSize - c.entries[i].size :=
    wrapSub_eq (by omega) (by omega)
  refine ⟨tidy.subset rfl (eraseIdx_sublist _ _) (by simp only [live]; omega), ⟨?_, ?_⟩, rfl⟩
  · simp only [sub, held]
    omega
  · have := accounts.le_max
    simp only [sub]
    omega

/-- **`clean` does not divide by zero.** What is held is in the entries, so there is one to
remove as long as there is too much. -/
theorem cleanLoop_ok (fuel : Nat) : ∀ c : Cache ρ, Tidy c → Accounts c →
    c.entries.length < fuel → ∃ c', cleanLoop nrand48 fuel c = .ok c' ∧ Kept c c' ∧
      isCleanable c' = false := by
  induction fuel with
  | zero => exact fun c _ _ lt => absurd lt (Nat.not_lt_zero _)
  | succ fuel ih =>
    intro c tidy accounts lt
    rw [cleanLoop]
    by_cases cleanable : isCleanable c = true
    · have much : c.limits.maxTotalSize / 2 < c.totalSize := of_decide_eq_true cleanable
      have some_entry : c.entries.length ≠ 0 := by
        intro none
        have total := accounts.total
        rw [held, eq_nil_of_length_eq_zero none, map_nil, sum_nil] at total
        omega
      have hi : (nrand48 c.randState).1 % c.entries.length < c.entries.length :=
        Nat.mod_lt _ (Nat.pos_of_ne_zero some_entry)
      have removed := Kept.removed tidy accounts hi (nrand48 c.randState).2
      obtain ⟨c', hclean, kept, done⟩ := ih _ removed.tidy removed.accounts (by
        rw [length_eraseIdx_of_lt hi]
        omega)
      refine ⟨c', ?_, removed.trans kept, done⟩
      simp only [cleanable, if_true, some_entry, if_false, List.getElem?_eq_getElem hi]
      exact hclean
    · rw [if_neg cleanable]
      exact ⟨c, rfl, ⟨tidy, accounts, rfl⟩, Bool.not_eq_true _ ▸ cleanable⟩

/-! ## `set` -/

/-- How a round of `set` ends. Another round follows only when this one has cleaned. -/
def EndsRound (c : Cache ρ) : Except Fault (Bool × Cache ρ) → Prop :=
  Outcome Stops fun r => Kept c r.2 ∧ (r.1 = true → isCleanable c = true ∧ isCleanable r.2 = false)

theorem copyBlob_ends (used : Nat) (b : Blob) :
    Outcome Stops (fun bytes => bytes = b.bytes ∧ used + b.size + sizeofBlob ≤ PTRDIFF_MAX ∧
      b.size ≤ b.data.length ∧ b.bytes.length = b.size) (copyBlob used b) := by
  refine .ite (fun _ => .inr rfl) fun fits => .ite (fun _ => .inl rfl) fun readable => ?_
  refine ⟨rfl, by omega, by omega, ?_⟩
  rw [bytes, length_take]
  omega

/-- What `set` has checked before it looks at the entries. -/
structure Checked (limits : Limits) (key value : Blob) : Prop where
  key_le : key.size ≤ limits.maxKeySize
  value_le : value.size ≤ limits.maxValueSize
  sum_le : wrap (key.size + value.size) ≤ limits.maxTotalSize
  key_pos : 0 < key.size
  value_pos : 0 < value.size

theorem Checked.allowed {limits : Limits} (checked : Checked limits key value)
    (small : key.size + value.size < 2 ^ 64) {e : CacheEntry} (klen : e.key.length = key.size)
    (vlen : e.value.length = value.size) : Allowed limits e := by
  obtain ⟨key_le, value_le, sum_le, key_pos, value_pos⟩ := checked
  rw [wrap, Nat.mod_eq_of_lt small] at sum_le
  rw [← klen] at key_le key_pos sum_le
  rw [← vlen] at value_le value_pos sum_le
  exact ⟨key_pos, key_le, value_pos, value_le, sum_le⟩

def OnlyOob {β : Type} : Except Fault β → Prop := Outcome (· = .outOfBounds) fun _ => True

theorem Blob.less_faults (a b : Blob) : OnlyOob (a.less b) :=
  .ite (fun _ => .ite (fun _ => rfl) fun _ => trivial) fun _ => trivial

theorem Blob.compare_faults (a b : Blob) : OnlyOob (a.compare b) :=
  .bind (less_faults b a) fun _ _ => .bind (less_faults a b) fun _ _ => trivial

theorem indexOrderOf_faults (entries : List CacheEntry) (key : Blob) :
    OnlyOob (indexOrderOf entries key) := by
  cases hsearch : indexOrderOf entries key with
  | ok r => trivial
  | error e =>
    refine bisect_error (P := fun e => e = .outOfBounds) (fun mid e failed => ?_) hsearch
    have faults : OnlyOob (compareEntry entries key mid) := by
      rw [compareEntry]
      split
      · rfl
      · exact compare_faults _ _
    exact faults.of_error failed

theorem get_faults (c : Cache ρ) (key : Blob) (valueSize : Nat) : OnlyOob (get c key valueSize) := by
  refine .ite (fun _ => trivial) fun _ => .bind (indexOrderOf_faults _ _) fun r _ => ?_
  refine .ite (fun _ => ?_) fun _ => trivial
  split
  · rfl
  · trivial

theorem poke_faults (buffer : List UInt8) (offset : Nat) (bytes : List UInt8) :
    OnlyOob (poke buffer offset bytes) := .ite (fun _ => rfl) fun _ => trivial

theorem flattenEntries_faults (size : Nat) : ∀ (entries : List CacheEntry) (byteOffset : Nat)
    (buffer : List UInt8), OnlyOob (flattenEntries size entries byteOffset buffer)
  | [], _, _ => trivial
  | _ :: es, _, _ => .ite (fun _ => trivial) fun _ =>
    .bind (.bind (poke_faults _ _ _) fun _ _ => .bind (poke_faults _ _ _) fun _ _ =>
      .bind (poke_faults _ _ _) fun _ _ => .bind (poke_faults _ _ _) fun _ _ =>
      poke_faults _ _ _) fun _ _ => flattenEntries_faults size es _ _

theorem flatten_faults (buildId : BuildId) (entries : List CacheEntry) (buffer : List UInt8)
    (size : Nat) : OnlyOob (flatten buildId entries buffer size) := by
  refine .ite (fun _ => trivial) fun _ =>
    .bind (P := fun _ => True) ?_ fun _ _ => flattenEntries_faults _ _ _ _
  exact .bind (poke_faults _ _ _) fun _ _ => .bind (poke_faults _ _ _) fun _ _ =>
    .bind (poke_faults _ _ _) fun _ _ => .bind (poke_faults _ _ _) fun _ _ =>
    .bind (poke_faults _ _ _) fun _ _ => poke_faults _ _ _

section Keeps

variable (tidy : Tidy c) (accounts : Accounts c)

include tidy accounts

theorem makeRoom_ends : EndsRound c (makeRoom nrand48 c) := by
  refine .ite (fun cleanable => ?_) fun _ => ⟨⟨tidy, accounts, rfl⟩, fun again => by cases again⟩
  obtain ⟨c', hclean, kept, done⟩ :=
    cleanLoop_ok nrand48 (c.entries.length + 1) c tidy accounts (Nat.lt_succ_self _)
  rw [clean, hclean]
  exact ⟨kept, fun _ => ⟨cleanable, done⟩⟩

theorem createEntry_ends (checked : Checked c.limits key value) {i : Int}
    (missing : indexOrderOf c.entries key = .ok (false, i)) :
    EndsRound c (createEntry nrand48 c key value) := by
  refine (copyBlob_ends (live c.entries) key).bind ?_
  rintro _ ⟨rfl, -, readable, klen⟩
  refine (copyBlob_ends (live c.entries + key.size + sizeofBlob) value).bind ?_
  rintro _ ⟨rfl, room, -, vlen⟩
  have le := held_le_live c.entries
  have total := accounts.total
  simp only [held] at total
  simp only [PTRDIFF_MAX] at room
  have unwrapped : wrap (c.totalSize + key.size + value.size) =
      c.totalSize + key.size + value.size := Nat.mod_eq_of_lt (by omega)
  refine .ite (fun _ => makeRoom_ends nrand48 tidy accounts) fun enough => ?_
  obtain ⟨n, hadd, split⟩ := addEntry_ok tidy.sorted (v := value.bytes) missing readable rfl
  rw [hadd]
  have sizes := sum_insert CacheEntry.size c.entries n ⟨key.bytes, value.bytes⟩
  have prints := sum_insert CacheEntry.footprint c.entries n ⟨key.bytes, value.bytes⟩
  simp only [CacheEntry.footprint, CacheEntry.size, klen, vlen] at sizes prints
  refine ⟨⟨⟨?_, ?_, ?_⟩, ⟨?_, Nat.le_of_not_lt enough⟩, rfl⟩, fun again => by cases again⟩
  · exact tidy.sorted.insert cmpEntry_compares split
  · intro e he
    simp only [mem_append, mem_singleton] at he
    rcases he with (front | rfl) | back
    · exact tidy.allowed e (mem_of_mem_take front)
    · exact checked.allowed (by omega) klen vlen
    · exact tidy.allowed e (mem_of_mem_drop back)
  · have fits := tidy.fits
    simp only [live, sizeofBlob, PTRDIFF_MAX] at *
    omega
  · simp only [held]
    omega

theorem updateEntry_ends (checked : Checked c.limits key value) {i : Int}
    (found : indexOrderOf c.entries key = .ok (true, i)) :
    EndsRound c (updateEntry nrand48 c i.toNat value) := by
  obtain ⟨e, he, hi, same, readable⟩ := indexOrderOf_found found
  have klen : e.key.length = key.size := by
    rw [same, bytes, length_take, Nat.min_eq_left readable]
  obtain rfl : c.entries[i.toNat] = e := by
    rw [List.getElem?_eq_getElem hi] at he
    exact Option.some.inj he
  refine (copyBlob_ends (live c.entries) value).bind ?_
  rintro _ ⟨rfl, room, -, vlen⟩
  simp only [he]
  generalize hentry : c.entries[i.toNat] = entry at *
  have sizes := sum_replace CacheEntry.size hi { entry with value := value.bytes }
  have prints := sum_replace CacheEntry.footprint hi { entry with value := value.bytes }
  have part := le_sum CacheEntry.size hi
  have le := held_le_live c.entries
  have total := accounts.total
  simp only [held] at total
  rw [hentry] at sizes prints part
  simp only [CacheEntry.footprint, CacheEntry.size, vlen] at sizes prints part
  simp only [PTRDIFF_MAX] at room
  have unwrapped : wrapSub (c.totalSize + value.size) entry.value.length =
      c.totalSize + value.size - entry.value.length := wrapSub_eq (by omega) (by omega)
  refine .ite (fun _ => makeRoom_ends nrand48 tidy accounts) fun enough => ?_
  have equal : cmpEntry c.entries[i.toNat] { entry with value := value.bytes } = 0 := by
    rw [hentry]
    exact cmpEntry_compares.self entry
  refine ⟨⟨⟨?_, ?_, ?_⟩, ⟨?_, Nat.le_of_not_lt enough⟩, rfl⟩, fun again => by cases again⟩
  · exact tidy.sorted.set cmpEntry_compares hi equal
  · intro f hf
    rcases mem_or_eq_of_mem_set hf with old | rfl
    · exact tidy.allowed f old
    · exact checked.allowed (by omega) klen vlen
  · have fits := tidy.fits
    simp only [live, sizeofBlob, PTRDIFF_MAX] at *
    omega
  · simp only [held]
    omega

theorem setRound_ends (checked : Checked c.limits key value) :
    EndsRound c (setRound nrand48 c key value) := by
  cases hsearch : indexOrderOf c.entries key with
  | error e =>
    simp only [setRound, hsearch, bind, Except.bind]
    exact .inl ((indexOrderOf_faults _ _).of_error hsearch)
  | ok r =>
    obtain ⟨found, i⟩ := r
    simp only [setRound, hsearch, bind, Except.bind]
    cases found with
    | true => exact updateEntry_ends nrand48 tidy accounts checked hsearch
    | false => exact createEntry_ends nrand48 tidy accounts checked hsearch

/-- **`set` keeps the accounts.** The second round finds a cache that is not cleanable. -/
theorem set_ends (key value : Blob) : Ends c (set nrand48 c key value) := by
  have same : Ends c (.ok c) := ⟨tidy, accounts, rfl⟩
  refine .ite (fun _ => same) fun _ => .ite (fun _ => same) fun _ => .ite (fun _ => same) fun _ =>
    .ite (fun _ => same) fun _ => .ite (fun _ => same) fun _ => ?_
  have checked : Checked c.limits key value :=
    ⟨by omega, by omega, by omega, by omega, by omega⟩
  refine (setRound_ends nrand48 tidy accounts checked).bind ?_
  rintro ⟨again, c₁⟩ ⟨kept, cleaned⟩
  cases again with
  | false => exact kept
  | true =>
    rw [← kept.limits] at checked
    refine (setRound_ends nrand48 kept.tidy kept.accounts checked).bind ?_
    rintro ⟨again, c₂⟩ ⟨kept', cleaned'⟩
    cases again with
    | false => exact kept.trans kept'
    | true => cases (cleaned rfl).2.symm.trans (cleaned' rfl).1

end Keeps

theorem Tidy.cleared (c : Cache ρ) : Tidy (BlobCache.cleared c) where
  sorted := List.Pairwise.nil
  allowed e he := by cases he
  fits := Nat.zero_le _

/-! ## When the accounts are kept -/

/-- Whether `set` looks at a key and a value of these sizes. -/
def accepts (limits : Limits) (keySize valueSize : Nat) : Bool :=
  keySize ≤ limits.maxKeySize && valueSize ≤ limits.maxValueSize &&
    wrap (keySize + valueSize) ≤ limits.maxTotalSize && keySize ≠ 0 && valueSize ≠ 0

/-- The header is one that `unflatten` goes behind. -/
def HeaderMatches (buildId : BuildId) (buffer : List UInt8) (size : Nat) : Prop :=
  sizeofHeader ≤ size ∧ LittleEndian.field 0 4 buffer = blobCacheMagic ∧
    LittleEndian.field 4 4 buffer = blobCacheVersion ∧
    LittleEndian.field 8 4 buffer = blobCacheDeviceVersion ∧
    LittleEndian.field 24 4 buffer = buildId.bytes.length ∧
    (buffer.drop 28).take buildId.bytes.length = buildId.bytes

/-- The `n` entries from `byteOffset` on all lie in the buffer, or the first that does not
comes before any that the limits let in. `taken` says that one has come already. -/
def Settled (limits : Limits) (buffer : List UInt8) (size : Nat) : Bool → Nat → Nat → Bool
  | _, 0, _ => true
  | taken, n + 1, byteOffset =>
    if size < wrap (byteOffset + sizeofEntryHeader) then !taken
    else
      let keySize := LittleEndian.field byteOffset 8 buffer
      let valueSize := LittleEndian.field (byteOffset + 8) 8 buffer
      let totalSize := align4 (entrySize keySize valueSize)
      if size < wrap (byteOffset + totalSize) then !taken
      else
        Settled limits buffer size (taken || accepts limits keySize valueSize) n
          (wrap (byteOffset + totalSize))

/-- `unflatten` finds no entries, and leaves none behind when it fails. -/
def Meets (buildId : BuildId) (c : Cache ρ) : Call → Prop
  | .unflatten buffer size => c.entries = [] ∧
      (HeaderMatches buildId buffer size.toNat →
        Settled c.limits buffer size.toNat false (LittleEndian.field 16 8 buffer)
          (align4 (sizeofHeader + buildId.bytes.length)) = true)
  | _ => True

instance (buffer : List UInt8) (size : Nat) : Decidable (HeaderMatches buildId buffer size) := by
  unfold HeaderMatches
  infer_instance

instance : ∀ call, Decidable (Meets buildId c call)
  | .unflatten _ _ => by unfold Meets; infer_instance
  | .set .. | .get .. | .flatten .. => .isTrue trivial

/-! ## `unflatten` -/

/-- How `unflatten` ends. -/
def EndsWith (c : Cache ρ) : Except Fault (Int × Cache ρ) → Prop := Outcome Stops fun r => Kept c r.2

theorem peek_ends (buffer : List UInt8) (offset w : Nat) :
    Outcome (· = .outOfBounds) (· = LittleEndian.field offset w buffer) (peek buffer offset w) :=
  .ite (fun _ => rfl) fun _ => rfl

theorem set_refused (refused : accepts c.limits key.size value.size = false) :
    set nrand48 c key value = .ok c := by
  rw [set]
  split
  · rfl
  split
  · rfl
  split
  · rfl
  split
  · rfl
  split
  · rfl
  simp only [accepts, ne_eq, Bool.and_eq_false_iff, decide_eq_false_iff_not] at refused
  omega

theorem cleared_eq (none : c.entries = []) : cleared c = c := by
  rw [cleared, ← none]

theorem unflattenEntries_ends (n : Nat) :
    ∀ (taken : Bool) (byteOffset : Nat) (c : Cache ρ), Tidy c → Accounts c →
      (c.entries ≠ [] → taken = true) → Settled c.limits buffer size taken n byteOffset = true →
      EndsWith c (unflattenEntries nrand48 buffer size n byteOffset c) := by
  induction n with
  | zero => exact fun _ _ c tidy accounts _ _ => ⟨tidy, accounts, rfl⟩
  | succ n ih =>
    intro taken byteOffset c tidy accounts filled settled
    -- when an entry does not fit, there is nothing to clear
    have stopped : (!taken) = true → EndsWith c (.ok (BAD_VALUE, cleared c)) := by
      intro untaken
      have none : c.entries = [] := by
        by_contra some_entry
        simp [filled some_entry] at untaken
      rw [cleared_eq none]
      exact ⟨tidy, accounts, rfl⟩
    rw [Settled] at settled
    rw [unflattenEntries]
    by_cases header : size < wrap (byteOffset + sizeofEntryHeader)
    · rw [if_pos header] at settled ⊢
      exact stopped settled
    rw [if_neg header] at settled ⊢
    refine ((peek_ends buffer byteOffset 8).mono (fun _ => .inl) fun _ => id).bind ?_
    rintro keySize rfl
    refine ((peek_ends buffer (byteOffset + 8) 8).mono (fun _ => .inl) fun _ => id).bind ?_
    rintro valueSize rfl
    generalize LittleEndian.field byteOffset 8 buffer = keySize at settled ⊢
    generalize LittleEndian.field (byteOffset + 8) 8 buffer = valueSize at settled ⊢
    by_cases fits : size < wrap (byteOffset + align4 (entrySize keySize valueSize))
    · simp only [fits, if_true] at settled ⊢
      exact stopped settled
    simp only [fits, if_false] at settled ⊢
    generalize hkeyBlob : mk (buffer.drop (byteOffset + 16)) keySize = keyBlob
    generalize hvalueBlob :
      mk ((buffer.drop (byteOffset + 16)).drop keySize) valueSize = valueBlob
    have ends := set_ends nrand48 tidy accounts keyBlob valueBlob
    cases hset : set nrand48 c keyBlob valueBlob with
    | error e => rwa [hset] at ends
    | ok c₁ =>
      rw [hset] at ends
      have filled₁ : c₁.entries ≠ [] →
          (taken || accepts c.limits keySize valueSize) = true := by
        intro some_entry
        cases accepted : accepts c.limits keySize valueSize with
        | true => exact Bool.or_true taken
        | false =>
          subst hkeyBlob hvalueBlob
          rw [set_refused nrand48 accepted] at hset
          obtain rfl := Except.ok.inj hset
          rw [filled some_entry, Bool.true_or]
      exact (ih _ _ c₁ ends.tidy ends.accounts filled₁ (by rw [ends.limits]; exact settled)).mono
        (fun _ => id) fun _ => ends.trans

theorem sameBuildId_ends (id rest : List UInt8) :
    Outcome (· = .outOfBounds) (fun same => same = true → rest.take id.length = id)
      (sameBuildId id rest) := by
  induction id generalizing rest with
  | nil => exact fun _ => rfl
  | cons a as ih =>
    cases rest with
    | nil => rfl
    | cons b bs =>
      refine .ite (fun eq => (ih bs).mono (fun _ => id) fun _ same hsame => ?_) fun _ h => by cases h
      rw [length_cons, take_succ_cons, same hsame, eq]

/-- `unflatten` stops, ends with no entries, or goes on to the entries behind a good header. -/
theorem unflatten_ends {E : Fault → Prop} {P : Int × Cache ρ → Prop} (oob : E .outOfBounds)
    (empty : ∀ r, P (r, cleared c)) (goes_on : HeaderMatches buildId buffer size → Outcome E P
      (unflattenEntries nrand48 buffer size (LittleEndian.field 16 8 buffer)
        (align4 (sizeofHeader + buildId.bytes.length)) (cleared c))) :
    Outcome E P (unflatten nrand48 buildId c buffer size) := by
  have found (offset w : Nat) : Outcome E (· = LittleEndian.field offset w buffer)
      (peek buffer offset w) :=
    (peek_ends buffer offset w).mono (fun e he => he ▸ oob) fun _ => id
  refine .ite (fun _ => empty _) fun long => (found 0 4).bind ?_
  rintro _ rfl
  refine .ite (fun _ => empty _) fun magic => ?_
  refine Outcome.bind (P := fun same => same = true → HeaderMatches buildId buffer size) ?_ ?_
  · refine (found 4 4).bind ?_
    rintro _ rfl
    refine (found 8 4).bind ?_
    rintro _ rfl
    refine (found 24 4).bind ?_
    rintro _ rfl
    refine .ite (fun _ h => by cases h) fun same => ?_
    refine (sameBuildId_ends _ _).mono (fun e he => he ▸ oob) fun _ taken h => ?_
    simp only [ne_eq, not_or, not_not] at same magic
    exact ⟨by omega, magic, same.1, same.2.1, same.2.2.symm, taken h⟩
  · intro same header
    refine .ite (fun hsame => (found 16 8).bind ?_) fun _ => empty _
    rintro _ rfl
    exact goes_on (header hsame)

/-! ## Whole runs -/

/-- **The step lemma.** -/
theorem exec_ends (tidy : Tidy c) (accounts : Accounts c) {call : Call}
    (meets : Meets buildId c call) : Ends c (exec nrand48 buildId c call) := by
  have same : Kept c c := ⟨tidy, accounts, rfl⟩
  -- a call that only looks
  have looks {β : Type} {x : Except Fault β} (faults : OnlyOob x) : Ends c (do let _ ← x; .ok c) :=
    (faults.mono (fun _ => .inl) fun _ => id).bind fun _ _ => same
  cases call with
  | set key keySize value valueSize => exact set_ends nrand48 tidy accounts _ _
  | get key keySize valueSize => exact looks (get_faults _ _ _)
  | flatten buffer size => exact looks (flatten_faults _ _ _ _)
  | unflatten buffer size =>
    obtain ⟨none, settled⟩ := meets
    have ends : EndsWith c (unflatten nrand48 buildId c buffer size.toNat) := by
      refine unflatten_ends nrand48 (.inl rfl) (fun r => (cleared_eq none).symm ▸ same) ?_
      intro header
      rw [cleared_eq none]
      exact unflattenEntries_ends nrand48 _ false _ c tidy accounts
        (fun some_entry => absurd none some_entry) (settled header)
    exact ends.bind fun _ kept => kept

theorem fresh_kept (limits : Limits) (randState : ρ) :
    Kept (Cache.fresh limits randState) (Cache.fresh limits randState) where
  tidy := Tidy.cleared (Cache.fresh limits randState)
  accounts := ⟨rfl, Nat.zero_le _⟩
  limits := rfl

/-- **The accounts are kept.** A program whose calls keep to `Meets` finds `mTotalSize` equal
to what is held, and within its limit, in every state, and `clean` always has an entry to
remove. -/
theorem blob_accounts_kept (nrand48 : ρ → Nat × ρ) (buildId : BuildId) (limits : Limits)
    (randState : ρ) (calls : List Call)
    (meets : Along (exec nrand48 buildId) (Meets buildId) (Cache.fresh limits randState) calls) :
    Throughout (exec nrand48 buildId)
        (fun c => c.totalSize = (c.entries.map CacheEntry.size).sum ∧
          c.totalSize ≤ c.limits.maxTotalSize) (Cache.fresh limits randState) calls ∧
      run (exec nrand48 buildId) (Cache.fresh limits randState) calls ≠ .error .divByZero := by
  have start := fresh_kept limits randState
  have step : ∀ (c : Cache ρ) (call : Call) (c' : Cache ρ), Tidy c ∧ Accounts c →
      Meets buildId c call → exec nrand48 buildId c call = .ok c' → Tidy c' ∧ Accounts c' := by
    intro c call c' ok meets hexec
    have kept := (exec_ends nrand48 ok.1 ok.2 meets).of_ok hexec
    exact ⟨kept.tidy, kept.accounts⟩
  have stops : ∀ (c : Cache ρ) (call : Call) (e : Fault), Tidy c ∧ Accounts c →
      Meets buildId c call → exec nrand48 buildId c call = .error e → e ≠ .divByZero := by
    intro c call e ok meets hexec
    rcases (exec_ends nrand48 ok.1 ok.2 meets).of_error hexec with rfl | rfl
    · exact Fault.noConfusion
    · exact Fault.noConfusion
  constructor
  · exact (throughout_of_along step calls _ ⟨start.tidy, start.accounts⟩ meets).imp
      fun c ok => ⟨ok.2.total, ok.2.le_max⟩
  · intro stopped
    exact run_error_of_along step stops calls ⟨start.tidy, start.accounts⟩ meets stopped rfl

/-- A generator that always gives the first entry. -/
def first (r : Unit) : Nat × Unit := (0, r)

def noBuildId : BuildId := ⟨[], by decide, by decide⟩

/-- A flattened cache with one entry, of a key and a value of one byte each. -/
def oneEntry : List UInt8 :=
  [0x24, 0x62, 0x42, 0x5f, 3, 0, 0, 0, 1, 0, 0, 0, 0, 0, 0, 0, 1, 0, 0, 0, 0, 0, 0, 0,
    0, 0, 0, 0, 0, 0, 0, 0, 1, 0, 0, 0, 0, 0, 0, 0, 1, 0, 0, 0, 0, 0, 0, 0, 7, 8, 0, 0]

/-- The entry is read back, and the second `set` has to clean. -/
def cleaningCalls : List Call :=
  [.unflatten oneEntry 52, .set [1] 1 [2] 1, .get [1] 1 1]

example : (run (exec first noBuildId) (Cache.fresh ⟨1, 1, 3⟩ ()) cleaningCalls).map
    (fun c => (c.totalSize, c.entries)) = .ok (2, [⟨[1], [2]⟩]) := by decide +kernel

theorem blob_accounts_kept_cleaning :
    Along (exec first noBuildId) (Meets noBuildId) (Cache.fresh ⟨1, 1, 3⟩ ()) cleaningCalls ∧
      (Throughout (exec first noBuildId)
        (fun c => c.totalSize = (c.entries.map CacheEntry.size).sum ∧
          c.totalSize ≤ c.limits.maxTotalSize) (Cache.fresh ⟨1, 1, 3⟩ ()) cleaningCalls ∧
      run (exec first noBuildId) (Cache.fresh ⟨1, 1, 3⟩ ()) cleaningCalls ≠ .error .divByZero) :=
  ⟨by decide +kernel, blob_accounts_kept first noBuildId ⟨1, 1, 3⟩ () cleaningCalls
    (by decide +kernel)⟩

/-- `unflatten` clears an entry, or fails behind one it has taken in, and `mTotalSize` stays;
the next `set` that has to clean then divides by zero. -/
theorem unflatten_leaves_total :
    (run (exec first noBuildId) (Cache.fresh ⟨1, 1, 2⟩ ())
        [.set [1] 1 [2] 1, .unflatten [] 0]).map (fun c => (c.totalSize, c.entries)) =
          .ok (2, []) ∧
      (run (exec first noBuildId) (Cache.fresh ⟨1, 1, 2⟩ ())
        [.unflatten (oneEntry.set 16 2) 52]).map (fun c => (c.totalSize, c.entries)) =
          .ok (2, []) ∧
      run (exec first noBuildId) (Cache.fresh ⟨1, 1, 2⟩ ())
        [.set [1] 1 [2] 1, .unflatten [] 0, .set [1] 1 [2] 1] = .error .divByZero := by
  decide +kernel

end SystemCore.Libutils.BlobCache
