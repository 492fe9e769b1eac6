import SystemCore.Libutils.HashChains
import SystemCore.Lib.Runs

/-!
# The invariant of the hash table

In every state the table counts its entries and its filled buckets right, some bucket is
not filled, and all entries are in reach on their chains. That is enough for the loops of
`find` and for the search of `add` to end. What it does not give is a bucket to put the
entry in: when all entries are gone and only marked buckets are left, `add` drops the
buckets in `rehash` and goes on without any.
-/
namespace SystemCore.Libutils.BasicHashtable

open Lib Lib.Runs Bucket List

variable {E K F : Type*} {bs : List (Bucket E)}

/-- The buckets of a table; a table without buckets is like one with empty buckets. -/
def Table.bucketList (t : Table E F) : List (Bucket E) :=
  t.buckets.getD (allocateBuckets t.bucketCount)

structure Table.Sound (t : Table E F) : Prop where
  prime : t.bucketCount.Prime
  capacity_lt : t.capacity < t.bucketCount
  chained : Chained t.bucketCount t.bucketList
  size_eq : t.size = t.bucketList.countP Bucket.present
  filled_eq : t.filledBuckets = t.bucketList.countP Bucket.filled
  filled_lt : t.filledBuckets < t.bucketCount

/-! ## Moving the entries -/

def Clean (bs : List (Bucket E)) : Prop :=
  ∀ i, (bucketAt bs i).collision = true → (bucketAt bs i).present = true

theorem Clean.filled (h : Clean bs) : bs.countP Bucket.filled = bs.countP Bucket.present := by
  apply countP_congr
  intro b hb
  obtain ⟨i, hi, rfl⟩ := getElem_of_mem hb
  have := h i
  rw [bucketAt_eq hi] at this
  simp only [Bucket.filled, Bool.or_eq_true]
  exact ⟨fun hp => hp.elim id this, .inl⟩

theorem bucketAt_allocate (n i : Nat) : bucketAt (allocateBuckets n : List (Bucket E)) i = .zero := by
  simp only [bucketAt, allocateBuckets, getD_eq_getElem?_getD, List.getElem?_replicate]
  split <;> rfl

theorem clean_allocate (n : Nat) : Clean (allocateBuckets n : List (Bucket E)) := by
  intro i hc
  rw [bucketAt_allocate] at hc
  cases hc

theorem entries_allocate (n : Nat) : entries (allocateBuckets n : List (Bucket E)) = [] := by
  simp [entries, allocateBuckets, zero, hashed]

section Placing

variable {n : Nat} {hash : UInt32} {bs : List (Bucket E)}

theorem Clean.place (hcl : Clean bs) (h : Chained n bs) (hn : n.Prime) (e : E) {k : Nat}
    (hk : k < n) (hp : ∀ j < k, (bucketAt bs (chain n hash j)).present = true) :
    Clean (placed n hash e bs k) := by
  intro i hc
  by_cases hik : chain n hash k = i
  · subst hik
    rw [h.placed_self hn]
    rfl
  · rw [placed_ne e hik, marked_present]
    rcases (h.placed_collision hn e hk i).mp hc with hc | ⟨j, hj, rfl⟩
    · exact hcl i hc
    · exact hp j hj

/-- A free bucket of clean buckets is not marked, so `rehash` stores what `add` would. -/
theorem Clean.placed_eq (hcl : Clean bs) (e : E) {k : Nat}
    (hfree : (bucketAt bs (chain n hash k)).present = false) :
    (marked n hash bs k).set (chain n hash k) ⟨false, hash, some e⟩ = placed n hash e bs k := by
  have hc : (bucketAt bs (chain n hash k)).collision = false := by
    by_contra hne
    rw [hcl _ (by simpa using hne)] at hfree
    cases hfree
  rw [placed, hc]

theorem exists_free (h : Chained n bs) (hlt : (entries bs).length < n) :
    ∃ i < n, (bucketAt bs i).present = false := by
  rw [length_entries, ← h.length] at hlt
  obtain ⟨i, hi, hp⟩ := exists_not_of_countP_lt hlt
  exact ⟨i, h.length ▸ hi, hp⟩

/-- The loop of `rehash` moves all entries, if the new buckets can take them. -/
theorem moveEntries_eq (hn : n.Prime) :
    ∀ (src : List (Bucket E)) {bs : List (Bucket E)}, Chained n bs → Clean bs →
      (entries src).length + (entries bs).length ≤ n →
      ∃ bs', moveEntries n src bs = .ok bs' ∧ Chained n bs' ∧ Clean bs' ∧
        (entries bs').Perm (entries src ++ entries bs)
  | [], bs, h, hcl, _ => ⟨bs, rfl, h, hcl, List.Perm.refl _⟩
  | b :: src, bs, h, hcl, hle => by
    cases hb : b.entry with
    | none =>
      have hent : entries (b :: src) = entries src :=
        filterMap_cons_none (hashed_none hb)
      rw [hent] at hle ⊢
      simp only [moveEntries, hb]
      exact moveEntries_eq hn src h hcl hle
    | some e =>
      have hent : entries (b :: src) = (b.hash, e) :: entries src :=
        filterMap_cons_some (hashed_some hb)
      rw [hent, length_cons] at hle
      obtain ⟨k, hk, hp, hfree, heq⟩ := freeBucket_eq hn b.hash (exists_free h (by omega))
      have hperm := h.placed_entries hn e hfree
      have hplace : Chained n (placed n b.hash e bs k) := h.place hn e hk
      obtain ⟨bs', hmove, hch, hcl', hperm'⟩ := moveEntries_eq hn src
        hplace (hcl.place h hn e hk hp) (by
          rw [hperm.length_eq, length_cons]
          omega)
      refine ⟨bs', ?_, hch, hcl', ?_⟩
      · simp only [moveEntries, hb, heq, hcl.placed_eq e hfree]
        exact hmove
      · rw [hent]
        exact (hperm'.trans (hperm.append_left _)).trans perm_middle

end Placing

/-! ## rehash -/

section Rehash

variable {t : Table E F}

theorem Table.Sound.entries_length (h : t.Sound) : (entries t.bucketList).length = t.size := by
  rw [length_entries, h.size_eq]

/-- Buckets that a table can go on with. -/
theorem Table.Sound.of_buckets {n c : Nat} (hn : n.Prime) (hc : c < n) {lf : F} {size filled : Nat}
    (hch : Chained n bs) (hs : size = bs.countP Bucket.present)
    (hf : filled = bs.countP Bucket.filled) (hlt : filled < n) :
    Table.Sound ⟨c, lf, size, filled, n, some bs⟩ :=
  ⟨hn, hc, hch, hs, hf, hlt⟩

/-- A table without entries and without buckets. -/
theorem Table.Sound.of_none {n c : Nat} (hn : n.Prime) (hc : c < n) (lf : F) :
    Table.Sound (⟨c, lf, 0, 0, n, none⟩ : Table E F) := by
  have hcl := clean_allocate (E := E) n
  have hcount : (allocateBuckets n : List (Bucket E)).countP present = 0 := by
    rw [← length_entries, entries_allocate, length_nil]
  refine ⟨hn, hc, chained_allocate n, hcount.symm, ?_, hn.pos⟩
  change 0 = (allocateBuckets n : List (Bucket E)).countP filled
  rw [hcl.filled, hcount]

theorem Table.Sound.filled_of_none (h : t.Sound) (hb : t.buckets = none) :
    t.size = 0 ∧ t.filledBuckets = 0 := by
  have hl : t.bucketList = allocateBuckets t.bucketCount := by rw [bucketList, hb]; rfl
  have hsz := h.entries_length
  rw [hl, entries_allocate, length_nil] at hsz
  refine ⟨hsz.symm, ?_⟩
  rw [h.filled_eq, hl, (clean_allocate _).filled, ← length_entries, entries_allocate,
    length_nil]

variable {determineCapacity : Nat → F → Except Fault (Nat × Nat)} {m n c : Nat} {lf : F}

/-- What `rehash` to the sizes `n` and `c` makes of a table. The marks only stay when the
sizes do not change, and the buckets only when there are entries in them. -/
structure Rehashed (t : Table E F) (n c : Nat) (lf : F) (t' : Table E F) : Prop where
  sound : t'.Sound
  size : t'.size = t.size
  capacity : t'.capacity = c
  bucketCount : t'.bucketCount = n
  loadFactor : t'.loadFactor = lf
  entries : (entries t'.bucketList).Perm (entries t.bucketList)
  changed : (n, c) ≠ (t.bucketCount, t.capacity) → t'.filledBuckets = t.size ∧
    (t'.buckets.isSome = true ↔ t.buckets.isSome = true ∧ t.size ≠ 0)
  same : (n, c) = (t.bucketCount, t.capacity) → t' = { t with loadFactor := lf }

/-- The buckets that `rehash` goes on with. -/
theorem Table.Sound.rehashBuckets (h : t.Sound) (hb : t.buckets = some bs) (hn : n.Prime)
    (hc : c < n) (hsize : t.size < n) (lf : F) :
    ∃ bs', rehashBuckets t n bs = .ok bs' ∧
      Table.Sound ⟨c, lf, t.size, t.size, n, bs'⟩ ∧ (bs'.isSome = true ↔ t.size ≠ 0) ∧
      (BasicHashtable.entries (bs'.getD (allocateBuckets n))).Perm (BasicHashtable.entries bs) := by
  have hlen := h.entries_length
  rw [bucketList, hb, Option.getD_some] at hlen
  by_cases hs0 : t.size = 0
  · refine ⟨none, by rw [BasicHashtable.rehashBuckets, if_pos hs0], ?_, by simp [hs0], ?_⟩
    · rw [hs0]
      exact Table.Sound.of_none hn hc lf
    · have hnil : BasicHashtable.entries bs = [] := length_eq_zero_iff.mp (hlen.trans hs0)
      rw [hnil, Option.getD_none, entries_allocate]
  · obtain ⟨bs', hmove, hch, hcl, hperm⟩ := moveEntries_eq hn bs (chained_allocate n)
      (clean_allocate n) (by rw [entries_allocate, hlen]; exact hsize.le)
    rw [entries_allocate, append_nil] at hperm
    have hcount : t.size = bs'.countP present := by
      rw [← length_entries, hperm.length_eq, hlen]
    refine ⟨some bs', ?_, ?_, by simp [hs0], hperm⟩
    · rw [BasicHashtable.rehashBuckets, if_neg hs0, hmove]
    · exact Table.Sound.of_buckets hn hc hch hcount (by rw [hcl.filled, hcount]) hsize

theorem Table.Sound.rehash (h : t.Sound)
    (hdc : determineCapacity (max m t.size) lf = .ok (n, c)) (hn : n.Prime) (hc : c < n)
    (hsize : t.size < n) :
    ∃ t', t.rehash determineCapacity m lf = .ok t' ∧ Rehashed t n c lf t' := by
  by_cases hsame : (n, c) = (t.bucketCount, t.capacity)
  · obtain ⟨rfl, rfl⟩ := Prod.mk.inj hsame
    refine ⟨{ t with loadFactor := lf }, by simp [Table.rehash, hdc], ?_⟩
    exact ⟨⟨h.1, h.2, h.3, h.4, h.5, h.6⟩, rfl, rfl, rfl, rfl, List.Perm.refl _,
      fun hne => absurd rfl hne, fun _ => rfl⟩
  · have hne : n ≠ t.bucketCount ∨ c ≠ t.capacity := by
      by_contra hcon
      push Not at hcon
      exact hsame (by rw [hcon.1, hcon.2])
    cases hb : t.buckets with
    | none =>
      obtain ⟨hs0, hf0⟩ := h.filled_of_none hb
      refine ⟨{ t with bucketCount := n, capacity := c, loadFactor := lf },
        by simp [Table.rehash, hdc, hne, hb], ?_⟩
      constructor
      case sound =>
        have := Table.Sound.of_none (E := E) hn hc lf
        simpa [hb, hs0, hf0] using this
      case entries => simp [bucketList, hb, entries_allocate]
      case changed => simp [hb, hs0, hf0]
      case same => exact fun hs => absurd hs hsame
      all_goals rfl
    | some bs =>
      obtain ⟨bs', hmove, hsound, hsome, hperm⟩ := h.rehashBuckets hb hn hc hsize lf
      refine ⟨⟨c, lf, t.size, t.size, n, bs'⟩, ?_, ?_⟩
      · simp only [Table.rehash, hdc]
        rw [if_pos hne, hb]
        simp only [hmove]
      constructor
      case sound => exact hsound
      case entries =>
        have hl : t.bucketList = bs := by rw [bucketList, hb]; rfl
        rw [hl]
        exact hperm
      case changed => exact fun _ => ⟨rfl, by rw [hsome, hb]; simp⟩
      case same => exact fun hs => absurd hs hsame
      all_goals rfl

end Rehash

/-! ## add -/

section Add

variable {t : Table E F} {determineCapacity : Nat → F → Except Fault (Nat × Nat)}
  {hash : UInt32} {e : E} {bs : List (Bucket E)} {k fuel : Nat}

theorem Chained.marked {n : Nat} (h : Chained n bs) (hn : n.Prime) (hash : UInt32) (k : Nat) :
    Chained n (marked n hash bs k) := by
  refine ⟨by rw [marked_length, h.length], ?_⟩
  intro i hi hp
  rw [marked_present] at hp
  rw [marked_hash]
  obtain ⟨m, hm, he, hc⟩ := h.reach i hi hp
  exact ⟨m, hm, he, fun j hj => (marked_collision hn h.length k _).mpr (.inl (hc j hj))⟩

/-- The table with a new entry in bucket `k` of its chain. -/
def Table.insert (t : Table E F) (hash : UInt32) (e : E) (k : Nat) : Table E F :=
  { t with
    size := t.size + 1
    filledBuckets := if (bucketAt t.bucketList (chain t.bucketCount hash k)).collision
      then t.filledBuckets else t.filledBuckets + 1
    buckets := some (placed t.bucketCount hash e t.bucketList k) }

/-- Bucket `k` is the first one on the chain of the hash without an entry. -/
structure Table.FirstFree (t : Table E F) (hash : UInt32) (k : Nat) : Prop where
  lt : k < t.bucketCount
  present : ∀ j < k, (bucketAt t.bucketList (chain t.bucketCount hash j)).present = true
  free : (bucketAt t.bucketList (chain t.bucketCount hash k)).present = false

theorem Table.FirstFree.unique {j : Nat} (hj : t.FirstFree hash j) (hk : t.FirstFree hash k) :
    j = k := by
  rcases Nat.lt_trichotomy j k with h | h | h
  · have := hk.present j h
    rw [hj.free] at this
    cases this
  · exact h
  · have := hj.present k h
    rw [hk.free] at this
    cases this

variable (h : t.Sound) (hb : t.buckets.isSome = true) (hk : t.FirstFree hash k)

include h in
/-- The search of `add` finds the first free bucket. -/
theorem Table.Sound.firstFree (hash : UInt32) :
    ∃ k, t.FirstFree hash k ∧ freeBucket t.bucketCount hash t.bucketList =
      .ok (chain t.bucketCount hash k, marked t.bucketCount hash t.bucketList k) := by
  have hlt : t.bucketList.countP filled < t.bucketList.length := by
    rw [← h.filled_eq, h.chained.length]
    exact h.filled_lt
  obtain ⟨i, hi, hf⟩ := exists_not_of_countP_lt hlt
  have hp : (bucketAt t.bucketList i).present = false := by
    simp only [filled, Bool.or_eq_false_iff] at hf
    exact hf.1
  obtain ⟨k, hk, h1, h2, h3⟩ := freeBucket_eq h.prime hash ⟨i, h.chained.length ▸ hi, hp⟩
  exact ⟨k, ⟨hk, h1, h2⟩, h3⟩

/-- There is room for a new entry: a bucket may be filled, or the free bucket is a marked
one. -/
def Table.Room (t : Table E F) (hash : UInt32) : Prop :=
  t.filledBuckets < t.capacity ∨ ∀ k, t.FirstFree hash k →
    (bucketAt t.bucketList (chain t.bucketCount hash k)).collision = true

instance decidableFirstFree (t : Table E F) (hash : UInt32) (k : Nat) :
    Decidable (t.FirstFree hash k) :=
  decidable_of_iff (k < t.bucketCount ∧
      (∀ j < k, (bucketAt t.bucketList (chain t.bucketCount hash j)).present = true) ∧
      (bucketAt t.bucketList (chain t.bucketCount hash k)).present = false)
    ⟨fun h => ⟨h.1, h.2.1, h.2.2⟩, fun h => ⟨h.1, h.2, h.3⟩⟩

instance decidableRoom (t : Table E F) (hash : UInt32) : Decidable (t.Room hash) :=
  decidable_of_iff (t.filledBuckets < t.capacity ∨ ∀ k < t.bucketCount, t.FirstFree hash k →
      (bucketAt t.bucketList (chain t.bucketCount hash k)).collision = true)
    (or_congr_right ⟨fun h k hk => h k hk.lt hk, fun h k _ => h k⟩)

variable (hroom : t.Room hash)

include h

include hk hroom in
theorem Table.Sound.insert :
    (t.insert hash e k).Sound ∧
      (entries (t.insert hash e k).bucketList).Perm ((hash, e) :: entries t.bucketList) := by
  have hperm := h.chained.placed_entries h.prime e hk.free
  have hfilled := h.chained.placed_filled h.prime e hk.lt hk.present hk.free
  refine ⟨⟨h.prime, h.capacity_lt, h.chained.place h.prime e hk.lt, ?_, ?_, ?_⟩, hperm⟩
  · change t.size + 1 = (placed t.bucketCount hash e t.bucketList k).countP present
    rw [← length_entries, hperm.length_eq, length_cons, h.entries_length]
  · change (if _ then _ else _) = (placed t.bucketCount hash e t.bucketList k).countP filled
    rw [hfilled, ← h.filled_eq]
    split <;> rfl
  · change (if _ then _ else _) < t.bucketCount
    split
    · exact h.filled_lt
    · rename_i hc
      rcases hroom with hr | hr
      · exact Nat.lt_of_le_of_lt hr h.capacity_lt
      · exact absurd (hr k hk) hc

section Turn

include hb hk

theorem addLoop_turn : addLoop determineCapacity hash e (fuel + 1) t =
    if ¬ (bucketAt t.bucketList (chain t.bucketCount hash k)).collision = true ∧
        t.capacity ≤ t.filledBuckets then
      match Table.rehash determineCapacity
          { t with buckets := some (marked t.bucketCount hash t.bucketList k) }
          (t.capacity * 2) t.loadFactor with
      | .error err => .error err
      | .ok t => addLoop determineCapacity hash e fuel t
    else .ok (chain t.bucketCount hash k, t.insert hash e k) := by
  obtain ⟨bs, hb⟩ := Option.isSome_iff_exists.mp hb
  have hl : t.bucketList = bs := by rw [Table.bucketList, hb]; rfl
  obtain ⟨k', hk', heq⟩ := h.firstFree hash
  obtain rfl := hk.unique hk'
  have hcol : (bucketAt (marked t.bucketCount hash t.bucketList k)
      (chain t.bucketCount hash k)).collision = _ := h.chained.free_collision h.prime hk.lt
  simp only [addLoop, hb]
  rw [← hl, heq]
  dsimp only
  rw [hcol]
  rfl

include hroom in
theorem addLoop_room : addLoop determineCapacity hash e (fuel + 1) t =
      .ok (chain t.bucketCount hash k, t.insert hash e k) := by
  rw [addLoop_turn h hb hk, if_neg]
  rintro ⟨hc, hle⟩
  rcases hroom with hr | hr
  · omega
  · exact hc (hr k hk)

end Turn

omit h in
include hk in
theorem Table.FirstFree.full (hfull : ¬ t.Room hash) :
    ¬ (bucketAt t.bucketList (chain t.bucketCount hash k)).collision = true ∧
      t.capacity ≤ t.filledBuckets := by
  refine ⟨fun hc => hfull (.inr fun j hj => ?_), not_lt.mp fun hr => hfull (.inl hr)⟩
  rw [hj.unique hk]
  exact hc

include hk in
/-- Marking the chain of a hash up to the free bucket keeps a table sound. -/
theorem Table.Sound.mark :
    Table.Sound { t with buckets := some (BasicHashtable.marked t.bucketCount hash t.bucketList k) } := by
  refine ⟨h.prime, h.capacity_lt, h.chained.marked h.prime hash k, ?_, ?_, h.filled_lt⟩
  · change t.size = (BasicHashtable.marked t.bucketCount hash t.bucketList k).countP present
    rw [← length_entries, marked_entries h.prime h.chained.length, h.entries_length]
  · change t.filledBuckets = (BasicHashtable.marked t.bucketCount hash t.bucketList k).countP filled
    rw [marked_filled h.prime h.chained.length hk.present, h.filled_eq]

omit h

/-- A table that grows to the sizes `n` and `c` has room for a new entry. -/
structure Table.Grows (determineCapacity : Nat → F → Except Fault (Nat × Nat)) (t : Table E F)
    (n c : Nat) : Prop where
  determined : determineCapacity (max (t.capacity * 2) t.size) t.loadFactor = .ok (n, c)
  prime : n.Prime
  lt : c < n
  changed : (n, c) ≠ (t.bucketCount, t.capacity)
  room : t.size < c
  entries : t.size ≠ 0

/-- What `add` makes of a table. -/
structure Added (t : Table E F) (hash : UInt32) (e : E) (t' : Table E F) : Prop where
  sound : t'.Sound
  size : t'.size = t.size + 1
  entries : (entries t'.bucketList).Perm ((hash, e) :: entries t.bucketList)
  filled : t'.filledBuckets ≤ t'.capacity ∨
    t'.filledBuckets = t.filledBuckets ∧ t'.capacity = t.capacity

include h hk hroom in
theorem Table.Sound.added (e : E) : Added t hash e (t.insert hash e k) := by
  obtain ⟨hs, hp⟩ := h.insert (e := e) hk hroom
  refine ⟨hs, rfl, hp, ?_⟩
  by_cases hc : (bucketAt t.bucketList (chain t.bucketCount hash k)).collision = true
  · exact .inr ⟨if_pos hc, rfl⟩
  · have hlt := hroom.resolve_right fun hr => hc (hr k hk)
    exact .inl ((if_neg hc).trans_le hlt)

include h hb in
/-- The loop of `add` ends when there is room, or when there is room after one growth. -/
theorem Table.Sound.addLoop (hok : t.Room hash ∨ ∃ n c, t.Grows determineCapacity n c) (e : E)
    (fuel : Nat) :
    ∃ i t', addLoop determineCapacity hash e (fuel + 2) t = .ok (i, t') ∧ Added t hash e t' := by
  obtain ⟨k, hk, -⟩ := h.firstFree hash
  by_cases hroom : t.Room hash
  · exact ⟨_, _, addLoop_room h hb hk hroom, h.added hk hroom e⟩
  · obtain ⟨n, c, hg⟩ := hok.resolve_left hroom
    have hm := h.mark hk
    obtain ⟨t1, hre, hr⟩ := hm.rehash hg.determined hg.prime hg.lt (hg.room.trans hg.lt)
    obtain ⟨hf1, hb1⟩ := hr.changed hg.changed
    have hroom1 : t1.Room hash := .inl (by rw [hf1, hr.capacity]; exact hg.room)
    obtain ⟨k1, hk1, -⟩ := hr.sound.firstFree hash
    have hadd := hr.sound.added hk1 hroom1 e
    refine ⟨chain t1.bucketCount hash k1, t1.insert hash e k1, ?_, hadd.sound,
      hadd.size.trans (congrArg (· + 1) hr.size), ?_, ?_⟩
    · rw [addLoop_turn h hb hk, if_pos (hk.full hroom), hre]
      exact addLoop_room hr.sound (hb1.mpr ⟨rfl, hg.entries⟩) hk1 hroom1
    · refine hadd.entries.trans ((hr.entries.trans ?_).cons _)
      rw [bucketList, Option.getD_some, marked_entries h.prime h.chained.length]
    · refine .inl (hadd.filled.elim id fun ⟨hf, hc⟩ => ?_)
      rw [hf, hc, hf1, hr.capacity]
      exact hg.room.le

/-- `add` works on a table with buckets. -/
def Table.allocated (t : Table E F) : Table E F := { t with buckets := some t.bucketList }

include h in
theorem Table.Sound.allocated : t.allocated.Sound := ⟨h.1, h.2, h.3, h.4, h.5, h.6⟩

include h in
/-- With room the entry goes into the first free bucket of its chain. -/
theorem Table.Sound.add_room (hroom : t.Room (trimHash hash)) (e : E) :
    ∃ k, t.FirstFree (trimHash hash) k ∧ t.add determineCapacity hash e =
      .ok (chain t.bucketCount (trimHash hash) k, t.insert (trimHash hash) e k) := by
  obtain ⟨k, hk, -⟩ := h.allocated.firstFree (trimHash hash)
  have hroom' : t.allocated.Room (trimHash hash) :=
    hroom.imp_right fun hr k hk => hr k ⟨hk.1, hk.2, hk.3⟩
  exact ⟨k, ⟨hk.1, hk.2, hk.3⟩, addLoop_room h.allocated rfl hk hroom'⟩

include h in
theorem Table.Sound.add (hok : t.Room (trimHash hash) ∨ ∃ n c, t.Grows determineCapacity n c)
    (e : E) :
    ∃ i t', t.add determineCapacity hash e = .ok (i, t') ∧ Added t (trimHash hash) e t' := by
  have hok' : t.allocated.Room (trimHash hash) ∨ ∃ n c, t.allocated.Grows determineCapacity n c := by
    rcases hok with hr | ⟨n, c, hg⟩
    · refine .inl (hr.imp_right fun hr k hk => hr k ⟨hk.1, hk.2, hk.3⟩)
    · exact .inr ⟨n, c, hg.1, hg.2, hg.3, hg.4, hg.5, hg.6⟩
  obtain ⟨i, t', hadd, ha⟩ := h.allocated.addLoop rfl hok' e 28
  exact ⟨i, t', hadd, ha.sound, ha.size, ha.entries, ha.filled⟩

end Add

end SystemCore.Libutils.BasicHashtable
