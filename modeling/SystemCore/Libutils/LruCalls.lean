import SystemCore.Libutils.LruOrder

/-!
# The calls of the cache

Every call returns and does to the queue of the cache what it should. The one exception is a
`put` that needs more buckets than the largest table has: `determineCapacity` then reads past
the end of `PRIMES`.
-/
namespace SystemCore.Libutils.LruCache

open BasicHashtable Lib Lib.LinkedList List Cache Queue

variable {K V : Type}

/-- The cache is in order and has the entries of the queue, and no more than it may have. -/
structure Cache.Holds (hashType : K → UInt32) (c : Cache K V) (q : List (K × V)) : Prop where
  ordered : ∃ l, c.Ordered hashType l ∧ queue c.table l = q
  bounded : c.maxCapacity ≠ kUnlimitedCapacity → q.length ≤ c.maxCapacity.toNat

/-- No more buckets are filled, and the sizes are the same. -/
structure Shrunk (c c' : Cache K V) : Prop where
  filled : c'.table.filledBuckets ≤ c.table.filledBuckets
  capacity : c'.table.capacity = c.table.capacity
  bucketCount : c'.table.bucketCount = c.table.bucketCount
  maxCapacity : c'.maxCapacity = c.maxCapacity

theorem Shrunk.refl (c : Cache K V) : Shrunk c c := ⟨le_rfl, rfl, rfl, rfl⟩

variable {hashType : K → UInt32}

theorem newTable_default {m n k : Nat} (h : determineCapacity m threeQuarters = .ok (n, k))
    (hashType : K → UInt32) :
    ∃ t : Table (Entry K V) Binary32, newTable determineCapacity m threeQuarters = .ok t ∧
      TableOk hashType t ∧ (∀ i, cell t i = none) ∧ t.size = 0 ∧ t.filledBuckets = 0 ∧
      t.capacity = k := by
  have hs := determineCapacity_sizing h
  refine ⟨⟨k, threeQuarters, 0, 0, n, none⟩, by rw [newTable, h], ⟨?_, ?_, ?_, ?_⟩, ?_, rfl, rfl, rfl⟩
  · exact Table.Sound.of_none hs.prime hs.lt _
  · intro p hp
    rw [Table.bucketList, Option.getD_none, entries_allocate] at hp
    cases hp
  · exact Nat.zero_le _
  · exact defaultSizes_of_ok h
  · intro i
    rw [cell, Table.bucketList, Option.getD_none, bucketAt_allocate]
    rfl

variable {t : Table (Entry K V) Binary32}

/-- A cache with an empty table and no links. -/
theorem holds_nil (h : TableOk hashType t) (hcell : ∀ i, cell t i = none) (hsize : t.size = 0)
    (maxCapacity : UInt32) : Cache.Holds hashType ⟨t, none, none, maxCapacity⟩ [] := by
  refine ⟨⟨[], ⟨h, ⟨nodup_nil, rfl, rfl, ?_, ?_⟩, ?_, nodup_nil, hsize⟩, rfl⟩, ?_⟩
  · intro pre i post hl
    simp at hl
  · intro pre i post hl
    simp at hl
  · intro i
    rw [pairAt, hcell]
    simp
  · intro _
    exact Nat.zero_le _

theorem cell_of_entries_nil (h : t.Sound) (hnil : entries t.bucketList = []) (i : Nat) :
    cell t i = none := by
  by_contra hne
  obtain ⟨e, he⟩ := Option.ne_none_iff_exists'.mp hne
  have hi := h.lt_of_present (present_iff.mpr ⟨e, he⟩)
  rw [← h.chained.length] at hi
  have hmem := mem_entries hi he
  rw [hnil] at hmem
  cases hmem

theorem clear_bucketCount (t : Table (Entry K V) Binary32) :
    t.clear.bucketCount = t.bucketCount := by
  unfold Table.clear
  split
  · rfl
  · split <;> rfl

/-! ## Finding and removing -/

variable [DecidableEq K] {c c' : Cache K V} {l : List Nat} {q : List (K × V)} {key : K} {value : V}

theorem holds_iff {i : Nat} :
    (bucketAt t.bucketList i).holds Entry.key key = true ↔
      ∃ value, pairAt t i = some (key, value) := by
  rw [pairAt, cell]
  cases he : (bucketAt t.bucketList i).entry with
  | none => simp [Bucket.holds, he]
  | some e => simp [Bucket.holds, he]

theorem Cache.Ordered.find_ok (h : c.Ordered hashType l) (key : K) :
    (c.find hashType key = .ok none ∧ key ∉ (queue c.table l).map Prod.fst) ∨
      ∃ pre i post value, l = pre ++ i :: post ∧ c.find hashType key = .ok (some i) ∧
        pairAt c.table i = some (key, value) := by
  rcases h.table.sound.find_first h.table.hashed key with ⟨hfind, hnone⟩ | ⟨i, hfind, hholds⟩
  · refine Or.inl ⟨hfind, fun hmem => ?_⟩
    obtain ⟨⟨k, v⟩, hp, rfl⟩ := mem_map.mp hmem
    obtain ⟨i, -, hi⟩ := mem_filterMap.mp hp
    have := hnone i
    rw [holds_iff.mpr ⟨v, hi⟩] at this
    cases this
  · obtain ⟨value, hpair⟩ := holds_iff.mp hholds
    obtain ⟨pre, post, hl⟩ := append_of_mem ((h.mem i).mpr (by rw [hpair]; rfl))
    exact Or.inr ⟨pre, i, post, value, hl, hfind, hpair⟩

theorem Cache.Ordered.find_none (h : c.Ordered hashType l)
    (hkey : key ∉ (queue c.table l).map Prod.fst) : c.find hashType key = .ok none := by
  rcases h.find_ok key with ⟨hfind, -⟩ | ⟨pre, i, post, value, rfl, -, hpair⟩
  · exact hfind
  · rw [queue_split _ _ hpair] at hkey
    exact absurd (mem_keys_split ..) hkey

variable (h : c.Holds hashType q)

include h

theorem Cache.Holds.get_ok (key : K) :
    ∃ c', c.get hashType key = .ok ((Queue.get q key).1, c') ∧
      c'.Holds hashType (Queue.get q key).2 ∧ c'.maxCapacity = c.maxCapacity := by
  obtain ⟨l, ho, rfl⟩ := h.ordered
  rcases ho.find_ok key with ⟨hfind, hkey⟩ | ⟨pre, i, post, value, rfl, hfind, hpair⟩
  · have hq : (queue c.table l).find? (fun p => p.1 = key) = none :=
      List.find?_eq_none.mpr fun p hp heq =>
        hkey (mem_map.mpr ⟨p, hp, by simpa using heq⟩)
    simp only [Queue.get, hq]
    exact ⟨c, by simp only [get, hfind, bind, Except.bind]; rfl, ⟨⟨l, ho, rfl⟩, h.bounded⟩, rfl⟩
  · obtain ⟨c₁, c₂, h₁, h₂, hre, ho₂⟩ := ho.touch
    have hkeys := ho.keys
    have hcounts := hre.counts
    simp only [counts, Counts.mk.injEq] at hcounts
    rw [queue_split _ _ hpair] at hkeys
    have hpair₂ : pairAt c₂.table i = some (key, value) := by rw [hre.pairs, hpair]
    obtain ⟨e, he⟩ := pairAt_isSome.mp (by rw [hpair₂]; rfl)
    have hvalue : e.value = value := by
      simpa [pairAt, he] using congrArg (Option.map Prod.snd) hpair₂
    have hbound := h.bounded
    rw [queue_split _ _ hpair] at hbound ⊢
    simp only [Queue.get, find?_split hkeys, without_split hkeys]
    refine ⟨c₂, ?_, ⟨⟨_, ho₂, ?_⟩, ?_⟩, hcounts.2.2.2.2⟩
    · simp only [get, hfind, h₁, h₂, entryAt_ok he, bind, Except.bind, hvalue]
      rfl
    · rw [queue, hre.pairs, filterMap_append, filterMap_append,
        filterMap_cons_some hpair]
      rfl
    · intro hmax
      rw [hcounts.2.2.2.2] at hmax ⊢
      simpa using hbound hmax

theorem Cache.Holds.remove_ok (key : K) :
    ∃ c', c.remove hashType key = .ok ((Queue.remove q key).1, c') ∧
      c'.Holds hashType (Queue.remove q key).2 ∧ Shrunk c c' := by
  obtain ⟨l, ho, rfl⟩ := h.ordered
  rcases ho.find_ok key with ⟨hfind, hkey⟩ | ⟨pre, i, post, value, rfl, hfind, hpair⟩
  · simp only [Queue.remove, if_neg hkey]
    exact ⟨c, by simp only [remove, hfind, bind, Except.bind]; rfl, h, Shrunk.refl c⟩
  · obtain ⟨c₁, t, h₁, hrem, ho₂, hqueue, hfilled, hcap, hcount, hmax⟩ := ho.drop hpair
    have hkeys := ho.keys
    have hbound := h.bounded
    rw [queue_split _ _ hpair] at hkeys hbound ⊢
    simp only [Queue.remove, if_pos (mem_keys_split ..), without_split hkeys]
    refine ⟨{ c₁ with table := t }, ?_, ⟨⟨_, ho₂, hqueue⟩, ?_⟩, hfilled, hcap, hcount, hmax⟩
    · simp only [remove, hfind, h₁, hrem, bind, Except.bind]
      rfl
    · intro hne
      have := hbound (hmax ▸ hne)
      simp only [length_append, length_cons] at this ⊢
      rw [hmax]
      omega

theorem Cache.Holds.removeOldest_ok :
    ∃ c', c.removeOldest hashType = .ok ((Queue.removeOldest q).1, c') ∧
      c'.Holds hashType (Queue.removeOldest q).2 ∧ Shrunk c c' := by
  obtain ⟨l, ho, hq⟩ := h.ordered
  cases l with
  | nil =>
    have hold : c.oldest = none := ho.lists.oldest
    obtain rfl : q = [] := hq.symm
    exact ⟨c, by simp [removeOldest, hold, Queue.removeOldest], h, Shrunk.refl c⟩
  | cons i l =>
    have hold : c.oldest = some i := ho.lists.oldest
    obtain ⟨e, he⟩ := pairAt_isSome.mp ((ho.mem i).mp mem_cons_self)
    have hpair : pairAt c.table i = some (e.key, e.value) := by rw [pairAt, he]; rfl
    have hsplit : q = [] ++ (e.key, e.value) :: queue c.table l := by
      rw [← hq]
      exact queue_split [] l hpair
    have hkeys : (([] ++ (e.key, e.value) :: queue c.table l).map Prod.fst).Nodup :=
      hsplit ▸ hq ▸ ho.keys
    obtain ⟨c', hrem, hh, hs⟩ := h.remove_ok e.key
    rw [hsplit] at hrem hh ⊢
    rw [Queue.remove, if_pos (mem_keys_split ..), without_split hkeys] at hrem hh
    refine ⟨c', ?_, hh, hs⟩
    simp only [removeOldest, hold, entryAt_ok he, bind, Except.bind, hrem]
    simp [Queue.removeOldest]

/-! ## Putting an entry -/

/-- The eviction leaves room for one entry more. -/
theorem Cache.Holds.evict_ok :
    ∃ c', c.evict hashType = .ok c' ∧ c'.Holds hashType (Queue.evict c.maxCapacity q) ∧
      Shrunk c c' ∧ (c.maxCapacity ≠ kUnlimitedCapacity →
        (Queue.evict c.maxCapacity q).length < c.maxCapacity.toNat) := by
  have hsize : c.size = q.length := by
    obtain ⟨l, ho, rfl⟩ := h.ordered
    rw [ho.queue_length]
    exact ho.size
  by_cases hfull : c.maxCapacity ≠ kUnlimitedCapacity ∧ c.maxCapacity.toNat ≤ q.length
  · obtain ⟨c', hrem, hh, hs⟩ := h.removeOldest_ok
    refine ⟨c', ?_, ?_, hs, fun hmax => ?_⟩
    · rw [evict, hsize, if_pos hfull, hrem]
    · rw [Queue.evict, if_pos hfull]
      exact hh
    · have hpos : 0 < c.maxCapacity.toNat := by
        rcases Nat.eq_zero_or_pos c.maxCapacity.toNat with hz | hpos
        · exact absurd (UInt32.toNat_inj.mp hz) hmax
        · exact hpos
      have := h.bounded hmax
      rw [Queue.evict, if_pos hfull, length_tail]
      omega
  · refine ⟨c, ?_, ?_, Shrunk.refl c, fun hmax => ?_⟩
    · rw [evict, hsize, if_neg hfull]
    · rw [Queue.evict, if_neg hfull]
      exact h
    · rw [Queue.evict, if_neg hfull]
      exact not_le.mp fun hle => hfull ⟨hmax, hle⟩

/-- `put` of a new key when there is room for it. -/
theorem Cache.Holds.putDeep_room
    (hlt : c.maxCapacity ≠ kUnlimitedCapacity → q.length < c.maxCapacity.toNat)
    (hkey : key ∉ q.map Prod.fst) (hroom : c.table.hasMoreRoom = true) (value : V) (depth : Nat) :
    ∃ c', c.putDeep hashType (depth + 1) key value = .ok (true, c') ∧
      c'.Holds hashType (q ++ [(key, value)]) ∧
      c'.table.filledBuckets ≤ c.table.filledBuckets + 1 ∧
      c'.table.capacity = c.table.capacity ∧ c'.maxCapacity = c.maxCapacity := by
  obtain ⟨l, ho, rfl⟩ := h.ordered
  have hsize : c.size = (queue c.table l).length := by
    rw [ho.queue_length]
    exact ho.size
  have hevict : c.evict hashType = .ok c := by
    rw [evict, hsize, if_neg fun hfull => absurd (hlt hfull.1) (not_lt.mpr hfull.2)]
  have hfind := ho.find_none hkey
  obtain ⟨c', i, hins, ho', hq', hfilled, hcap, hmax⟩ :=
    ho.insert_ok hroom hkey value
  refine ⟨c', ?_, ⟨⟨_, ho', hq'⟩, fun hne => ?_⟩, hfilled, hcap, hmax⟩
  · have hmake (rehash) : c.makeRoom rehash = .ok c := if_pos hroom
    simp only [putDeep, putWith, hevict, hfind, hmake, bind, Except.bind]
    exact hins
  · rw [hmax] at hne ⊢
    rw [length_append]
    exact hlt hne

omit h in
/-- The loop of `rehash` puts the rest of the old list behind what is there. -/
theorem Cache.Ordered.putAll_ok {old : Cache K V} (ho : old.Ordered hashType l) (depth : Nat)
    {pre post : List Nat} (hl : l = pre ++ post) {fuel : Nat} (hfuel : post.length ≤ fuel)
    (hh : c.Holds hashType (queue old.table pre)) (hfilled : c.table.filledBuckets ≤ pre.length)
    (hcap : l.length ≤ c.table.capacity)
    (hmax : c.maxCapacity ≠ kUnlimitedCapacity → l.length ≤ c.maxCapacity.toNat) :
    ∃ c', putAll (Cache.putDeep hashType (depth + 1)) old.table fuel post.head? c = .ok c' ∧
      c'.Holds hashType (queue old.table l) ∧ c'.table.filledBuckets ≤ l.length ∧
      c'.table.capacity = c.table.capacity ∧ c'.maxCapacity = c.maxCapacity := by
  induction post generalizing pre fuel c with
  | nil =>
    obtain rfl : l = pre := by rw [hl, append_nil]
    refine ⟨c, ?_, hh, hfilled, rfl, rfl⟩
    cases fuel <;> rfl
  | cons i post ih =>
    have hsnoc : l = pre ++ [i] ++ post := by simp [hl]
    obtain ⟨fuel, rfl⟩ : ∃ f, fuel = f + 1 := ⟨fuel - 1, by simp at hfuel; omega⟩
    obtain ⟨e, he⟩ := pairAt_isSome.mp ((ho.mem i).mp (by simp [hl]))
    have hpair : pairAt old.table i = some (e.key, e.value) := by rw [pairAt, he]; rfl
    have hchild : e.child = post.head? := by
      have := ho.lists.child hl
      simpa [links, he] using this
    have hkeys := ho.keys
    rw [hl, queue_split _ _ hpair, map_append, map_cons] at hkeys
    have hkey : e.key ∉ (queue old.table pre).map Prod.fst := fun hmem =>
      ne_of_split hkeys (Or.inl hmem) rfl
    have hlen : (queue old.table pre).length ≤ pre.length := length_filterMap_le _ _
    have hlt : pre.length < l.length := by simp [hl]
    obtain ⟨c₁, hput, hh₁, hf₁, hc₁, hm₁⟩ := hh.putDeep_room
      (fun hne => hlen.trans_lt (hlt.trans_le (hmax hne))) hkey
      (by simp only [Table.hasMoreRoom, decide_eq_true_eq]; omega) e.value depth
    have hqueue : queue old.table (pre ++ [i]) = queue old.table pre ++ [(e.key, e.value)] :=
      queue_split _ _ hpair
    obtain ⟨c₂, hall, hh₂, hf₂, hc₂, hm₂⟩ := ih hsnoc (by simpa using hfuel) (hqueue ▸ hh₁)
      (by simp only [length_append, length_singleton]; omega) (hc₁ ▸ hcap)
      (hm₁ ▸ hmax)
    refine ⟨c₂, ?_, hh₂, hf₂, hc₂.trans hc₁, hm₂.trans hm₁⟩
    simp only [putAll, List.head?_cons, entryAt_ok he, hput, bind, Except.bind, hchild]
    exact hall

theorem Cache.Holds.rehash_ok {n k : Nat}
    (hdc : determineCapacity (c.table.capacity * 2) threeQuarters = .ok (n, k)) (hlt : q.length < k)
    (depth : Nat) :
    ∃ c', c.rehashWith (Cache.putDeep hashType (depth + 1)) (c.table.capacity * 2) = .ok c' ∧
      c'.Holds hashType q ∧ c'.table.hasMoreRoom = true ∧ c'.maxCapacity = c.maxCapacity := by
  obtain ⟨l, ho, rfl⟩ := h.ordered
  rw [ho.queue_length] at hlt
  obtain ⟨t, hnew, hok, hcell, hsize, hfilled, hcap⟩ := newTable_default (V := V) hdc hashType
  have hlen : l.length ≤ c.table.bucketCount :=
    ho.length_le.trans ho.table.sound.filled_lt.le
  obtain ⟨c', hall, hh, hf, hc, hm⟩ := ho.putAll_ok depth (nil_append l).symm
    (c := ⟨t, none, none, c.maxCapacity⟩) hlen (holds_nil hok hcell hsize _)
    (by rw [hfilled]; exact le_rfl) (by rw [hcap]; exact hlt.le)
    (fun hne => by have := h.bounded hne; rwa [ho.queue_length] at this)
  refine ⟨c', ?_, hh, ?_, hm⟩
  · have hold : c.oldest = l.head? := ho.lists.oldest
    simp only [rehashWith, hnew, bind, Except.bind, hold]
    exact hall
  · simp only [Table.hasMoreRoom, decide_eq_true_eq, hc, hcap]
    omega

/-- The table can take another entry, or can be made larger. -/
def Cache.Growable (c : Cache K V) : Prop :=
  c.table.filledBuckets < c.table.capacity ∨ c.table.bucketCount ≠ lastPrime

instance (c : Cache K V) : Decidable c.Growable := inferInstanceAs (Decidable (_ ∨ _))

omit [DecidableEq K] in
omit h in
theorem Shrunk.growable (h : Shrunk c c') (hg : c.Growable) : c'.Growable := by
  have := h.filled
  refine hg.imp (fun hr => ?_) (fun hn => ?_)
  · rw [h.capacity]
    omega
  · rwa [h.bucketCount]

theorem Cache.Holds.makeRoom_ok (hg : c.Growable) (depth : Nat) :
    ∃ c', c.makeRoom (Cache.rehashWith (Cache.putDeep hashType (depth + 1))) = .ok c' ∧
      c'.Holds hashType q ∧ c'.table.hasMoreRoom = true ∧ c'.maxCapacity = c.maxCapacity := by
  by_cases hroom : c.table.hasMoreRoom = true
  · exact ⟨c, if_pos hroom, h, hroom, rfl⟩
  · have hprime := hg.resolve_left fun hr => hroom (by simpa [Table.hasMoreRoom] using hr)
    obtain ⟨l, ho, hq⟩ := h.ordered
    obtain ⟨n, k, hdc, hck⟩ := ho.table.sizes.grows hprime
    have hlen : q.length ≤ c.table.capacity := by
      rw [← hq, ho.queue_length]
      exact ho.length_le.trans ho.table.filled
    obtain ⟨c', h', hh, hroom', hm⟩ := h.rehash_ok hdc (hlen.trans_lt hck) depth
    exact ⟨c', (if_neg hroom).trans h', hh, hroom', hm⟩

omit [DecidableEq K] in
/-- In the largest table `rehash` reads past the end of `PRIMES`. -/
theorem Cache.Holds.makeRoom_error (hg : ¬ c.Growable)
    (put : Cache K V → K → V → Except Fault (Bool × Cache K V)) :
    c.makeRoom (Cache.rehashWith put) = .error .outOfBounds := by
  obtain ⟨hfull, hprime⟩ := not_or.mp hg
  obtain ⟨l, ho, -⟩ := h.ordered
  have hsizes := ho.table.sizes
  rw [not_not.mp hprime] at hsizes
  have hroom : ¬ c.table.hasMoreRoom = true := by simpa [Table.hasMoreRoom] using hfull
  have hnew : newTable (E := Entry K V) determineCapacity (c.table.capacity * 2) threeQuarters =
      .error .outOfBounds := by
    rw [newTable, hsizes.last]
  rw [makeRoom, if_neg hroom]
  simp only [rehashWith, hnew, bind, Except.bind]

omit h in
theorem put_unfold (c : Cache K V) (key : K) (value : V) : c.put hashType key value =
      c.putWith hashType (Cache.rehashWith (Cache.putDeep hashType 29)) key value := rfl

theorem Cache.Holds.put_ok (hg : c.Growable) (key : K) (value : V) :
    ∃ c', c.put hashType key value = .ok ((Queue.put c.maxCapacity q key value).1, c') ∧
      c'.Holds hashType (Queue.put c.maxCapacity q key value).2 ∧
      c'.maxCapacity = c.maxCapacity := by
  obtain ⟨c₁, hevict, hh₁, hs, hlt⟩ := h.evict_ok
  obtain ⟨l, ho, hq⟩ := hh₁.ordered
  simp only [put_unfold, Queue.put, putWith, hevict, bind, Except.bind]
  rcases ho.find_ok key with ⟨hfind, hkey⟩ | ⟨pre, i, post, v, rfl, hfind, hpair⟩
  · rw [hq] at hkey
    rw [if_neg hkey]
    obtain ⟨c₂, h₂, hh₂, hroom, hm₂⟩ := hh₁.makeRoom_ok (hs.growable hg) 28
    obtain ⟨l₂, ho₂, hq₂⟩ := hh₂.ordered
    obtain ⟨c', i, hins, ho', hq', -, -, hmax⟩ :=
      ho₂.insert_ok hroom (hq₂.symm ▸ hkey) value
    have hmax' : c'.maxCapacity = c.maxCapacity := hmax.trans (hm₂.trans hs.maxCapacity)
    refine ⟨c', ?_, ⟨⟨_, ho', by rw [hq', hq₂]⟩, fun hne => ?_⟩, hmax'⟩
    · simp only [hfind, h₂]
      exact hins
    · rw [hmax'] at hne ⊢
      rw [length_append]
      exact hlt hne
  · have hmem : key ∈ (Queue.evict c.maxCapacity q).map Prod.fst := by
      rw [← hq, queue_split _ _ hpair]
      exact mem_keys_split ..
    rw [if_pos hmem]
    exact ⟨c₁, by simp only [hfind]; rfl, hh₁, hs.maxCapacity⟩

/-- An unlimited cache in the largest table cannot take a new key when no more buckets may be
filled. -/
theorem Cache.Holds.put_error (hg : ¬ c.Growable) (hmax : c.maxCapacity = kUnlimitedCapacity)
    (hkey : key ∉ q.map Prod.fst) (value : V) : c.put hashType key value = .error .outOfBounds := by
  obtain ⟨l, ho, rfl⟩ := h.ordered
  have hevict : c.evict hashType = .ok c := if_neg fun hfull => hfull.1 hmax
  have hfind := ho.find_none hkey
  simp only [put_unfold, putWith, hevict, hfind, h.makeRoom_error hg, bind, Except.bind]

omit [DecidableEq K] in
theorem Cache.Holds.clear_ok : c.clear.Holds hashType [] ∧ c.clear.maxCapacity = c.maxCapacity := by
  obtain ⟨l, ho, -⟩ := h.ordered
  obtain ⟨hs, hent, hf, hc⟩ := ho.table.sound.clear
  refine ⟨holds_nil ⟨hs, ?_, ?_, ?_⟩ (cell_of_entries_nil hs hent) ?_ _, rfl⟩
  · intro p hp
    rw [hent] at hp
    cases hp
  · exact hf.trans (hc ▸ ho.table.filled)
  · rw [hc, clear_bucketCount]
    exact ho.table.sizes
  · rw [← hs.entries_length, hent, length_nil]

end SystemCore.Libutils.LruCache
