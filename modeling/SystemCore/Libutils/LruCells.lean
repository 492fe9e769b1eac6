import SystemCore.Libutils.LruCache
import SystemCore.Libutils.HashMultiset
import SystemCore.Lib.LinkedList

/-!
# The entries of the cache and their links

What the calls of the table and the writes through pointers do to the cells of the cache, that
is, to the entry that each index leads to. Keys and values only change when an entry is added
or removed. The links change as those of a doubly linked list.
-/
namespace SystemCore.Libutils.LruCache

open BasicHashtable Lib Lib.LinkedList Cache

variable {E K V F : Type} {f : Entry K V → Entry K V}

/-! ## The sizes of the table -/

def lastPrime : Nat := 1685759167

/-- Sizes for the default load factor. -/
structure DefaultSizes (n c : Nat) : Prop where
  mem : n ∈ PRIMES
  ne_zero : n ≠ 0
  allowed : allowedEntries n (3 / 4) = some c

theorem defaultSizes_of_ok {m n c : Nat} (h : determineCapacity m threeQuarters = .ok (n, c)) :
    DefaultSizes n c := by
  simp only [threeQuarters, determineCapacity] at h
  split at h
  · cases h
  split at h
  · cases h
  split at h
  · cases h
  rename_i p hfind
  split at h
  · cases h
  rename_i hp
  split at h
  · cases h
  rename_i c' hc
  obtain ⟨rfl, rfl⟩ := Prod.mk.inj (Except.ok.inj h)
  exact ⟨List.mem_of_find?_eq_some hfind, hp, hc⟩

/-- A table of any size but the last can double its capacity. -/
theorem DefaultSizes.grows {n c : Nat} (h : DefaultSizes n c) (hn : n ≠ lastPrime) :
    ∃ n' c', determineCapacity (c * 2) threeQuarters = .ok (n', c') ∧ c < c' := by
  have hall : ∀ p ∈ PRIMES, p ≠ 0 → p ≠ lastPrime → ∀ c ∈ allowedEntries p (3 / 4),
      ((determineCapacity (c * 2) threeQuarters).toOption.any fun s => c < s.2) = true := by
    decide +kernel
  have hp := hall n h.mem h.ne_zero hn c h.allowed
  cases hdc : determineCapacity (c * 2) threeQuarters with
  | error err =>
    rw [hdc] at hp
    cases hp
  | ok s =>
    rw [hdc] at hp
    exact ⟨s.1, s.2, rfl, by simpa [Except.toOption] using hp⟩

theorem DefaultSizes.last {c : Nat} (h : DefaultSizes lastPrime c) :
    determineCapacity (c * 2) threeQuarters = .error .outOfBounds := by
  have hall : ∀ c ∈ allowedEntries lastPrime (3 / 4),
      determineCapacity (c * 2) threeQuarters = .error .outOfBounds := by
    decide +kernel
  exact hall c h.allowed

/-! ## Writing to an entry -/

section Edit

variable {t : Table E F} {i : Nat} {e : E}

theorem countP_setEntry {bs : List (Bucket E)} (hi : i < bs.length) {p : Bucket E → Bool}
    {b : Bucket E} (hp : p b = p (bucketAt bs i)) : (bs.set i b).countP p = bs.countP p := by
  have := countP_set (p := p) hi b
  rw [hp] at this
  omega

/-- Overwriting an entry leaves the table sound. -/
theorem sound_setEntry (h : t.Sound) (he : (bucketAt t.bucketList i).entry = some e) (e' : E) :
    Table.Sound { t with
      buckets := some (t.bucketList.set i { bucketAt t.bucketList i with entry := some e' }) } := by
  have hp : (bucketAt t.bucketList i).present = true := present_iff.mpr ⟨e, he⟩
  have hi : i < t.bucketList.length := h.chained.length.symm ▸ h.lt_of_present hp
  set bs := t.bucketList.set i { bucketAt t.bucketList i with entry := some e' } with hbs
  have hsame : ∀ j, (bucketAt bs j).collision = (bucketAt t.bucketList j).collision ∧
      (bucketAt bs j).hash = (bucketAt t.bucketList j).hash ∧
      (bucketAt bs j).present = (bucketAt t.bucketList j).present := by
    intro j
    by_cases hij : i = j
    · subst hij
      rw [hbs, bucketAt_set_self hi, hp]
      exact ⟨rfl, rfl, rfl⟩
    · rw [hbs, bucketAt_set_ne hij]
      exact ⟨rfl, rfl, rfl⟩
  refine Table.Sound.of_buckets h.prime h.capacity_lt ⟨?_, ?_⟩ ?_ ?_ h.filled_lt
  · rw [hbs, List.length_set, h.chained.length]
  · intro j hj hpj
    rw [(hsame j).2.2] at hpj
    rw [(hsame j).2.1]
    obtain ⟨k, hk, hkj, hc⟩ := h.chained.reach j hj hpj
    exact ⟨k, hk, hkj, fun m hm => ((hsame _).1).trans (hc m hm)⟩
  · rw [h.size_eq, hbs, countP_setEntry hi]
    rw [hp]
    rfl
  · rw [h.filled_eq, hbs, countP_setEntry hi]
    exact (filled_of_present rfl).trans (filled_of_present hp).symm

end Edit

/-! ## Cells -/

def cell (t : Table (Entry K V) Binary32) (i : Nat) : Option (Entry K V) :=
  (bucketAt t.bucketList i).entry

/-- What every call keeps of the table. -/
structure TableOk (hashType : K → UInt32) (t : Table (Entry K V) Binary32) : Prop where
  sound : t.Sound
  hashed : t.Hashed Entry.key hashType
  filled : t.filledBuckets ≤ t.capacity
  sizes : DefaultSizes t.bucketCount t.capacity

section Cells

variable {hashType : K → UInt32} {t : Table (Entry K V) Binary32} {i : Nat} {e : Entry K V}

theorem cell_set {bs : List (Bucket (Entry K V))} (hi : i < bs.length)
    (b : Bucket (Entry K V)) :
    (fun j => (bucketAt (bs.set i b) j).entry) =
      Function.update (fun j => (bucketAt bs j).entry) i b.entry := by
  funext j
  by_cases hij : i = j
  · subst hij
    rw [bucketAt_set_self hi, Function.update_self]
  · rw [bucketAt_set_ne hij, Function.update_of_ne (Ne.symm hij)]

variable (h : TableOk hashType t) (he : cell t i = some e)

include h he in
theorem TableOk.lt_length : i < t.bucketList.length :=
  h.sound.chained.length.symm ▸ h.sound.lt_of_present (present_iff.mpr ⟨e, he⟩)

include he in
theorem TableOk.buckets_eq : t.buckets = some t.bucketList :=
  buckets_of_present (present_iff.mpr ⟨e, he⟩)

include he in
theorem entryAt_ok : entryAt t i = .ok e := by
  rw [cell] at he
  simp only [entryAt, buckets_of_present (present_iff.mpr ⟨e, he⟩), he]

include h he in
theorem editEntryAt_ok (hf : (f e).key = e.key) :
    ∃ bs, editEntryAt t i f = .ok { t with buckets := some bs } ∧
      TableOk hashType { t with buckets := some bs } ∧
      cell { t with buckets := some bs } = Function.update (cell t) i (some (f e)) := by
  have hi := h.lt_length he
  have hb := TableOk.buckets_eq he
  have hcell := cell_set hi { bucketAt t.bucketList i with entry := some (f e) }
  have hs := sound_setEntry h.sound he (f e)
  refine ⟨t.bucketList.set i { bucketAt t.bucketList i with entry := some (f e) }, ?_,
    ⟨hs, hs.hashed_iff.mpr ?_, h.filled, h.sizes⟩, hcell⟩
  · rw [cell] at he
    simp only [editEntryAt, hb, he]
  · intro j e' hj
    have hj' : Function.update (cell t) i (some (f e)) j = some e' := (congrFun hcell j).symm.trans hj
    rw [Table.bucketList, Option.getD_some]
    by_cases hij : i = j
    · subst hij
      rw [Function.update_self] at hj'
      obtain rfl := Option.some.inj hj'
      rw [bucketAt_set_self hi, hf]
      exact h.sound.hashed_iff.mp h.hashed i e he
    · rw [Function.update_of_ne (Ne.symm hij)] at hj'
      rw [bucketAt_set_ne hij]
      exact h.sound.hashed_iff.mp h.hashed j e' hj'

include h he in
theorem removeAt_ok :
    ∃ t', t.removeAt i = .ok t' ∧ TableOk hashType t' ∧
      cell t' = Function.update (cell t) i none ∧ t'.size + 1 = t.size ∧
      t'.filledBuckets ≤ t.filledBuckets ∧ t'.capacity = t.capacity ∧
      t'.bucketCount = t.bucketCount := by
  have hi := h.lt_length he
  obtain ⟨t', hr, hrem⟩ := h.sound.removeAt he
  have hlen := hrem.sound.entries_length
  have hlen' := h.sound.entries_length
  rw [hrem.entries.length_eq, List.length_cons, hlen] at hlen'
  have hr' := hr
  simp only [Table.removeAt, TableOk.buckets_eq he] at hr'
  obtain rfl := Except.ok.inj hr'
  refine ⟨_, hr, ⟨hrem.sound, ?_, hrem.filled.trans h.filled, h.sizes⟩, ?_, hlen', hrem.filled,
    rfl, rfl⟩
  · exact fun p hp => h.hashed p (hrem.entries.mem_iff.mpr (List.mem_cons_of_mem _ hp))
  · exact cell_set hi _

include h in
theorem add_ok (hroom : t.hasMoreRoom = true) (e : Entry K V) :
    ∃ i t', t.add determineCapacity (hashType e.key) e = .ok (i, t') ∧ TableOk hashType t' ∧
      cell t i = none ∧ cell t' = Function.update (cell t) i (some e) ∧ t'.size = t.size + 1 ∧
      t'.filledBuckets ≤ t.filledBuckets + 1 ∧ t'.capacity = t.capacity := by
  have hlt : t.filledBuckets < t.capacity := by simpa [Table.hasMoreRoom] using hroom
  have hR : t.Room (trimHash (hashType e.key)) := Or.inl hlt
  obtain ⟨k, hk, hadd⟩ := h.sound.add_room hR e
  have ha := h.sound.added hk hR e
  have hlen : chain t.bucketCount (trimHash (hashType e.key)) k < _ :=
    h.sound.chained.chain_lt_length h.sound.prime k
  refine ⟨_, _, hadd, ⟨ha.sound, ?_, ?_, h.sizes⟩, ?_, ?_, rfl, ?_, rfl⟩
  · intro p hp
    rcases List.mem_cons.mp (ha.entries.mem_iff.mp hp) with rfl | hp
    · rfl
    · exact h.hashed p hp
  · rcases ha.filled with hf | ⟨hf, hc⟩
    · exact hf
    · rw [hf, hc]
      exact h.filled
  · have := hk.free
    rw [Bucket.present, Option.isSome_eq_false_iff, Option.isNone_iff_eq_none] at this
    exact this
  · refine (cell_set hlen _).trans ?_
    congr 1
    funext j
    exact marked_entry k j
  · dsimp only [Table.insert]
    split <;> omega

end Cells

/-! ## Links -/

def Cache.links (c : Cache K V) : Links Nat where
  parent i := (cell c.table i).bind Entry.parent
  child i := (cell c.table i).bind Entry.child
  oldest := c.oldest
  youngest := c.youngest

def pairAt (t : Table (Entry K V) Binary32) (i : Nat) : Option (K × V) :=
  (cell t i).map fun e => (e.key, e.value)

structure Counts where
  size : Nat
  filled : Nat
  capacity : Nat
  bucketCount : Nat
  maxCapacity : UInt32

def Cache.counts (c : Cache K V) : Counts :=
  ⟨c.table.size, c.table.filledBuckets, c.table.capacity, c.table.bucketCount, c.maxCapacity⟩

/-- Nothing but links has changed. -/
structure Relinked (hashType : K → UInt32) (c c' : Cache K V) : Prop where
  table : TableOk hashType c'.table
  pairs : pairAt c'.table = pairAt c.table
  counts : c'.counts = c.counts

section Links

variable {hashType : K → UInt32} {c c₁ c₂ : Cache K V} {i : Nat} {t : Table (Entry K V) Binary32}

theorem Relinked.trans (h₁ : Relinked hashType c c₁) (h₂ : Relinked hashType c₁ c₂) :
    Relinked hashType c c₂ :=
  ⟨h₂.table, h₂.pairs.trans h₁.pairs, h₂.counts.trans h₁.counts⟩

theorem pairAt_isSome : (pairAt t i).isSome = true ↔ ∃ e, cell t i = some e := by
  rw [pairAt, Option.isSome_map, Option.isSome_iff_exists]

theorem pairAt_update {t' : Table (Entry K V) Binary32} {e : Option (Entry K V)}
    (h : cell t' = Function.update (cell t) i e) (j : Nat) :
    pairAt t' j = if j = i then e.map fun e => (e.key, e.value) else pairAt t j := by
  rw [pairAt, h]
  by_cases hji : j = i
  · simp [hji]
  · simp [hji, pairAt]

/-- A cell with the same links in it as before. -/
theorem links_update {e : Option (Entry K V)} (h : cell t = Function.update (cell c.table) i e)
    (hp : e.bind Entry.parent = c.links.parent i) (hc : e.bind Entry.child = c.links.child i) :
    Cache.links { c with table := t } = c.links := by
  refine Links.ext (funext fun j => ?_) (funext fun j => ?_) rfl rfl
  all_goals
    by_cases hji : j = i
    · subst hji
      simpa [links, h] using by assumption
    · simp [links, h, hji]

variable {e : Entry K V} (h : TableOk hashType c.table) (he : cell c.table i = some e)
  (hi : (pairAt c.table i).isSome = true)
  (hp : ∀ p, c.links.parent i = some p → (pairAt c.table p).isSome = true)
  (hc : ∀ p, c.links.child i = some p → (pairAt c.table p).isSome = true)

include h he in
theorem edit_relinked (hkey : (f e).key = e.key) (hvalue : (f e).value = e.value) :
    ∃ t, editEntryAt c.table i f = .ok t ∧ Relinked hashType c { c with table := t } ∧
      cell t = Function.update (cell c.table) i (some (f e)) := by
  obtain ⟨bs, hedit, hok, hcell⟩ := editEntryAt_ok h he hkey
  refine ⟨_, hedit, ⟨hok, ?_, rfl⟩, hcell⟩
  funext j
  rw [pairAt_update hcell]
  split
  · rename_i hji
    rw [hji, pairAt, he, Option.map_some, Option.map_some, hkey, hvalue]
  · rfl

include h hi in
theorem setParent_ok (p : Option Nat) : ∃ c', c.setParent i p = .ok c' ∧ Relinked hashType c c' ∧
      c'.links = c.links.setParent i p := by
  obtain ⟨e, he⟩ := pairAt_isSome.mp hi
  obtain ⟨t, hedit, hre, hcell⟩ := edit_relinked h he (f := fun e => { e with parent := p }) rfl rfl
  refine ⟨{ c with table := t }, by simp only [setParent, hedit], hre, ?_⟩
  refine Links.ext (funext fun j => ?_) (funext fun j => ?_) rfl rfl
  all_goals
    by_cases hij : j = i
    · subst hij
      simp [links, hcell, he]
    · simp [links, hcell, hij]

include h hi in
theorem setChild_ok (p : Option Nat) : ∃ c', c.setChild i p = .ok c' ∧ Relinked hashType c c' ∧
      c'.links = c.links.setChild i p := by
  obtain ⟨e, he⟩ := pairAt_isSome.mp hi
  obtain ⟨t, hedit, hre, hcell⟩ := edit_relinked h he (f := fun e => { e with child := p }) rfl rfl
  refine ⟨{ c with table := t }, by simp only [setChild, hedit], hre, ?_⟩
  refine Links.ext (funext fun j => ?_) (funext fun j => ?_) rfl rfl
  all_goals
    by_cases hij : j = i
    · subst hij
      simp [links, hcell, he]
    · simp [links, hcell, hij]

include h hi in
theorem attachToCache_ok (hy : ∀ y, c.youngest = some y → (pairAt c.table y).isSome = true) :
    ∃ c', c.attachToCache i = .ok c' ∧ Relinked hashType c c' ∧ c'.links = c.links.attach i := by
  cases hyoung : c.youngest with
  | none =>
    refine ⟨{ c with youngest := some i, oldest := some i }, ?_, ⟨h, rfl, rfl⟩, ?_⟩
    · simp only [attachToCache, hyoung]
    · simp only [Links.attach, links, hyoung]
  | some y =>
    obtain ⟨c₁, h₁, hre₁, hl₁⟩ := setParent_ok h hi (some y)
    obtain ⟨c₂, h₂, hre₂, hl₂⟩ := setChild_ok hre₁.table (i := y)
      (by rw [hre₁.pairs]; exact hy y hyoung) (some i)
    have hre := hre₁.trans hre₂
    refine ⟨{ c₂ with youngest := some i }, ?_, ⟨hre.table, hre.pairs, hre.counts⟩, ?_⟩
    · simp only [attachToCache, hyoung, h₁, h₂, bind, Except.bind]
      rfl
    · have hlinks : c.links.youngest = some y := hyoung
      simp only [Links.attach, hlinks, ← hl₁, ← hl₂]
      rfl

include he in
/-- The links of a node are those in its entry. -/
theorem links_of_cell : c.links.parent i = e.parent ∧ c.links.child i = e.child := by
  simp only [links, he, Option.bind_some, and_self]

include h hi hp in
theorem unlinkParent_ok :
    ∃ c', c.unlinkParent i = .ok c' ∧ Relinked hashType c c' ∧
      c'.links = c.links.skipFromParent i := by
  obtain ⟨e, he⟩ := pairAt_isSome.mp hi
  obtain ⟨hparent, hchild⟩ := links_of_cell he
  simp only [unlinkParent, entryAt_ok he, bind, Except.bind, Links.skipFromParent, hparent, hchild]
  cases hep : e.parent with
  | none => exact ⟨_, rfl, ⟨h, rfl, rfl⟩, rfl⟩
  | some p => exact setChild_ok h (hp p (hparent.trans hep)) e.child

include h hi hc in
theorem unlinkChild_ok :
    ∃ c', c.unlinkChild i = .ok c' ∧ Relinked hashType c c' ∧
      c'.links = c.links.skipFromChild i := by
  obtain ⟨e, he⟩ := pairAt_isSome.mp hi
  obtain ⟨hparent, hchild⟩ := links_of_cell he
  simp only [unlinkChild, entryAt_ok he, bind, Except.bind, Links.skipFromChild, hparent, hchild]
  cases hec : e.child with
  | none => exact ⟨_, rfl, ⟨h, rfl, rfl⟩, rfl⟩
  | some p => exact setParent_ok h (hc p (hchild.trans hec)) e.parent

/-- Going past a node from its parent leaves its own link to its child. -/
theorem skipFromParent_child {s : Links Nat} (hpi : s.parent i ≠ some i) :
    (s.skipFromParent i).child i = s.child i := by
  rw [Links.skipFromParent]
  cases hpar : s.parent i with
  | none => rfl
  | some p =>
    have hne : i ≠ p := fun heq => hpi (heq ▸ hpar)
    simp [hne]

include h hi hp hc in
theorem detachFromCache_ok (hpi : c.links.parent i ≠ some i) :
    ∃ c', c.detachFromCache i = .ok c' ∧ Relinked hashType c c' ∧ c'.links = c.links.detach i := by
  obtain ⟨c₁, h₁, hre₁, hl₁⟩ := unlinkParent_ok h hi hp
  obtain ⟨c₂, h₂, hre₂, hl₂⟩ := unlinkChild_ok hre₁.table (hre₁.pairs ▸ hi) (by
    rw [hre₁.pairs, hl₁, skipFromParent_child hpi]
    exact hc)
  obtain ⟨c₃, h₃, hre₃, hl₃⟩ := setParent_ok hre₂.table (i := i)
    (by rw [hre₂.pairs, hre₁.pairs]; exact hi) none
  obtain ⟨c₄, h₄, hre₄, hl₄⟩ := setChild_ok hre₃.table (i := i)
    (by rw [hre₃.pairs, hre₂.pairs, hre₁.pairs]; exact hi) none
  refine ⟨c₄, ?_, hre₁.trans (hre₂.trans (hre₃.trans hre₄)), ?_⟩
  · simp only [detachFromCache, h₁, h₂, h₃, bind, Except.bind]
    exact h₄
  · rw [hl₄, hl₃, hl₂, hl₁]
    rfl

end Links

end SystemCore.Libutils.LruCache
