import SystemCore.Libutils.LruCells

/-!
# The order of the cache

The links of the cache stand for a list that has every entry of the table once. Read off as
pairs of keys and values it is a queue, with the oldest entry first, and every call does to it
what it should. `put` may move all entries to a new table in between, and the queue is the same
after that.
-/
namespace SystemCore.Libutils.LruCache

open BasicHashtable Lib Lib.LinkedList List

variable {K V : Type}

/-! ## The queue -/

section Queue

theorem mem_keys_split (q₁ q₂ : List (K × V)) (key : K) (value : V) :
    key ∈ (q₁ ++ (key, value) :: q₂).map Prod.fst := by simp

variable [DecidableEq K]

def without (q : List (K × V)) (key : K) : List (K × V) := q.filter fun p => p.1 ≠ key

def Queue.get (q : List (K × V)) (key : K) : Option V × List (K × V) :=
  match q.find? fun p => p.1 = key with
  | none => (none, q)
  | some p => (some p.2, without q key ++ [p])

def Queue.remove (q : List (K × V)) (key : K) : Bool × List (K × V) :=
  if key ∈ q.map Prod.fst then (true, without q key) else (false, q)

def Queue.removeOldest (q : List (K × V)) : Bool × List (K × V) := (q ≠ [], q.tail)

def Queue.evict (maxCapacity : UInt32) (q : List (K × V)) : List (K × V) :=
  if maxCapacity ≠ kUnlimitedCapacity ∧ maxCapacity.toNat ≤ q.length then q.tail else q

def Queue.put (maxCapacity : UInt32) (q : List (K × V)) (key : K) (value : V) :
    Bool × List (K × V) :=
  let q := Queue.evict maxCapacity q
  if key ∈ q.map Prod.fst then (false, q) else (true, q ++ [(key, value)])

variable {q₁ q₂ : List (K × V)} {value : V}

theorem without_split {key : K} (h : ((q₁ ++ (key, value) :: q₂).map Prod.fst).Nodup) :
    without (q₁ ++ (key, value) :: q₂) key = q₁ ++ q₂ := by
  rw [map_append, map_cons] at h
  have hne : ∀ p, p ∈ q₁ ∨ p ∈ q₂ → p.1 ≠ key := fun p hp =>
    ne_of_split h (hp.imp (mem_map_of_mem) (mem_map_of_mem))
  have h₁ : q₁.filter (fun p => p.1 ≠ key) = q₁ :=
    filter_eq_self.mpr fun p hp => by simpa using hne p (.inl hp)
  have h₂ : q₂.filter (fun p => p.1 ≠ key) = q₂ :=
    filter_eq_self.mpr fun p hp => by simpa using hne p (.inr hp)
  rw [without, filter_append, filter_cons_of_neg (by simp), h₁, h₂]

theorem find?_split {key : K} (h : ((q₁ ++ (key, value) :: q₂).map Prod.fst).Nodup) :
    (q₁ ++ (key, value) :: q₂).find? (fun p => p.1 = key) = some (key, value) := by
  rw [map_append, map_cons] at h
  have hnone : q₁.find? (fun p => p.1 = key) = none :=
    List.find?_eq_none.mpr fun p hp heq =>
      ne_of_split h (.inl (mem_map_of_mem hp)) (by simpa using heq)
  rw [List.find?_append, hnone]
  simp

end Queue

/-! ## The cache in order -/

def queue (t : Table (Entry K V) Binary32) (l : List Nat) : List (K × V) := l.filterMap (pairAt t)

/-- The links stand for the list, which has each entry of the table once, and each key once. -/
structure Cache.Ordered (hashType : K → UInt32) (c : Cache K V) (l : List Nat) : Prop where
  table : TableOk hashType c.table
  lists : c.links.Lists l
  mem : ∀ i, i ∈ l ↔ (pairAt c.table i).isSome = true
  keys : ((queue c.table l).map Prod.fst).Nodup
  size : c.table.size = l.length

section Ordered

variable {hashType : K → UInt32} {c c' : Cache K V} {l pre post : List Nat} {i : Nat} {key : K}
  {value : V}

theorem queue_split {t : Table (Entry K V) Binary32} (pre post : List Nat) (h : pairAt t i = some (key, value)) :
    queue t (pre ++ i :: post) = queue t pre ++ (key, value) :: queue t post := by
  rw [queue, filterMap_append, filterMap_cons_some h]
  rfl

theorem Cache.Ordered.queue_length (h : c.Ordered hashType l) :
    (queue c.table l).length = l.length := by
  have hall : ∀ i ∈ l, (pairAt c.table i).isSome = true := fun i hi => (h.mem i).mp hi
  rw [queue, length_filterMap_eq_countP, countP_eq_length]
  exact hall

theorem Cache.Ordered.length_le (h : c.Ordered hashType l) :
    l.length ≤ c.table.filledBuckets := by
  rw [← h.size, h.table.sound.size_eq, h.table.sound.filled_eq]
  exact countP_mono_left fun b _ hp => filled_of_present hp

theorem queue_congr {t t' : Table (Entry K V) Binary32} (h : ∀ i ∈ l, pairAt t' i = pairAt t i) :
    queue t' l = queue t l :=
  filterMap_congr h

/-- Detaching one entry of the list. -/
theorem Cache.Ordered.detach (h : c.Ordered hashType (pre ++ i :: post)) :
    ∃ c', c.detachFromCache i = .ok c' ∧ Relinked hashType c c' ∧ c'.links.Lists (pre ++ post) ∧
      c'.links.parent i = none ∧ c'.links.child i = none := by
  have hmem : ∀ j, j ∈ pre ∨ j ∈ post → (pairAt c.table j).isSome = true := fun j hj =>
    (h.mem j).mp (by rcases hj with hj | hj <;> simp [hj])
  have hparent : c.links.parent i = pre.getLast? := h.lists.parent rfl
  have hchild : c.links.child i = post.head? := h.lists.child rfl
  obtain ⟨c', hdet, hre, hl⟩ := detachFromCache_ok h.table ((h.mem i).mp (by simp))
    (fun p hp => hmem p (.inl (mem_of_getLast? (hparent.symm.trans hp))))
    (fun p hp => hmem p (.inr (mem_of_head? (hchild.symm.trans hp))))
    (fun hp => ne_of_split h.lists.nodup
      (.inl (mem_of_getLast? (hparent.symm.trans hp))) rfl)
  refine ⟨c', hdet, hre, hl ▸ h.lists.detach, ?_, ?_⟩
  · rw [hl, Links.detach]
    simp
  · rw [hl, Links.detach]
    simp

/-- Attaching an entry that is not in the list. -/
theorem attach_ordered (ht : TableOk hashType c.table) (hl : c.links.Lists l) (hi : i ∉ l)
    (hp : c.links.parent i = none) (hc : c.links.child i = none)
    (hmem : ∀ j, j ∈ l ++ [i] ↔ (pairAt c.table j).isSome = true)
    (hkeys : ((queue c.table (l ++ [i])).map Prod.fst).Nodup) (hsize : c.table.size = l.length + 1) :
    ∃ c', c.attachToCache i = .ok c' ∧ Relinked hashType c c' ∧
      c'.Ordered hashType (l ++ [i]) := by
  obtain ⟨c', hatt, hre, hlinks⟩ := attachToCache_ok ht ((hmem i).mp (by simp)) (fun y hy =>
    (hmem y).mp (mem_append_left _ (mem_of_getLast? (hl.youngest.symm.trans hy))))
  have hcounts := congrArg Counts.size hre.counts
  refine ⟨c', hatt, hre, hre.table, hlinks ▸ hl.attach hi hp hc, ?_, ?_, ?_⟩
  · rw [hre.pairs]
    exact hmem
  · rw [queue, hre.pairs]
    exact hkeys
  · rw [show c'.table.size = c.table.size from hcounts, hsize, length_append, length_singleton]

/-- Detaching an entry and attaching it again. -/
theorem Cache.Ordered.touch (h : c.Ordered hashType (pre ++ i :: post)) :
    ∃ c₁ c₂, c.detachFromCache i = .ok c₁ ∧ c₁.attachToCache i = .ok c₂ ∧
      Relinked hashType c c₂ ∧ c₂.Ordered hashType (pre ++ post ++ [i]) := by
  obtain ⟨c₁, h₁, hre, hl, hp, hc⟩ := h.detach
  have hcounts := congrArg Counts.size hre.counts
  have hperm : (pre ++ post ++ [i]).Perm (pre ++ i :: post) := by
    rw [append_assoc]
    exact (perm_append_singleton i post).append_left pre
  obtain ⟨c₂, h₂, hre₂, ho⟩ := attach_ordered hre.table hl
    (nodup_middle.mp h.lists.nodup).notMem hp hc
    (fun j => by rw [hperm.mem_iff, hre.pairs]; exact h.mem j)
    (by
      rw [queue, hre.pairs]
      exact ((hperm.filterMap _).map _).nodup_iff.mpr h.keys)
    (by rw [show c₁.table.size = c.table.size from hcounts, h.size]; simp; omega)
  exact ⟨c₁, c₂, h₁, h₂, hre.trans hre₂, ho⟩

/-- Detaching an entry and taking it out of the table. -/
theorem Cache.Ordered.drop (h : c.Ordered hashType (pre ++ i :: post))
    (hpair : pairAt c.table i = some (key, value)) :
    ∃ c₁ t, c.detachFromCache i = .ok c₁ ∧ c₁.table.removeAt i = .ok t ∧
      { c₁ with table := t }.Ordered hashType (pre ++ post) ∧
      queue t (pre ++ post) = queue c.table pre ++ queue c.table post ∧
      t.filledBuckets ≤ c.table.filledBuckets ∧ t.capacity = c.table.capacity ∧
      t.bucketCount = c.table.bucketCount ∧ c₁.maxCapacity = c.maxCapacity := by
  obtain ⟨c₁, h₁, hre, hl, hp, hc⟩ := h.detach
  obtain ⟨e, he⟩ : ∃ e, cell c₁.table i = some e :=
    pairAt_isSome.mp (by rw [hre.pairs, hpair]; rfl)
  obtain ⟨t, hrem, hok, hcell, hsize, hfilled, hcap, hcount⟩ := removeAt_ok hre.table he
  have hcounts := hre.counts
  simp only [Cache.counts, Counts.mk.injEq] at hcounts
  have hi : i ∉ pre ++ post := (nodup_middle.mp h.lists.nodup).notMem
  have hpairs : ∀ j, pairAt t j = if j = i then none else pairAt c.table j := by
    intro j
    rw [← hre.pairs]
    exact pairAt_update hcell j
  have hqueue : queue t (pre ++ post) = queue c.table pre ++ queue c.table post := by
    have hrest : ∀ j ∈ pre ++ post, pairAt t j = pairAt c.table j := fun j hj =>
      (hpairs j).trans (if_neg (ne_of_mem_of_not_mem hj hi))
    rw [queue_congr hrest, queue, filterMap_append]
    rfl
  have hlinks := links_update hcell hp.symm hc.symm
  refine ⟨c₁, t, h₁, hrem, ⟨hok, hlinks ▸ hl, ?_, ?_, ?_⟩, hqueue, hcounts.2.1 ▸ hfilled,
    hcap.trans hcounts.2.2.1, hcount.trans hcounts.2.2.2.1, hcounts.2.2.2.2⟩
  · intro j
    by_cases hji : j = i
    · subst hji
      simp [hpairs, hi]
    · have hj := h.mem j
      simp only [mem_append, mem_cons, hji, false_or] at hj
      simp only [hpairs, hji, if_false, mem_append]
      exact hj
  · have hkeys := h.keys
    rw [queue_split _ _ hpair, map_append, map_cons] at hkeys
    rw [hqueue, map_append]
    exact (nodup_middle.mp hkeys).of_cons
  · have hlen := h.size
    simp only [length_append, length_cons] at hlen ⊢
    omega

/-- Adding an entry to the table and attaching it. -/
theorem Cache.Ordered.insert_ok (h : c.Ordered hashType l) (hroom : c.table.hasMoreRoom = true)
    (hkey : key ∉ (queue c.table l).map Prod.fst) (value : V) :
    ∃ c' i, c.insert hashType key value = .ok (true, c') ∧ c'.Ordered hashType (l ++ [i]) ∧
      queue c'.table (l ++ [i]) = queue c.table l ++ [(key, value)] ∧
      c'.table.filledBuckets ≤ c.table.filledBuckets + 1 ∧
      c'.table.capacity = c.table.capacity ∧ c'.maxCapacity = c.maxCapacity := by
  obtain ⟨i, t, hadd, hok, hfree, hcell, hsize, hfilled, hcap⟩ :=
    add_ok h.table hroom ⟨key, value, none, none⟩
  have hnone : pairAt c.table i = none := by rw [pairAt, hfree]; rfl
  have hi : i ∉ l := fun hmem => by
    rw [h.mem i, hnone] at hmem
    cases hmem
  have hpairs : ∀ j, pairAt t j = if j = i then some (key, value) else pairAt c.table j :=
    pairAt_update hcell
  have hparent : c.links.parent i = none := by simp [Cache.links, hfree]
  have hchild : c.links.child i = none := by simp [Cache.links, hfree]
  have hlinks := links_update hcell hparent.symm hchild.symm
  have hqueue : queue t (l ++ [i]) = queue c.table l ++ [(key, value)] := by
    rw [queue, filterMap_append]
    congr 1
    · exact queue_congr fun j hj => (hpairs j).trans (if_neg (ne_of_mem_of_not_mem hj hi))
    · simp [hpairs]
  obtain ⟨c', hatt, hre, ho⟩ := attach_ordered (c := { c with table := t }) (l := l) (i := i) hok
    (hlinks ▸ h.lists) hi (hlinks ▸ hparent) (hlinks ▸ hchild)
    (by
      intro j
      have hj := h.mem j
      by_cases hji : j = i
      · simp [hji, hpairs]
      · simp [hji, hpairs, hj])
    (by
      rw [hqueue, map_append, nodup_append]
      refine ⟨h.keys, by simp, ?_⟩
      intro a ha b hb hab
      simp only [map_cons, map_nil, mem_singleton] at hb
      exact hkey (hb ▸ hab ▸ ha))
    (by rw [hsize, h.size])
  have hcounts := hre.counts
  simp only [Cache.counts, Counts.mk.injEq] at hcounts
  refine ⟨c', i, ?_, ho, ?_, ?_, hcounts.2.2.1.trans hcap, hcounts.2.2.2.2⟩
  · simp only [Cache.insert, hadd, bind, Except.bind, hatt]
    rfl
  · rw [queue, hre.pairs]
    exact hqueue
  · rw [hcounts.2.1]
    exact hfilled

end Ordered

end SystemCore.Libutils.LruCache
