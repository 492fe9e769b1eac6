import SystemCore.Libutils.LruRecency

/-!
# `put` of a key that is in the cache

`put` makes room before it looks for the key. In a full cache it takes out the oldest entry even
if the key is there, and the listener is told; if the oldest entry is that of the key, the key is
then entered anew. In a cache that is not full nothing happens.
-/
namespace SystemCore.Libutils.LruCache

open BasicHashtable Lib Lib.Runs Lib.LinkedList

section Told

variable {K V : Type} [DecidableEq K] (hashType : K → UInt32)

/-- What `remove` tells the listener: the entry that it is about to take out. -/
def Cache.removeTold (c : Cache K V) (key : K) : Except Fault (List (K × V)) := do
  match ← c.find hashType key with
  | none => return []
  | some index =>
    let entry ← entryAt c.table index
    return [(entry.key, entry.value)]

/-- What `removeOldest` tells the listener. -/
def Cache.removeOldestTold (c : Cache K V) : Except Fault (List (K × V)) :=
  match c.oldest with
  | none => .ok []
  | some index => do
    let entry ← entryAt c.table index
    c.removeTold hashType entry.key

/-- What `put` tells the listener: only its eviction removes an entry, when the key turns out to
be there. -/
def Cache.evictTold (c : Cache K V) : Except Fault (List (K × V)) :=
  if c.maxCapacity ≠ kUnlimitedCapacity ∧ c.maxCapacity.toNat ≤ c.size then
    c.removeOldestTold hashType
  else .ok []

end Told

section Present

variable {K V : Type} [DecidableEq K] {hashType : K → UInt32} {c c' : Cache K V} {q : List (K × V)}
  {key : K} {rs rs' : List (Result V)}

/-- A cache with an entry tells the listener of its oldest one. -/
theorem Cache.Holds.removeOldestTold_cons {p : K × V} (h : c.Holds hashType (p :: q)) :
    c.removeOldestTold hashType = .ok [p] := by
  obtain ⟨l, ho, hq⟩ := h.ordered
  cases l with
  | nil => cases hq
  | cons i l =>
    have hold : c.oldest = some i := ho.lists.oldest
    obtain ⟨e, he⟩ := pairAt_isSome.mp ((ho.mem i).mp List.mem_cons_self)
    have hpair : pairAt c.table i = some (e.key, e.value) := by rw [pairAt, he]; rfl
    have hsplit : queue c.table (i :: l) = [] ++ (e.key, e.value) :: queue c.table l :=
      queue_split [] l hpair
    obtain ⟨hp, -⟩ := List.cons.inj (hq.symm.trans hsplit)
    have hkeys := ho.keys
    rcases ho.find_ok e.key with ⟨-, hno⟩ | ⟨pre, j, post, value, hl, hfind, hpair'⟩
    · rw [hsplit] at hno
      exact absurd (mem_keys_split ..) hno
    · -- the key is found where the oldest entry is
      have hij : i = j := by
        cases pre with
        | nil => exact (List.cons.inj hl).1
        | cons i' pre =>
          obtain ⟨rfl, hrest⟩ := List.cons.inj hl
          have hfront : e.key ∈ (queue c.table (i :: pre)).map Prod.fst := by
            rw [show queue c.table (i :: pre) = [] ++ (e.key, e.value) :: queue c.table pre from
              queue_split [] pre hpair]
            exact mem_keys_split ..
          rw [hl, queue_split _ _ hpair', List.map_append, List.map_cons] at hkeys
          exact absurd rfl (ne_of_split hkeys (Or.inl hfront))
      subst hij
      simp only [Cache.removeOldestTold, hold, entryAt_ok he, Cache.removeTold, hfind, bind,
        Except.bind, hp]
      rfl

/-- The cache is full, so that `put` makes room before it looks for the key. -/
def Cache.Full (c : Cache K V) : Prop :=
  c.maxCapacity ≠ kUnlimitedCapacity ∧ c.maxCapacity.toNat ≤ c.size

/-- `put` of a key that is there does nothing: it returns false, the entries, their values and
their order stay, and the listener is not told of any. -/
def Cache.PutIdle (hashType : K → UInt32) (c : Cache K V) (q : List (K × V)) (key : K) (value : V) :
    Prop :=
  ∃ c', c.put hashType key value = .ok (false, c') ∧ c'.Holds hashType q ∧
    c.evictTold hashType = .ok []

variable (h : c.Holds hashType q)

include h

/-- Without an eviction the key is found, and nothing else is done. -/
theorem Cache.Holds.putIdle_of_not_full (hkey : key ∈ q.map Prod.fst) (value : V) (hfull : ¬ c.Full) :
    c.PutIdle hashType q key value := by
  have hevict : c.evict hashType = .ok c := if_neg hfull
  have htold : c.evictTold hashType = .ok [] := if_neg hfull
  obtain ⟨l, ho, hq⟩ := h.ordered
  rcases ho.find_ok key with ⟨-, hno⟩ | ⟨pre, i, post, v, -, hfind, -⟩
  · rw [hq] at hno
    exact absurd hkey hno
  · refine ⟨c, ?_, h, htold⟩
    simp only [put_unfold, Cache.putWith, hevict, hfind, bind, Except.bind]
    rfl

/-- A full cache tells the listener of its oldest entry. -/
theorem Cache.Holds.told_of_full (hkey : key ∈ q.map Prod.fst) (hfull : c.Full) :
    c.evictTold hashType ≠ .ok [] := by
  have htold : c.evictTold hashType = c.removeOldestTold hashType := if_pos hfull
  rw [htold]
  cases q with
  | nil => cases hkey
  | cons p q =>
    rw [h.removeOldestTold_cons]
    intro heq
    cases heq

/-- A `put` that returns leaves the cache in order, whether or not the table could have grown. -/
theorem Cache.Holds.put_holds {b : Bool} {value : V} (hput : c.put hashType key value = .ok (b, c')) :
    ∃ q', c'.Holds hashType q' := by
  obtain ⟨c₁, hevict, hh₁, hs, hlt⟩ := h.evict_ok
  obtain ⟨l, ho, hq⟩ := hh₁.ordered
  simp only [put_unfold, Cache.putWith, hevict, bind, Except.bind] at hput
  rcases ho.find_ok key with ⟨hfind, hkey⟩ | ⟨pre, i, post, v, -, hfind, -⟩
  · simp only [hfind] at hput
    by_cases hg : c₁.Growable
    · obtain ⟨c₂, h₂, hh₂, hroom, hm₂⟩ := hh₁.makeRoom_ok hg 28
      obtain ⟨l₂, ho₂, hq₂⟩ := hh₂.ordered
      rw [hq] at hkey
      obtain ⟨c₃, i, hins, ho₃, hq₃, -, -, hmax⟩ := ho₂.insert_ok hroom (hq₂.symm ▸ hkey) value
      have hmax' : c₃.maxCapacity = c.maxCapacity := hmax.trans (hm₂.trans hs.maxCapacity)
      simp only [h₂, hins] at hput
      cases hput
      refine ⟨_, ⟨_, ho₃, by rw [hq₃, hq₂]⟩, fun hne => ?_⟩
      rw [hmax'] at hne ⊢
      rw [List.length_append]
      exact hlt hne
    · rw [hh₁.makeRoom_error hg] at hput
      cases hput
  · simp only [hfind] at hput
    cases hput
    exact ⟨_, hh₁⟩

/-- Every call that returns leaves the cache in order. -/
theorem Cache.Holds.exec_holds {op : Op K V} (hexec : exec hashType (rs, c) op = .ok (rs', c')) :
    ∃ q', c'.Holds hashType q' := by
  cases op with
  | put k v =>
    cases hput : c.put hashType k v with
    | error err =>
      simp only [exec, hput, bind, Except.bind] at hexec
      cases hexec
    | ok r =>
      simp only [exec, hput, bind, Except.bind] at hexec
      cases hexec
      exact h.put_holds hput
  | get k =>
    obtain ⟨c₁, h₁, hh, -⟩ := h.exec_ok rs (.get k) trivial
    exact ⟨_, (Prod.mk.inj (Except.ok.inj (h₁.symm.trans hexec))).2 ▸ hh⟩
  | remove k =>
    obtain ⟨c₁, h₁, hh, -⟩ := h.exec_ok rs (.remove k) trivial
    exact ⟨_, (Prod.mk.inj (Except.ok.inj (h₁.symm.trans hexec))).2 ▸ hh⟩
  | removeOldest =>
    obtain ⟨c₁, h₁, hh, -⟩ := h.exec_ok rs .removeOldest trivial
    exact ⟨_, (Prod.mk.inj (Except.ok.inj (h₁.symm.trans hexec))).2 ▸ hh⟩
  | clear =>
    obtain ⟨c₁, h₁, hh, -⟩ := h.exec_ok rs .clear trivial
    exact ⟨_, (Prod.mk.inj (Except.ok.inj (h₁.symm.trans hexec))).2 ▸ hh⟩

theorem Cache.Holds.run_holds {ops : List (Op K V)}
    (hrun : run (exec hashType) (rs, c) ops = .ok (rs', c')) : ∃ q', c'.Holds hashType q' := by
  induction ops generalizing c q rs with
  | nil =>
    cases hrun
    exact ⟨q, h⟩
  | cons op ops ih =>
    cases hexec : exec hashType (rs, c) op with
    | error err =>
      simp only [run, hexec] at hrun
      cases hrun
    | ok s =>
      obtain ⟨rs₁, c₁⟩ := s
      obtain ⟨q₁, hh⟩ := h.exec_holds hexec
      rw [run_cons_ok hexec] at hrun
      exact ih hh hrun

omit h

/-- In every state that calls lead to, `put` of a key that is there does nothing exactly if the
cache is not full. -/
theorem put_present_idle_iff (hashType : K → UInt32) (maxCapacity : UInt32) (c₀ c : Cache K V)
    (h0 : newCache maxCapacity = .ok c₀) (ops : List (Op K V)) (rs : List (Result V))
    (hrun : run (exec hashType) ([], c₀) ops = .ok (rs, c)) :
    ∃ q, c.Holds hashType q ∧
      ∀ key ∈ q.map Prod.fst, ∀ value, c.PutIdle hashType q key value ↔ ¬ c.Full := by
  obtain ⟨c₁, hnew, hh, -⟩ := newCache_holds (V := V) hashType maxCapacity
  obtain rfl := Except.ok.inj (h0.symm.trans hnew)
  obtain ⟨q, hq⟩ := hh.run_holds hrun
  refine ⟨q, hq, fun key hkey value => ⟨?_, ?_⟩⟩
  · rintro ⟨c', -, -, htold⟩ hfull
    exact hq.told_of_full hkey hfull htold
  · exact hq.putIdle_of_not_full hkey value

end Present

/-- One entry in a cache with room for two. -/
theorem put_present_idle_room :
    ∃ c₀ c : Cache Nat Nat, newCache 2 = .ok c₀ ∧
      run (exec UInt32.ofNat) ([], c₀) [.put 1 10] = .ok ([.done true], c) ∧
      ∃ q, c.Holds UInt32.ofNat q ∧
        ∀ key ∈ q.map Prod.fst, ∀ value, c.PutIdle UInt32.ofNat q key value ↔ ¬ c.Full := by
  have h0 : newCache 2 = .ok (⟨⟨3, threeQuarters, 0, 0, 5, none⟩, none, none, 2⟩ : Cache Nat Nat) := by
    decide +kernel
  refine ⟨_, _, h0, rfl, ?_⟩
  exact put_present_idle_iff UInt32.ofNat 2 _ _ h0 [.put 1 10] [.done true] rfl

/-- Two entries in a cache of two: `put` of the younger key takes out the older entry, returns
false and tells the listener; `put` of the older key enters it again with the new value. -/
theorem put_present_evicts :
    ∃ c c₁ c₂ : Cache Nat Nat,
      run (exec UInt32.ofNat) ([], ⟨⟨3, threeQuarters, 0, 0, 5, none⟩, none, none, 2⟩)
        [.put 1 10, .put 2 20] = .ok ([.done true, .done true], c) ∧
      c.evictTold UInt32.ofNat = .ok [(1, 10)] ∧
      c.put UInt32.ofNat 2 99 = .ok (false, c₁) ∧ c₁.size = 1 ∧
      c.put UInt32.ofNat 1 99 = .ok (true, c₂) := by
  refine ⟨_, _, _, rfl, ?_, rfl, ?_, rfl⟩ <;> decide +kernel

end SystemCore.Libutils.LruCache
