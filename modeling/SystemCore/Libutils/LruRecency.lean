import SystemCore.Libutils.LruCalls

/-!
# The cache keeps the entries that were used last

What the cache is for: every entry has the time of its last use, which is that of the `put`
that made it or of the last `get` that found it. When the cache is full, the entry that was used
least recently has to go. The list of the cache is the one of its entries in the order of these
times.
-/
namespace SystemCore.Libutils.LruCache

open BasicHashtable Lib Lib.Runs Lib.LinkedList List Queue

variable {K V : Type}

structure Used (K V : Type) where
  key : K
  value : V
  used : Nat

/-- All entries but the one that was used least recently. -/
def dropLeast (s : List (Used K V)) : List (Used K V) :=
  s.filter fun e => s.any fun e' => e'.used < e.used

/-- The entries in the order of their last use. -/
structure ByUse (s : List (Used K V)) (now : Nat) (q : List (K × V)) (l : List (Used K V)) :
    Prop where
  perm : l.Perm s
  sorted : l.Pairwise fun e e' => e.used < e'.used
  past : ∀ e ∈ l, e.used < now
  pairs : l.map (fun e => (e.key, e.value)) = q

section Spec

variable [DecidableEq K]

/-- What a call at some time should do, and give back. -/
def Used.step (maxCapacity : UInt32) (now : Nat) (s : List (Used K V)) :
    Op K V → Result V × List (Used K V)
  | .get key =>
    match s.find? fun e => e.key = key with
    | none => (.value none, s)
    | some e =>
      (.value (some e.value), s.map fun e => if e.key = key then { e with used := now } else e)
  | .put key value =>
    let s := if maxCapacity ≠ kUnlimitedCapacity ∧ maxCapacity.toNat ≤ s.length then dropLeast s
      else s
    if key ∈ s.map Used.key then (.done false, s) else (.done true, s ++ [⟨key, value, now⟩])
  | .remove key => (.done (key ∈ s.map Used.key), s.filter fun e => e.key ≠ key)
  | .removeOldest => (.done (s ≠ []), dropLeast s)
  | .clear => (.unit, [])

/-- All results and the entries in the end, when the first call is made at time `now`. -/
def Used.run (maxCapacity : UInt32) : Nat → List (Used K V) → List (Op K V) →
    List (Result V) × List (Used K V)
  | _, s, [] => ([], s)
  | now, s, op :: ops =>
    let rest := Used.run maxCapacity (now + 1) (Used.step maxCapacity now s op).2 ops
    ((Used.step maxCapacity now s op).1 :: rest.1, rest.2)

def Queue.step (maxCapacity : UInt32) (q : List (K × V)) : Op K V → Result V × List (K × V)
  | .get key => (.value (Queue.get q key).1, (Queue.get q key).2)
  | .put key value =>
    (.done (Queue.put maxCapacity q key value).1, (Queue.put maxCapacity q key value).2)
  | .remove key => (.done (Queue.remove q key).1, (Queue.remove q key).2)
  | .removeOldest => (.done (Queue.removeOldest q).1, (Queue.removeOldest q).2)
  | .clear => (.unit, [])

end Spec

/-! ## The queue is in the order of use -/

section ByUse

variable {s l : List (Used K V)} {now : Nat} {q : List (K × V)} {key : K} {value : V}
  (h : ByUse s now q l)

include h

theorem ByUse.length_eq : s.length = q.length := by
  rw [← h.pairs, length_map, h.perm.length_eq]

theorem ByUse.keys_eq : l.map Used.key = q.map Prod.fst := by
  rw [← h.pairs, map_map]
  rfl

theorem ByUse.mem_keys : key ∈ s.map Used.key ↔ key ∈ q.map Prod.fst := by
  rw [← h.keys_eq]
  exact (h.perm.map Used.key).mem_iff.symm

theorem ByUse.later : ByUse s (now + 1) q l :=
  ⟨h.perm, h.sorted, fun e he => (h.past e he).trans (Nat.lt_succ_self now), h.pairs⟩

/-- The entry at the head was used least recently. -/
theorem ByUse.dropLeast : ByUse (dropLeast s) now q.tail l.tail := by
  refine ⟨?_, h.sorted.tail, fun e he => h.past e (mem_of_mem_tail he), ?_⟩
  · have hany : ∀ e : Used K V, (s.any fun e' => e'.used < e.used) =
        l.any fun e' => e'.used < e.used := fun e => (h.perm.any_eq).symm
    rw [LruCache.dropLeast]
    simp only [hany]
    refine List.Perm.trans ?_ (h.perm.filter _)
    have hsorted := h.sorted
    cases l with
    | nil => exact List.Perm.refl _
    | cons e l =>
      rw [pairwise_cons] at hsorted
      have hhead : ((e :: l).any fun e' => e'.used < e.used) = false := by
        rw [any_eq_false]
        intro e' he'
        rcases mem_cons.mp he' with rfl | he'
        · simp
        · have := hsorted.1 e' he'
          simp only [decide_eq_true_eq]
          omega
      rw [filter_cons_of_neg (by rw [hhead]; decide), tail_cons]
      rw [filter_eq_self.mpr]
      intro e' he'
      exact any_eq_true.mpr ⟨e, mem_cons_self, by simpa using hsorted.1 e' he'⟩
  · rw [map_tail, h.pairs]

theorem ByUse.snoc (key : K) (value : V) :
    ByUse (s ++ [⟨key, value, now⟩]) (now + 1) (q ++ [(key, value)])
      (l ++ [⟨key, value, now⟩]) := by
  refine ⟨h.perm.append_right _, ?_, ?_, by simp [h.pairs]⟩
  · rw [pairwise_append]
    refine ⟨h.sorted, pairwise_singleton _ _, fun e he e' he' => ?_⟩
    rw [mem_singleton.mp he']
    exact h.past e he
  · intro e he
    rcases mem_append.mp he with he | he
    · exact (h.past e he).trans (Nat.lt_succ_self now)
    · rw [mem_singleton.mp he]
      exact Nat.lt_succ_self now

variable [DecidableEq K]

theorem ByUse.without (key : K) :
    ByUse (s.filter fun e => e.key ≠ key) now (without q key)
      (l.filter fun e => e.key ≠ key) := by
  refine ⟨h.perm.filter _, h.sorted.filter _, fun e he => h.past e (mem_of_mem_filter he), ?_⟩
  rw [LruCache.without, ← h.pairs, filter_map]
  rfl

/-- An entry that is used moves to the end. -/
theorem ByUse.touch {e : Used K V} (he : e ∈ s) (hkey : e.key = key)
    (hkeys : (q.map Prod.fst).Nodup) :
    ∃ l', ByUse (s.map fun e => if e.key = key then { e with used := now } else e) (now + 1)
      (LruCache.without q key ++ [(key, e.value)]) l' := by
  subst hkey
  have hsnoc := (h.without e.key).snoc e.key e.value
  refine ⟨_, ?_, hsnoc.sorted, hsnoc.past, hsnoc.pairs⟩
  obtain ⟨l₁, l₂, rfl⟩ := append_of_mem (h.perm.mem_iff.mpr he)
  have hnd := hkeys
  rw [← h.keys_eq, map_append, map_cons] at hnd
  have hne : ∀ x, x ∈ l₁ ∨ x ∈ l₂ → x.key ≠ e.key := fun x hx =>
    ne_of_split hnd (hx.imp mem_map_of_mem mem_map_of_mem)
  have hfilter : ∀ l' : List (Used K V), (∀ x ∈ l', x ∈ l₁ ∨ x ∈ l₂) →
      l'.filter (fun x => decide (x.key ≠ e.key)) = l' ∧
      l'.map (fun x => if x.key = e.key then { x with used := now } else x) = l' := by
    intro l' hl'
    constructor
    · exact filter_eq_self.mpr fun x hx => by simpa using hne x (hl' x hx)
    · exact (map_congr_left fun x hx => if_neg (hne x (hl' x hx))).trans (map_id' l')
  refine List.Perm.trans ?_ (h.perm.map _)
  rw [filter_append, filter_cons_of_neg (by simp), (hfilter l₁ fun x hx => .inl hx).1,
    (hfilter l₂ fun x hx => .inr hx).1, map_append, map_cons,
    (hfilter l₁ fun x hx => .inl hx).2, (hfilter l₂ fun x hx => .inr hx).2, if_pos rfl,
    append_assoc]
  exact (perm_append_singleton _ l₂).append_left l₁

/-- A call does the same to the queue and to the entries with their times. -/
theorem ByUse.step (hkeys : (q.map Prod.fst).Nodup) (maxCapacity : UInt32) (op : Op K V) :
    (Used.step maxCapacity now s op).1 = (Queue.step maxCapacity q op).1 ∧
      ∃ l', ByUse (Used.step maxCapacity now s op).2 (now + 1) (Queue.step maxCapacity q op).2 l' := by
  cases op with
  | get key =>
    simp only [Used.step, Queue.step, Queue.get]
    cases hs : s.find? fun e => e.key = key with
    | none =>
      have hq : q.find? (fun p => p.1 = key) = none := by
        rw [List.find?_eq_none] at hs ⊢
        intro p hp heq
        obtain ⟨e, he, hkey⟩ := mem_map.mp
          (h.mem_keys.mpr (mem_map.mpr ⟨p, hp, of_decide_eq_true heq⟩))
        exact hs e he (by simpa using hkey)
      rw [hq]
      exact ⟨rfl, l, h.later⟩
    | some e =>
      have he := mem_of_find?_eq_some hs
      have hkey : e.key = key := by simpa using List.find?_some hs
      have hmem : (key, e.value) ∈ q := by
        rw [← h.pairs]
        exact mem_map.mpr ⟨e, h.perm.mem_iff.mpr he, by rw [hkey]⟩
      have hq : q.find? (fun p => p.1 = key) = some (key, e.value) := by
        obtain ⟨q₁, q₂, rfl⟩ := append_of_mem hmem
        exact find?_split hkeys
      rw [hq]
      exact ⟨rfl, h.touch he hkey hkeys⟩
  | put key value =>
    obtain ⟨l₁, h₁⟩ : ∃ l₁, ByUse (if maxCapacity ≠ kUnlimitedCapacity ∧
        maxCapacity.toNat ≤ s.length then LruCache.dropLeast s else s) now
        (Queue.evict maxCapacity q) l₁ := by
      rw [Queue.evict, h.length_eq]
      split
      · exact ⟨_, h.dropLeast⟩
      · exact ⟨_, h⟩
    simp only [Used.step, Queue.step, Queue.put]
    by_cases hmem : key ∈ (Queue.evict maxCapacity q).map Prod.fst
    · rw [if_pos (h₁.mem_keys.mpr hmem), if_pos hmem]
      exact ⟨rfl, l₁, h₁.later⟩
    · rw [if_neg (h₁.mem_keys.not.mpr hmem), if_neg hmem]
      exact ⟨rfl, _, h₁.snoc key value⟩
  | remove key =>
    simp only [Used.step, Queue.step, Queue.remove, h.mem_keys]
    by_cases hmem : key ∈ q.map Prod.fst
    · rw [if_pos hmem]
      exact ⟨by simp [hmem], _, (h.without key).later⟩
    · rw [if_neg hmem]
      have hself : LruCache.without q key = q := filter_eq_self.mpr fun p hp => by
        have hne : p.1 ≠ key := fun heq => hmem (mem_map.mpr ⟨p, hp, heq⟩)
        simpa using hne
      exact ⟨by simp [hmem], _, hself ▸ (h.without key).later⟩
  | removeOldest =>
    refine ⟨?_, _, h.dropLeast.later⟩
    have hlen := h.length_eq
    simp only [Used.step, Queue.step, Queue.removeOldest, Result.done.injEq, decide_eq_decide]
    rw [ne_eq, ne_eq, ← length_eq_zero_iff, ← length_eq_zero_iff, hlen]
  | clear => exact ⟨rfl, [], List.Perm.refl _, List.Pairwise.nil, by simp, rfl⟩

end ByUse

/-! ## Whole runs -/

section Runs

variable [DecidableEq K] {hashType : K → UInt32} {c : Cache K V} {q : List (K × V)}
  {rs : List (Result V)}

/-- A `put` finds room in the table, or one of the larger sizes. -/
def Fits (s : List (Result V) × Cache K V) : Op K V → Prop
  | .put _ _ => s.2.Growable
  | _ => True

omit [DecidableEq K] in
instance decidableFits (s : List (Result V) × Cache K V) : (op : Op K V) → Decidable (Fits s op)
  | .put _ _ => inferInstanceAs (Decidable s.2.Growable)
  | .get _ => isTrue trivial
  | .remove _ => isTrue trivial
  | .removeOldest => isTrue trivial
  | .clear => isTrue trivial

/-- A call returns, and does to the cache what it does to the queue. -/
theorem Cache.Holds.exec_ok (h : c.Holds hashType q) (rs : List (Result V)) (op : Op K V)
    (hf : Fits (rs, c) op) :
    ∃ c', exec hashType (rs, c) op = .ok (rs ++ [(Queue.step c.maxCapacity q op).1], c') ∧
      c'.Holds hashType (Queue.step c.maxCapacity q op).2 ∧ c'.maxCapacity = c.maxCapacity := by
  cases op with
  | get key =>
    obtain ⟨c', hget, hh, hm⟩ := h.get_ok key
    exact ⟨c', by simp only [exec, hget, bind, Except.bind]; rfl, hh, hm⟩
  | put key value =>
    obtain ⟨c', hput, hh, hm⟩ := h.put_ok hf key value
    exact ⟨c', by simp only [exec, hput, bind, Except.bind]; rfl, hh, hm⟩
  | remove key =>
    obtain ⟨c', hrem, hh, hs⟩ := h.remove_ok key
    exact ⟨c', by simp only [exec, hrem, bind, Except.bind]; rfl, hh, hs.maxCapacity⟩
  | removeOldest =>
    obtain ⟨c', hrem, hh, hs⟩ := h.removeOldest_ok
    exact ⟨c', by simp only [exec, hrem, bind, Except.bind]; rfl, hh, hs.maxCapacity⟩
  | clear => exact ⟨c.clear, rfl, h.clear_ok⟩

omit [DecidableEq K] in
theorem Cache.Holds.keys_nodup (h : c.Holds hashType q) : (q.map Prod.fst).Nodup := by
  obtain ⟨l, ho, rfl⟩ := h.ordered
  exact ho.keys

theorem run_refines (h : c.Holds hashType q) {s l : List (Used K V)} {now : Nat}
    (hu : ByUse s now q l) {ops : List (Op K V)}
    (hf : Along (exec hashType) Fits (rs, c) ops) :
    ∃ c' q' l', run (exec hashType) (rs, c) ops =
        .ok (rs ++ (Used.run c.maxCapacity now s ops).1, c') ∧ c'.Holds hashType q' ∧
      ByUse (Used.run c.maxCapacity now s ops).2 (now + ops.length) q' l' ∧
      c'.maxCapacity = c.maxCapacity := by
  induction ops generalizing c q s l now rs with
  | nil => exact ⟨c, q, l, by simp [run, Used.run], h, hu, rfl⟩
  | cons op ops ih =>
    obtain ⟨c₁, h₁, hh₁, hm₁⟩ := h.exec_ok rs op hf.1
    obtain ⟨hr, l₁, hu₁⟩ := hu.step h.keys_nodup c.maxCapacity op
    obtain ⟨c', q', l', hrun, hh, hu', hm⟩ := ih hh₁ hu₁ (hf.2 _ h₁)
    rw [hm₁] at hrun hu' hm
    refine ⟨c', q', l', ?_, hh, ?_, hm⟩
    · rw [run_cons_ok h₁, hrun, Used.run, hr]
      simp
    · rw [length_cons, Nat.add_comm ops.length 1, ← Nat.add_assoc]
      exact hu'

omit [DecidableEq K] in
theorem newCache_holds (hashType : K → UInt32) (maxCapacity : UInt32) :
    ∃ c : Cache K V, newCache maxCapacity = .ok c ∧ c.Holds hashType [] ∧
      c.maxCapacity = maxCapacity := by
  have hdc : determineCapacity 0 threeQuarters = .ok (5, 3) := by decide +kernel
  obtain ⟨t, hnew, hok, hcell, hsize, -, -⟩ := newTable_default (V := V) hdc hashType
  refine ⟨⟨t, none, none, maxCapacity⟩, ?_, holds_nil hok hcell hsize maxCapacity, rfl⟩
  simp only [newCache, hnew, bind, Except.bind]
  rfl

/-- For every sequence of calls in which each `put` fits, the calls give back what they should;
the links of the cache then stand for a list of all its entries, in the order of their last
use; the cache has no more entries than it may have; and `rehash` would keep the list. -/
theorem lru_cache_refines (hashType : K → UInt32) (maxCapacity : UInt32) (c : Cache K V)
    (h0 : newCache maxCapacity = .ok c) (ops : List (Op K V))
    (hf : Along (exec hashType) Fits ([], c) ops) :
    ∃ c' l, run (exec hashType) ([], c) ops = .ok ((Used.run maxCapacity 0 [] ops).1, c') ∧
      c'.Ordered hashType l ∧
      (∃ s, ByUse (Used.run maxCapacity 0 [] ops).2 ops.length (queue c'.table l) s) ∧
      (maxCapacity ≠ 0 → c'.size ≤ maxCapacity.toNat) ∧
      ∀ c'', c'.makeRoom (Cache.rehashWith (Cache.putDeep hashType 29)) = .ok c'' →
        ∃ l', c''.Ordered hashType l' ∧ queue c''.table l' = queue c'.table l := by
  obtain ⟨c₀, hnew, hh, hm⟩ := newCache_holds (V := V) hashType maxCapacity
  obtain rfl := Except.ok.inj (h0.symm.trans hnew)
  obtain ⟨c', q, s, hrun, hh', hu, hm'⟩ := run_refines hh (s := []) (l := [])
    ⟨List.Perm.refl _, List.Pairwise.nil, by simp, rfl⟩ hf
  obtain ⟨l, ho, rfl⟩ := hh'.ordered
  rw [hm, Nat.zero_add] at hu
  rw [hm, nil_append] at hrun
  refine ⟨c', l, hrun, ho, ⟨s, hu⟩, fun hne => ?_, fun c'' hroom => ?_⟩
  · have hbound := hh'.bounded
    rw [hm', hm, ho.queue_length, ← ho.size] at hbound
    exact hbound hne
  · by_cases hg : c'.Growable
    · obtain ⟨c₂, h₂, hh₂, -⟩ := hh'.makeRoom_ok hg 28
      obtain rfl := Except.ok.inj (h₂.symm.trans hroom)
      exact hh₂.ordered
    · rw [hh'.makeRoom_error hg] at hroom
      cases hroom

end Runs

theorem lru_cache_refines_one_eviction :
    ∃ c c' : Cache Nat Nat, newCache 2 = .ok c ∧
      run (exec UInt32.ofNat) ([], c) [.put 1 10, .put 2 20, .get 1, .put 3 30, .get 2] =
        .ok ([.done true, .done true, .value (some 10), .done true, .value none], c') := by
  have h0 : newCache 2 = .ok (⟨⟨3, threeQuarters, 0, 0, 5, none⟩, none, none, 2⟩ : Cache Nat Nat) := by
    decide +kernel
  obtain ⟨c', l, hrun, -⟩ := lru_cache_refines UInt32.ofNat 2 _ h0
    [.put 1 10, .put 2 20, .get 1, .put 3 30, .get 2] (by decide +kernel)
  exact ⟨_, c', h0, hrun⟩

section Overrun

def puts (n : Nat) : List (Op Nat Unit) := (List.range n).map fun k => .put k ()

theorem puts_succ (n : Nat) : puts (n + 1) = puts n ++ [.put n ()] := by
  rw [puts, range_succ, map_append]
  rfl

/-- All of them are there, or the table could not be made large enough. -/
theorem puts_run {hashType : Nat → UInt32} {c : Cache Nat Unit} (h : c.Holds hashType [])
    (hmax : c.maxCapacity = kUnlimitedCapacity) (n : Nat) :
    run (exec hashType) ([], c) (puts n) = .error .outOfBounds ∨
      ∃ rs c' q, run (exec hashType) ([], c) (puts n) = .ok (rs, c') ∧ c'.Holds hashType q ∧
        c'.maxCapacity = kUnlimitedCapacity ∧ q.map Prod.fst = List.range n := by
  induction n with
  | zero => exact .inr ⟨[], c, [], rfl, h, hmax, rfl⟩
  | succ n ih =>
    rw [puts_succ, run_append]
    rcases ih with herr | ⟨rs, c', q, hrun, hh, hm, hq⟩
    · rw [herr]
      exact .inl rfl
    · rw [hrun]
      have hkey : n ∉ q.map Prod.fst := by rw [hq]; simp
      by_cases hg : c'.Growable
      · obtain ⟨c₁, h₁, hh₁, hm₁⟩ := hh.exec_ok rs (.put n ()) hg
        have hput : step c'.maxCapacity q (.put n ()) = (.done true, q ++ [(n, ())]) := by
          simp [step, put, evict, hm, hkey]
        rw [hput] at h₁ hh₁
        refine .inr ⟨_, c₁, _, run_cons_ok h₁, hh₁, hm₁.trans hm, ?_⟩
        rw [map_append, hq, range_succ]
        rfl
      · refine .inl ?_
        have hput := hh.put_error hg hm hkey ()
        simp only [run, exec, hput, bind, Except.bind]

theorem Cache.Holds.length_lt {hashType : K → UInt32} {c : Cache K V} {q : List (K × V)}
    (h : c.Holds hashType q) : q.length < lastPrime := by
  obtain ⟨l, ho, rfl⟩ := h.ordered
  have hle : c.table.bucketCount ≤ lastPrime :=
    (by decide : ∀ p ∈ PRIMES, p ≤ lastPrime) _ ho.table.sizes.mem
  rw [ho.queue_length]
  exact ho.length_le.trans_lt (ho.table.sound.filled_lt.trans_le hle)

theorem puts_overrun_primes :
    ∃ c : Cache Nat Unit, newCache kUnlimitedCapacity = .ok c ∧
      run (exec UInt32.ofNat) ([], c) (puts lastPrime) = .error .outOfBounds := by
  obtain ⟨c, hnew, hh, hm⟩ := newCache_holds (V := Unit) UInt32.ofNat kUnlimitedCapacity
  refine ⟨c, hnew, (puts_run hh hm lastPrime).resolve_right ?_⟩
  rintro ⟨rs, c', q, -, hh', -, hq⟩
  have hlt := hh'.length_lt
  rw [← length_map (f := Prod.fst), hq, length_range] at hlt
  exact absurd hlt (Nat.lt_irrefl _)

end Overrun

end SystemCore.Libutils.LruCache
