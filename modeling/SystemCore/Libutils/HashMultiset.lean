import SystemCore.Libutils.HashRuns
import SystemCore.Libutils.HashSizes

/-!
# The hash table as a multiset

The entries of a key all stand on one chain, before the first bucket on it that was never
filled, and every bucket before one of them is marked. So `find` goes from one of them to the
next along the chain and cannot come round to the first one again. `next` goes through the
buckets in order. Both need entries that are stored with the hash of their key.
-/
namespace SystemCore.Libutils.BasicHashtable

open Lib Lib.Runs List

/-! ## Going through a collection with a cursor

A cursor is moved from one position to the next until it is at its end; before the first
position it is nowhere. When every move takes it to the first match behind the position it
is at, in some order of the positions, it visits the matches in that order. -/

section Cursor

variable {ι ε : Type*}

/-- The positions that a cursor visits until it is at its end. -/
inductive Visits (step : Option ι → Except ε (Option ι)) : Option ι → List ι → Prop
  | done {i : Option ι} : step i = .ok none → Visits step i []
  | more {i : Option ι} {j : ι} {js : List ι} :
      step i = .ok (some j) → Visits step (some j) js → Visits step i (j :: js)

variable {step : Option ι → Except ε (Option ι)} {p : ι → Bool}

theorem visits_filter :
    ∀ (l : List ι) {i : Option ι}, step i = .ok (l.find? p) →
      (∀ pre j post, l = pre ++ j :: post → p j = true → step (some j) = .ok (post.find? p)) →
      Visits step i (l.filter p)
  | [], _, h, _ => .done h
  | a :: l, i, h, hstep => by
    have hrest : ∀ pre j post, l = pre ++ j :: post → p j = true →
        step (some j) = .ok (post.find? p) :=
      fun pre j post hl => hstep (a :: pre) j post (by rw [hl, List.cons_append])
    by_cases ha : p a = true
    · rw [List.find?_cons_of_pos ha] at h
      rw [List.filter_cons_of_pos ha]
      exact .more h (visits_filter l (hstep [] a l rfl ha) hrest)
    · rw [List.find?_cons_of_neg ha] at h
      rw [List.filter_cons_of_neg ha]
      exact visits_filter l h hrest

/-- What stands behind a position, when the positions are numbered. -/
theorem range'_map_split {f : Nat → ι} {s n : Nat} {pre post : List ι} {j : ι}
    (h : (List.range' s n).map f = pre ++ j :: post) :
    ∃ k < n, j = f (s + k) ∧ post = (List.range' (s + k + 1) (n - k - 1)).map f := by
  obtain ⟨l₁, l₂, hl, -, h₂⟩ := List.map_eq_append_iff.mp h
  obtain ⟨k, hk, -, rfl⟩ := List.range'_eq_append_iff.mp hl
  obtain ⟨a, l, hcons, rfl, rfl⟩ := List.map_eq_cons_iff.mp h₂
  obtain ⟨rfl, hpos, rfl⟩ := List.range'_eq_cons_iff.mp hcons
  exact ⟨k, by omega, by rw [Nat.mul_one], by rw [Nat.mul_one]⟩

end Cursor

variable {E K F : Type*}

/-! ## Going through all entries -/

theorem nextLoop_eq (bs : List (Bucket E)) (n i : Nat) : nextLoop bs n i =
    (List.range' i (n - i)).find? fun j => (bucketAt bs j).present := by
  fun_induction nextLoop bs n i with
  | case1 i hlt hp =>
    obtain ⟨d, hd⟩ : ∃ d, n - i = d + 1 := ⟨n - i - 1, by omega⟩
    rw [hd, List.range'_succ, List.find?_cons_of_pos (p := fun j => (bucketAt bs j).present) hp]
  | case2 i hlt hp ih =>
    obtain ⟨d, hd⟩ : ∃ d, n - i = d + 1 := ⟨n - i - 1, by omega⟩
    rw [hd, List.range'_succ, List.find?_cons_of_neg (p := fun j => (bucketAt bs j).present) hp, ih]
    congr 2
    omega
  | case3 i hge =>
    rw [Nat.sub_eq_zero_of_le (not_lt.mp hge)]
    rfl

section Table

variable {t : Table E F}

theorem Table.Sound.visits_next (h : t.Sound) : ∃ is, Visits t.next none is ∧ is.Nodup ∧
    ∀ i, i ∈ is ↔ (bucketAt t.bucketList i).present = true := by
  by_cases hs : t.size = 0
  · refine ⟨[], .done (by rw [Table.next, if_pos hs]), nodup_nil, fun i => ?_⟩
    rw [h.not_present hs]
    simp
  have hb := h.buckets_eq hs
  refine ⟨(List.range' 0 t.bucketCount).filter fun i => (bucketAt t.bucketList i).present,
    visits_filter _ ?_ ?_, List.Nodup.filter _ nodup_range', fun i => ?_⟩
  · simp only [Table.next, if_neg hs, hb, nextLoop_eq, Nat.sub_zero]
  · intro pre j post hl hp
    rw [← map_id (List.range' 0 _)] at hl
    obtain ⟨k, hk, rfl, rfl⟩ := range'_map_split hl
    simp only [Table.next, if_neg hs, hb, nextLoop_eq, map_id, Nat.zero_add, id_eq]
    rw [Nat.sub_sub]
  · rw [mem_filter, mem_range'_1]
    refine ⟨fun hi => hi.2, fun hp => ⟨⟨Nat.zero_le i, ?_⟩, hp⟩⟩
    rw [Nat.zero_add]
    exact h.lt_of_present hp

end Table

/-! ## Going through the entries of a key -/

section Find

variable [DecidableEq K] (key : E → K) {bs : List (Bucket E)} {n m : Nat} {hash : UInt32} {x : K}

/-- The entries of the key stand on the chain of the hash, in reach, before bucket `m` of the
chain, which is free and not marked. -/
structure OnChain (bs : List (Bucket E)) (n : Nat) (hash : UInt32) (x : K) (m : Nat) : Prop where
  lt : m < n
  present : (bucketAt bs (chain n hash m)).present = false
  collision : (bucketAt bs (chain n hash m)).collision = false
  hash_eq : ∀ i, (bucketAt bs i).holds key x = true → (bucketAt bs i).hash = hash
  marked : ∀ k < n, (bucketAt bs (chain n hash k)).holds key x = true → ∀ j < k,
    (bucketAt bs (chain n hash j)).collision = true
  on : ∀ i, (bucketAt bs i).holds key x = true → ∃ k < m, i = chain n hash k

variable {key}

theorem present_of_holds {b : Bucket E} (h : b.holds key x = true) : b.present = true := by
  cases hb : b.entry with
  | none => simp only [Bucket.holds, hb] at h; cases h
  | some e => rw [Bucket.present, hb]; rfl

/-- Behind a bucket that is not marked no entry of the key stands. -/
theorem OnChain.find?_behind (h : OnChain key bs n hash x m) {k : Nat}
    (hc : (bucketAt bs (chain n hash k)).collision = false) :
    ((List.range' (k + 1) (m - k - 1)).map (chain n hash)).find?
      (fun i => (bucketAt bs i).holds key x) = none := by
  rw [List.find?_eq_none]
  intro i hi hholds
  obtain ⟨j, hj, rfl⟩ := mem_map.mp hi
  rw [mem_range'_1] at hj
  have := h.lt
  rw [h.marked j (by omega) hholds k (by omega)] at hc
  cases hc

/-- The loop of `find` takes the next entry of the key along the chain. -/
theorem OnChain.findLoop_eq (h : OnChain key bs n hash x m) :
    ∀ (fuel k : Nat), k < m → m - k ≤ fuel →
      findLoop key bs n (chainIncrement hash n) hash x fuel (chain n hash k) =
        some (((List.range' (k + 1) (m - k - 1)).map (chain n hash)).find?
          fun i => (bucketAt bs i).holds key x)
  | 0, k, hk, hfuel => by omega
  | fuel + 1, k, hk, hfuel => by
    simp only [findLoop, ← chain_succ]
    by_cases hm : k + 1 = m
    · have hd : m - k - 1 = 0 := by omega
      rw [hm, h.present, h.collision, hd]
      simp
    obtain ⟨d, hd⟩ : ∃ d, m - k - 1 = d + 1 := ⟨m - k - 2, by omega⟩
    have hd' : m - (k + 1) - 1 = d := by omega
    by_cases hholds : (bucketAt bs (chain n hash (k + 1))).holds key x = true
    · rw [if_pos ⟨present_of_holds hholds, h.hash_eq _ hholds, hholds⟩, hd, List.range'_succ,
        map_cons, List.find?_cons_of_pos (p := fun i => (bucketAt bs i).holds key x) hholds]
    · rw [if_neg fun hc => hholds hc.2.2, hd, List.range'_succ, map_cons,
        List.find?_cons_of_neg (p := fun i => (bucketAt bs i).holds key x) hholds]
      by_cases hc : (bucketAt bs (chain n hash (k + 1))).collision = true
      · rw [if_neg (not_not.mpr hc), OnChain.findLoop_eq h fuel (k + 1) (by omega) (by omega), hd']
      · rw [if_pos hc, ← hd', h.find?_behind (by simpa using hc)]

theorem OnChain.findOn_eq (h : OnChain key bs n hash x m) {k : Nat} (hk : k < m) :
    findOn key bs n hash x (chain n hash k) =
      .ok (((List.range' (k + 1) (m - k - 1)).map (chain n hash)).find?
        fun i => (bucketAt bs i).holds key x) := by
  rw [findOn, h.findLoop_eq n k hk (by have := h.lt; omega)]

/-- The look at the first bucket of the chain. -/
theorem OnChain.find_start (h : OnChain key bs n hash x m) :
    (if (bucketAt bs (chain n hash 0)).present then
      if (bucketAt bs (chain n hash 0)).holds key x then .ok (some (chain n hash 0))
      else findOn key bs n hash x (chain n hash 0)
    else if ¬ (bucketAt bs (chain n hash 0)).collision then .ok none
    else findOn key bs n hash x (chain n hash 0)) =
      Except.ok (((List.range' 0 m).map (chain n hash)).find?
        fun i => (bucketAt bs i).holds key x) := by
  rcases Nat.eq_zero_or_pos m with rfl | hm
  · rw [h.present, h.collision]
    rfl
  obtain ⟨d, rfl⟩ : ∃ d, m = d + 1 := ⟨m - 1, by omega⟩
  rw [List.range'_succ, map_cons]
  by_cases hholds : (bucketAt bs (chain n hash 0)).holds key x = true
  · rw [if_pos (present_of_holds hholds), if_pos hholds,
      List.find?_cons_of_pos (p := fun i => (bucketAt bs i).holds key x) hholds]
  · rw [List.find?_cons_of_neg (p := fun i => (bucketAt bs i).holds key x) hholds, if_neg hholds,
      h.findOn_eq hm]
    by_cases hc : (bucketAt bs (chain n hash 0)).collision = true
    · rw [if_neg (not_not.mpr hc), ite_self]
      rfl
    · have hbehind := h.find?_behind (k := 0) (by simpa using hc)
      rw [if_pos hc, hbehind, ite_self]
      exact congrArg _ hbehind.symm

end Find

section Hashed

variable [DecidableEq K] {key : E → K} {hashOf : K → UInt32} {t t' : Table E F}

def Table.Hashed (key : E → K) (hashOf : K → UInt32) (t : Table E F) : Prop :=
  ∀ p ∈ entries t.bucketList, p.1 = trimHash (hashOf (key p.2))

omit [DecidableEq K] in
theorem Table.Sound.hashed_iff (h : t.Sound) : t.Hashed key hashOf ↔ ∀ i e,
    (bucketAt t.bucketList i).entry = some e →
      (bucketAt t.bucketList i).hash = trimHash (hashOf (key e)) := by
  constructor
  · intro hh i e he
    have hi := h.lt_of_present (present_iff.mpr ⟨e, he⟩)
    rw [← h.chained.length] at hi
    exact hh _ (mem_entries hi he)
  · intro hh p hp
    obtain ⟨b, hb, hbp⟩ := mem_filterMap.mp hp
    obtain ⟨i, hi, rfl⟩ := getElem_of_mem hb
    rw [← bucketAt_eq hi] at hbp
    obtain ⟨e, he, rfl⟩ := Option.map_eq_some_iff.mp hbp
    exact hh i e he

theorem Table.Hashed.hash_eq (hh : t.Hashed key hashOf) (h : t.Sound) {i : Nat} {x : K}
    (hx : (bucketAt t.bucketList i).holds key x = true) :
    (bucketAt t.bucketList i).hash = trimHash (hashOf x) := by
  obtain ⟨e, he⟩ := present_iff.mp (present_of_holds hx)
  have hkey : key e = x := by simpa [Bucket.holds, he] using hx
  rw [h.hashed_iff.mp hh i e he, hkey]

theorem Table.Sound.onChain (h : t.Sound) (hh : t.Hashed key hashOf) (x : K) :
    ∃ m, OnChain key t.bucketList t.bucketCount (trimHash (hashOf x)) x m := by
  obtain ⟨i, hi, hf⟩ := h.exists_unfilled
  obtain ⟨m, hm, rfl⟩ := exists_chain h.prime (trimHash (hashOf x)) hi
  -- where an entry of the key stands on the chain, and that all before it is marked
  have hreach : ∀ i, (bucketAt t.bucketList i).holds key x = true → ∃ k < t.bucketCount,
      i = chain t.bucketCount (trimHash (hashOf x)) k ∧ ∀ j < k,
        (bucketAt t.bucketList (chain t.bucketCount (trimHash (hashOf x)) j)).collision = true := by
    intro i hx
    have hp := present_of_holds hx
    obtain ⟨k, hk, hki, hc⟩ := h.chained.reach i (h.lt_of_present hp) hp
    rw [hh.hash_eq h hx] at hki hc
    exact ⟨k, hk, hki.symm, hc⟩
  refine ⟨m, hm, hf.1, hf.2, fun i hx => hh.hash_eq h hx, ?_, ?_⟩
  · intro k hk hx
    obtain ⟨k', hk', heq, hc⟩ := hreach _ hx
    rwa [chain_inj h.prime _ hk hk' heq]
  · intro i hx
    obtain ⟨k, hk, rfl, hc⟩ := hreach i hx
    refine ⟨k, ?_, rfl⟩
    rcases Nat.lt_trichotomy k m with hlt | rfl | hgt
    · exact hlt
    · rw [present_of_holds hx] at hf
      cases hf.1
    · rw [hc m hgt] at hf
      cases hf.2

/-- `find` visits every entry of the key once. -/
theorem Table.Sound.visits_find (h : t.Sound) (hh : t.Hashed key hashOf) (x : K) :
    ∃ is, Visits (fun i => t.find key i (hashOf x) x) none is ∧ is.Nodup ∧
      ∀ i, i ∈ is ↔ (bucketAt t.bucketList i).holds key x = true := by
  by_cases hs : t.size = 0
  · refine ⟨[], .done (by rw [Table.find, if_pos hs]), nodup_nil, fun i => ?_⟩
    have hp := h.not_present hs i
    refine ⟨fun hi => absurd hi not_mem_nil, fun hx => ?_⟩
    rw [present_of_holds hx] at hp
    cases hp
  have hb := h.buckets_eq hs
  obtain ⟨m, hm⟩ := h.onChain hh x
  set hash := trimHash (hashOf x)
  set c := chain t.bucketCount hash
  refine ⟨((List.range' 0 m).map c).filter fun i => (bucketAt t.bucketList i).holds key x,
    visits_filter _ ?_ ?_, ?_, ?_⟩
  · simp only [Table.find, if_neg hs, hb]
    rw [← chain_zero h.prime]
    exact hm.find_start
  · intro pre j post hl hx
    obtain ⟨k, hk, rfl, rfl⟩ := range'_map_split hl
    simp only [Table.find, if_neg hs, hb, Nat.zero_add]
    exact hm.findOn_eq hk
  · refine List.Nodup.filter _ (List.Nodup.map_on ?_ nodup_range')
    intro j hj k hk heq
    rw [mem_range'_1] at hj hk
    have := hm.lt
    exact chain_inj h.prime hash (by omega) (by omega) heq
  · intro i
    rw [mem_filter]
    refine ⟨fun hi => hi.2, fun hx => ⟨?_, hx⟩⟩
    obtain ⟨k, hk, rfl⟩ := hm.on i hx
    exact mem_map_of_mem (mem_range'_1.mpr (by omega))

/-- The first `find` tells whether there is an entry of the key. -/
theorem Table.Sound.find_first (h : t.Sound) (hh : t.Hashed key hashOf) (x : K) :
    (t.find key none (hashOf x) x = .ok none ∧
        ∀ i, (bucketAt t.bucketList i).holds key x = false) ∨
      ∃ i, t.find key none (hashOf x) x = .ok (some i) ∧
        (bucketAt t.bucketList i).holds key x = true := by
  obtain ⟨is, hv, -, hmem⟩ := h.visits_find hh x
  cases hv with
  | done hfind =>
    refine .inl ⟨hfind, fun i => ?_⟩
    have := (hmem i).mpr.mt not_mem_nil
    simpa using this
  | more hfind _ => exact .inr ⟨_, hfind, (hmem _).mp mem_cons_self⟩

end Hashed

/-! ## Whole runs -/

def Table.content (t : Table E F) : Multiset E := ↑((entries t.bucketList).map Prod.snd)

/-- What a call does to the entries. -/
def Effect (t : Table E F) (op : Op E F) (t' : Table E F) : Prop :=
  match op with
  | .add _ e => t'.content = e ::ₘ t.content
  | .removeAt i => ∃ e, (bucketAt t.bucketList i).entry = some e ∧ t.content = e ::ₘ t'.content
  | .rehash _ _ => t'.content = t.content
  | .clear => t'.content = 0

/-- An entry is added with the hash of its key. -/
def Keyed (key : E → K) (hashOf : K → UInt32) : Op E F → Prop
  | .add hash e => hash = hashOf (key e)
  | _ => True

/-- `add` has a bucket for the entry, or can move the others to more buckets; `rehash` has more
buckets than there are entries, or rejects the load factor. -/
def Served (t : Table E Binary32) : Op E Binary32 → Prop
  | .add hash _ => t.Room (trimHash hash) ∨ t.size ≠ 0 ∧
      ∃ sizes, determineCapacity (max (t.capacity * 2) t.size) t.loadFactor = .ok sizes
  | .rehash m lf =>
    match determineCapacity (max m t.size) lf with
    | .ok sizes => t.size < sizes.1
    | .error e => e = .abort
  | _ => True

instance decidableServed (t : Table E Binary32) : (op : Op E Binary32) → Decidable (Served t op)
  | .add hash _ =>
    if hroom : t.Room (trimHash hash) then isTrue (Or.inl hroom)
    else
      match hdc : determineCapacity (max (t.capacity * 2) t.size) t.loadFactor with
      | .ok sizes =>
        if hs : t.size = 0 then isFalse fun h => (h.resolve_left hroom).1 hs
        else isTrue (Or.inr ⟨hs, sizes, hdc⟩)
      | .error _ => isFalse fun h => by
        obtain ⟨_, _, hok⟩ := h.resolve_left hroom
        rw [hdc] at hok
        cases hok
  | .rehash m lf =>
    match hdc : determineCapacity (max m t.size) lf with
    | .ok sizes => decidable_of_iff (t.size < sizes.1) (by simp only [Served, hdc])
    | .error e => decidable_of_iff (e = .abort) (by simp only [Served, hdc])
  | .removeAt _ => isTrue trivial
  | .clear => isTrue trivial

section Runs

variable (key : E → K) (hashOf : K → UInt32)

/-- What every call keeps. The number of filled buckets can be above the capacity only as far
as rounding takes it. -/
structure Table.Kept (t : Table E F) : Prop where
  sound : t.Sound
  hashed : t.Hashed key hashOf
  filled : 15 * t.filledBuckets ≤ 16 * t.capacity + 1

variable {key hashOf} {t t' : Table E Binary32}

theorem newTable_kept {m : Nat} {lf : Binary32} (h : newTable determineCapacity m lf = .ok t) :
    t.Kept key hashOf := by
  unfold newTable at h
  split at h
  · cases h
  rename_i n c hdc
  obtain rfl := Except.ok.inj h
  have hs := determineCapacity_sizing hdc
  refine ⟨Table.Sound.of_none hs.prime hs.lt lf, ?_, Nat.zero_le _⟩
  intro p hp
  rw [Table.bucketList, Option.getD_none, entries_allocate] at hp
  cases hp

/-- A full table with entries gets room from `determineCapacity`. -/
theorem Table.Kept.grows (h : t.Kept key hashOf) {hash : UInt32} (hfull : ¬ t.Room hash)
    (hs : t.size ≠ 0) {n c : Nat}
    (hdc : determineCapacity (max (t.capacity * 2) t.size) t.loadFactor = .ok (n, c)) :
    t.Grows determineCapacity n c := by
  have hsz := determineCapacity_sizing hdc
  have hcov := hsz.covers
  have hfilled := h.filled
  have hle := h.sound.size_le_filled
  have hcap : t.capacity ≤ t.filledBuckets := not_lt.mp fun hr => hfull (.inl hr)
  refine ⟨hdc, hsz.prime, hsz.lt, fun heq => ?_, by omega, hs⟩
  obtain ⟨-, rfl⟩ := Prod.mk.inj heq
  omega

/-- A call that is served returns, unless the load factor is rejected. -/
theorem exec_effect (h : t.Kept key hashOf) {op : Op E Binary32} (hl : Legal t op)
    (hk : Keyed key hashOf op) (hs : Served t op) :
    exec determineCapacity t op = .error .abort ∨
      ∃ t', exec determineCapacity t op = .ok t' ∧ t'.Kept key hashOf ∧ Effect t op t' := by
  cases op with
  | add hash e =>
    have hok : t.Room (trimHash hash) ∨ ∃ n c, t.Grows determineCapacity n c := by
      by_cases hroom : t.Room (trimHash hash)
      · exact .inl hroom
      · obtain ⟨hsz, ⟨n, c⟩, hdc⟩ := hs.resolve_left hroom
        exact .inr ⟨n, c, h.grows hroom hsz hdc⟩
    obtain ⟨i, t', hadd, ha⟩ := h.sound.add hok e
    refine .inr ⟨t', by simp only [exec, hadd], ⟨ha.sound, ?_, ?_⟩, ?_⟩
    · intro p hp
      rcases mem_cons.mp (ha.entries.mem_iff.mp hp) with rfl | hp
      · exact congrArg trimHash hk
      · exact h.hashed p hp
    · rcases ha.filled with hf | ⟨hf, hc⟩
      · omega
      · rw [hf, hc]
        exact h.filled
    · exact Multiset.coe_eq_coe.mpr (ha.entries.map Prod.snd)
  | removeAt i =>
    obtain ⟨e, he⟩ := present_iff.mp hl
    obtain ⟨t', hr, hrem⟩ := h.sound.removeAt he
    refine .inr ⟨t', hr, ⟨hrem.sound, ?_, ?_⟩, e, he, ?_⟩
    · exact fun p hp => h.hashed p (hrem.entries.mem_iff.mpr (mem_cons_of_mem _ hp))
    · have hf := hrem.filled
      have := h.filled
      rw [hrem.capacity]
      omega
    · exact Multiset.coe_eq_coe.mpr (hrem.entries.map Prod.snd)
  | rehash m lf =>
    simp only [Served] at hs
    split at hs
    · rename_i sizes hdc
      obtain ⟨n, c⟩ := sizes
      have hsz := determineCapacity_sizing hdc
      obtain ⟨t', hre, hr⟩ := h.sound.rehash hdc hsz.prime hsz.lt hs
      refine .inr ⟨t', hre,
        ⟨hr.sound, fun p hp => h.hashed p (hr.entries.mem_iff.mp hp), ?_⟩,
        Multiset.coe_eq_coe.mpr (hr.entries.map Prod.snd)⟩
      by_cases hsame : (n, c) = (t.bucketCount, t.capacity)
      · rw [hr.same hsame]
        exact h.filled
      · have := hsz.covers
        rw [(hr.changed hsame).1, hr.capacity]
        omega
    · rename_i err hdc
      subst hs
      exact .inl (by simp only [exec, Table.rehash, hdc])
  | clear =>
    obtain ⟨hsound, hent, hf, hc⟩ := h.sound.clear
    refine .inr ⟨t.clear, rfl, ⟨hsound, ?_, ?_⟩, ?_⟩
    · intro p hp
      rw [hent] at hp
      cases hp
    · have := h.filled
      omega
    · change t.clear.content = 0
      rw [Table.content, hent]
      rfl

variable [DecidableEq K]

variable (key hashOf) in
/-- Both ways to go through a table visit each entry once. -/
structure Table.Listed (t : Table E F) : Prop where
  next : ∃ is, Visits t.next none is ∧ is.Nodup ∧
    ∀ i, i ∈ is ↔ (bucketAt t.bucketList i).present = true
  find : ∀ x, ∃ is, Visits (fun i => t.find key i (hashOf x) x) none is ∧ is.Nodup ∧
    ∀ i, i ∈ is ↔ (bucketAt t.bucketList i).holds key x = true

theorem Table.Kept.listed (h : t.Kept key hashOf) : t.Listed key hashOf :=
  ⟨h.sound.visits_next, fun x => h.sound.visits_find h.hashed x⟩

/-- In a run of served calls every call has its effect on the multiset of the entries, and in
every state both ways to go through the table visit each entry once. -/
theorem table_refines_multiset {m : Nat} {lf : Binary32}
    (h0 : newTable determineCapacity m lf = .ok t) {ops : List (Op E Binary32)}
    (hl : Along (exec determineCapacity) Legal t ops) (hk : ∀ op ∈ ops, Keyed key hashOf op)
    (hs : Along (exec determineCapacity) Served t ops) :
    Throughout (exec determineCapacity) (Table.Listed key hashOf) t ops ∧
      Along (exec determineCapacity) (fun t op => exec determineCapacity t op = .error .abort ∨
        ∃ t', exec determineCapacity t op = .ok t' ∧ Effect t op t') t ops := by
  have hkept : t.Kept key hashOf := newTable_kept h0
  clear h0
  induction ops generalizing t with
  | nil => exact ⟨hkept.listed, trivial⟩
  | cons op ops ih =>
    rcases exec_effect hkept hl.1 (hk op mem_cons_self) hs.1 with herr | ⟨t1, h1, hk1, heff⟩
    · refine ⟨⟨hkept.listed, ?_⟩, .inl herr, ?_⟩ <;> intro t1 h1 <;> rw [herr] at h1 <;> cases h1
    · obtain ⟨hthr, hal⟩ := ih (hl.2 t1 h1) (fun o ho => hk o (mem_cons_of_mem _ ho))
        (hs.2 t1 h1) hk1
      refine ⟨⟨hkept.listed, ?_⟩, .inr ⟨t1, h1, heff⟩, ?_⟩
      · intro t2 h2
        exact Except.ok.inj (h1.symm.trans h2) ▸ hthr
      · intro t2 h2
        exact Except.ok.inj (h1.symm.trans h2) ▸ hal

end Runs

theorem table_refines_multiset_two_chained :
    ∃ t : Table UInt32 Binary32, newTable determineCapacity 0 threeQuarters = .ok t ∧
      Throughout (exec determineCapacity) (Table.Listed id id) t
        [.add 0 0, .add 5 5, .add 5 5, .removeAt 0, .rehash 5 threeQuarters, .add 7 7, .clear] := by
  have h0 : newTable determineCapacity 0 threeQuarters =
      .ok (⟨3, threeQuarters, 0, 0, 5, none⟩ : Table UInt32 Binary32) := by decide +kernel
  refine ⟨_, h0, (table_refines_multiset h0 (by decide +kernel) ?_ (by decide +kernel)).1⟩
  simp [Keyed]

theorem add_loses_buckets_after_tombstones :
    ∃ t : Table Nat Binary32, newTable determineCapacity 0 threeQuarters = .ok t ∧
      Along (exec determineCapacity) Legal t tombstones ∧
      run (exec determineCapacity) t tombstones = .error .nullDeref :=
  ⟨⟨3, threeQuarters, 0, 0, 5, none⟩, by decide +kernel, by decide +kernel, by decide +kernel⟩

end SystemCore.Libutils.BasicHashtable
