import Mathlib.Data.Nat.Prime.Infinite
import Mathlib.Tactic.NormNum.Prime
import SystemCore.Libutils.HashInvariant

/-!
# Runs of the hash table

Whatever the sizes that `determineCapacity` gives, as long as the number of buckets is a
prime above the capacity: every call that returns keeps the invariant, and the loops over
a chain end. A call of `add` fails to return in just one kind of state, in which no entry
is left, as many buckets are filled as may be, and the first bucket of the chain is not
one of them.
-/
namespace SystemCore.Libutils.BasicHashtable

open Lib Lib.Runs ProbeChain

variable {E K F : Type*} {t t' : Table E F} {i : Nat} {e : E}

/-! ## The other calls -/

theorem present_iff {b : Bucket E} : b.present = true ↔ ∃ e, b.entry = some e := by
  rw [Bucket.present, Option.isSome_iff_exists]

/-- An index with an entry is one of the table. -/
theorem Table.Sound.lt_of_present (h : t.Sound) (hp : (bucketAt t.bucketList i).present = true) :
    i < t.bucketCount := by
  by_contra hi
  rw [← h.chained.length] at hi
  rw [bucketAt, List.getD_eq_getElem?_getD, List.getElem?_eq_none (not_lt.mp hi)] at hp
  cases hp

theorem buckets_of_present (hp : (bucketAt t.bucketList i).present = true) :
    t.buckets = some t.bucketList := by
  cases hb : t.buckets with
  | none =>
    rw [Table.bucketList, hb, Option.getD_none, bucketAt_allocate] at hp
    cases hp
  | some bs =>
    rw [Table.bucketList, hb]
    rfl

theorem Table.Sound.not_present (h : t.Sound) (hs : t.size = 0) (i : Nat) :
    (bucketAt t.bucketList i).present = false := by
  by_contra hp
  have hp : (bucketAt t.bucketList i).present = true := by simpa using hp
  obtain ⟨e, he⟩ := present_iff.mp hp
  have hi := h.lt_of_present hp
  rw [← h.chained.length] at hi
  have hmem := mem_entries hi he
  rw [List.length_eq_zero_iff.mp (h.entries_length.trans hs)] at hmem
  cases hmem

theorem Table.Sound.buckets_eq (h : t.Sound) (hs : t.size ≠ 0) : t.buckets = some t.bucketList := by
  cases hb : t.buckets with
  | none => exact absurd (h.filled_of_none hb).1 hs
  | some bs =>
    rw [bucketList, hb]
    rfl

theorem Table.Sound.size_le_filled (h : t.Sound) : t.size ≤ t.filledBuckets := by
  rw [h.size_eq, h.filled_eq]
  exact List.countP_mono_left fun b _ hp => filled_of_present hp

/-- There is a bucket that was never filled. -/
theorem Table.Sound.exists_unfilled (h : t.Sound) :
    ∃ i < t.bucketCount, (bucketAt t.bucketList i).present = false ∧
      (bucketAt t.bucketList i).collision = false := by
  have hlt : t.bucketList.countP Bucket.filled < t.bucketList.length := by
    rw [← h.filled_eq, h.chained.length]
    exact h.filled_lt
  obtain ⟨i, hi, hf⟩ := exists_not_of_countP_lt hlt
  rw [h.chained.length] at hi
  exact ⟨i, hi, Bool.or_eq_false_iff.mp hf⟩

/-- What `removeAt` makes of a table. -/
structure Removed (t : Table E F) (hash : UInt32) (e : E) (t' : Table E F) : Prop where
  sound : t'.Sound
  entries : (entries t.bucketList).Perm ((hash, e) :: entries t'.bucketList)
  filled : t'.filledBuckets ≤ t.filledBuckets
  capacity : t'.capacity = t.capacity

section Drop

variable {bs : List (Bucket E)} {i : Nat}

theorem dropEntry_self (hi : i < bs.length) :
    bucketAt (dropEntry bs i) i = { bucketAt bs i with entry := none } := by
  rw [dropEntry, bucketAt_set_self hi]

theorem dropEntry_ne {j : Nat} (h : i ≠ j) : bucketAt (dropEntry bs i) j = bucketAt bs j := by
  rw [dropEntry, bucketAt_set_ne h]

theorem dropEntry_collision (hi : i < bs.length) (j : Nat) :
    (bucketAt (dropEntry bs i) j).collision = (bucketAt bs j).collision := by
  by_cases hij : i = j
  · subst hij
    rw [dropEntry_self hi]
  · rw [dropEntry_ne hij]

/-- The other entries are still in reach: a bucket keeps its mark. -/
theorem Chained.dropEntry {n : Nat} (h : Chained n bs) (hi : i < n) :
    Chained n (dropEntry bs i) := by
  rw [← h.length] at hi
  refine ⟨by rw [BasicHashtable.dropEntry, List.length_set, h.length], ?_⟩
  intro j hj hp
  have hij : i ≠ j := by
    rintro rfl
    rw [dropEntry_self hi] at hp
    cases hp
  rw [dropEntry_ne hij] at hp ⊢
  obtain ⟨k, hk, hchain, hc⟩ := h.reach j hj hp
  exact ⟨k, hk, hchain, fun m hm => by rw [dropEntry_collision hi]; exact hc m hm⟩

/-- Putting the entry back gives the old buckets. -/
theorem entries_dropEntry (hi : i < bs.length) (he : (bucketAt bs i).entry = some e) :
    (entries bs).Perm (((bucketAt bs i).hash, e) :: entries (dropEntry bs i)) := by
  have hi' : i < (dropEntry bs i).length := by rwa [dropEntry, List.length_set]
  have hback := entries_set_some hi' (by rw [dropEntry_self hi]) he
  have hself : (dropEntry bs i).set i (bucketAt bs i) = bs := by
    rw [dropEntry, List.set_set, bucketAt_eq hi, List.set_getElem_self]
  rwa [hself] at hback

theorem filled_dropEntry (hi : i < bs.length) (hp : (bucketAt bs i).present = true) :
    (dropEntry bs i).countP Bucket.filled + 1 =
      bs.countP Bucket.filled + if (bucketAt bs i).collision then 1 else 0 := by
  have hset := countP_set (p := Bucket.filled) hi { bucketAt bs i with entry := none }
  rw [if_pos (filled_of_present hp)] at hset
  exact hset

end Drop

theorem Table.Sound.removeAt (h : t.Sound) (he : (bucketAt t.bucketList i).entry = some e) :
    ∃ t', t.removeAt i = .ok t' ∧ Removed t (bucketAt t.bucketList i).hash e t' := by
  have hp : (bucketAt t.bucketList i).present = true := present_iff.mpr ⟨e, he⟩
  have hi := h.lt_of_present hp
  have hi' : i < t.bucketList.length := h.chained.length.symm ▸ hi
  have hperm := entries_dropEntry hi' he
  have hfilled := filled_dropEntry hi' hp
  rw [← h.filled_eq] at hfilled
  have hlen := h.entries_length
  rw [hperm.length_eq, List.length_cons, length_entries] at hlen
  have hlt := h.filled_lt
  have heq : t.removeAt i = .ok { t with
      size := t.size - 1
      filledBuckets := if (bucketAt t.bucketList i).collision then t.filledBuckets
        else t.filledBuckets - 1
      buckets := some (dropEntry t.bucketList i) } := by
    simp only [Table.removeAt, buckets_of_present hp]
  refine ⟨_, heq, ⟨h.prime, h.capacity_lt, ?_, ?_, ?_, ?_⟩, hperm, ?_, rfl⟩
  · exact h.chained.dropEntry hi
  · change t.size - 1 = (dropEntry t.bucketList i).countP Bucket.present
    omega
  · change (if (bucketAt t.bucketList i).collision then t.filledBuckets else t.filledBuckets - 1) =
      (dropEntry t.bucketList i).countP Bucket.filled
    split at hfilled
    · rename_i hc
      rw [if_pos hc]
      omega
    · rename_i hc
      rw [if_neg hc]
      omega
  · exact lt_of_le_of_lt (ite_le_sup _ _ _) (by simpa using hlt)
  · exact (ite_le_sup _ _ _).trans (by simp)

theorem Table.Sound.clear (h : t.Sound) :
    t.clear.Sound ∧ BasicHashtable.entries t.clear.bucketList = [] ∧
      t.clear.filledBuckets ≤ t.filledBuckets ∧ t.clear.capacity = t.capacity := by
  cases hb : t.buckets with
  | none =>
    have heq : t.clear = t := by rw [Table.clear, hb]
    rw [heq]
    refine ⟨h, ?_, le_rfl, rfl⟩
    rw [bucketList, hb, Option.getD_none, entries_allocate]
  | some bs =>
    have hl : t.bucketList = bs := by rw [bucketList, hb]; rfl
    by_cases hf : t.filledBuckets = 0
    · have hzero : t.size = 0 := Nat.le_zero.mp (hf ▸ h.size_le_filled)
      have heq : t.clear = t := by
        obtain ⟨c, lf, sz, fl, n, b⟩ := t
        subst hb hf hzero
        rfl
      rw [heq]
      refine ⟨h, ?_, le_rfl, rfl⟩
      rw [← List.length_eq_zero_iff, h.entries_length, hzero]
    · have heq : t.clear = { t with
          size := 0, filledBuckets := 0, buckets := some (allocateBuckets t.bucketCount) } := by
        rw [Table.clear, hb]
        dsimp only
        rw [if_neg hf, List.map_const', ← hl, h.chained.length]
        rfl
      have hn := Table.Sound.of_none (E := E) h.prime h.capacity_lt t.loadFactor
      rw [heq]
      exact ⟨⟨hn.1, hn.2, hn.3, hn.4, hn.5, hn.6⟩, entries_allocate _, Nat.zero_le _, rfl⟩

/-! ## The loops over a chain end -/

section Ends

variable [DecidableEq K] (key : E → K)

/-- The loop of `find` ends at a bucket that is not marked, if not before. -/
theorem findLoop_ends {bs : List (Bucket E)} {s d n : Nat} (hash : UInt32) (k : K) :
    ∀ (m j : Nat), 0 < m →
      (bucketAt bs (ProbeChain.place s d n (j + m))).collision = false →
      ∃ r, ∀ fuel, m ≤ fuel → findLoop key bs n d hash k fuel (ProbeChain.place s d n j) = some r := by
  intro m
  induction m with
  | zero => intro j hm; omega
  | succ m ih =>
    intro j _ hfree
    have hseek : chainSeek (place s d n j) d n = place s d n (j + 1) :=
      (place_succ s d n j).symm
    have hturn : ∀ fuel, findLoop key bs n d hash k (fuel + 1) (place s d n j) =
        if (bucketAt bs (place s d n (j + 1))).present ∧
            (bucketAt bs (place s d n (j + 1))).hash = hash ∧
            (bucketAt bs (place s d n (j + 1))).holds key k then
          some (some (place s d n (j + 1)))
        else if ¬ (bucketAt bs (place s d n (j + 1))).collision then some none
        else findLoop key bs n d hash k fuel (place s d n (j + 1)) := by
      intro fuel
      simp only [findLoop, hseek]
    by_cases hmatch : (bucketAt bs (place s d n (j + 1))).present ∧
        (bucketAt bs (place s d n (j + 1))).hash = hash ∧
        (bucketAt bs (place s d n (j + 1))).holds key k
    · refine ⟨some (place s d n (j + 1)), fun fuel hf => ?_⟩
      obtain ⟨fuel, rfl⟩ : ∃ f, fuel = f + 1 := ⟨fuel - 1, by omega⟩
      rw [hturn, if_pos hmatch]
    · by_cases hcol : (bucketAt bs (place s d n (j + 1))).collision = true
      · have hm : 0 < m := by
          rcases Nat.eq_zero_or_pos m with rfl | hm
          · rw [hcol] at hfree
            cases hfree
          · exact hm
        obtain ⟨r, hr⟩ := ih (j + 1) hm (by rwa [Nat.add_right_comm, Nat.add_assoc])
        refine ⟨r, fun fuel hf => ?_⟩
        obtain ⟨fuel, rfl⟩ : ∃ f, fuel = f + 1 := ⟨fuel - 1, by omega⟩
        rw [hturn, if_neg hmatch, if_neg (not_not.mpr hcol)]
        exact hr fuel (by omega)
      · refine ⟨none, fun fuel hf => ?_⟩
        obtain ⟨fuel, rfl⟩ : ∃ f, fuel = f + 1 := ⟨fuel - 1, by omega⟩
        rw [hturn, if_neg hmatch, if_pos hcol]

/-- The loops of `find` and `add` over a chain end, however many turns they may make. -/
structure Table.LoopsEnd (t : Table E F) : Prop where
  findLoop : ∀ hash k index, ∃ r, ∀ fuel, t.bucketCount ≤ fuel →
    findLoop key t.bucketList t.bucketCount (chainIncrement hash t.bucketCount) hash k fuel index =
      some r
  find : ∀ index hash k, ∃ r, t.find key index hash k = .ok r
  skipPresent : ∀ hash, (bucketAt t.bucketList (chainStart hash t.bucketCount)).present = true →
    ∃ r, ∀ fuel, t.bucketCount ≤ fuel → skipPresent t.bucketCount
      (chainIncrement hash t.bucketCount) fuel (chainStart hash t.bucketCount) t.bucketList = .ok r
  freeBucket : ∀ hash, ∃ r, freeBucket t.bucketCount hash t.bucketList = .ok r

theorem Table.Sound.findLoop_ends (h : t.Sound) (hash : UInt32) (k : K) (index : Nat) :
    ∃ r, ∀ fuel, t.bucketCount ≤ fuel → findLoop key t.bucketList t.bucketCount
      (chainIncrement hash t.bucketCount) hash k fuel index = some r := by
  obtain ⟨i, hi, -, hc⟩ := h.exists_unfilled
  obtain ⟨m, hm1, hm2, rfl⟩ := exists_place_from (s := index)
    (coprime_chainIncrement h.prime hash) hi 1
  obtain ⟨r, hr⟩ := BasicHashtable.findLoop_ends key hash k m 0 hm1 (by
    rw [Nat.zero_add]
    exact hc)
  refine ⟨r, fun fuel hfuel => ?_⟩
  have hn := h.prime.pos
  obtain ⟨fuel, rfl⟩ : ∃ f, fuel = f + 1 := ⟨fuel - 1, by omega⟩
  -- the first step from `index` is the one from its place
  have hseek : chainSeek index (chainIncrement hash t.bucketCount) t.bucketCount =
      chainSeek (place index (chainIncrement hash t.bucketCount) t.bucketCount 0)
        (chainIncrement hash t.bucketCount) t.bucketCount := by
    rw [chainSeek, chainSeek, place, Nat.zero_mul, Nat.add_zero, Nat.mod_add_mod]
  rw [← hr (fuel + 1) (by omega)]
  simp only [findLoop, hseek]

theorem Table.Sound.loopsEnd (h : t.Sound) : t.LoopsEnd key := by
  have hon : ∀ hash k index, ∃ r, findOn key t.bucketList t.bucketCount hash k index = .ok r := by
    intro hash k index
    obtain ⟨r, hr⟩ := h.findLoop_ends key hash k index
    exact ⟨r, by rw [findOn, hr _ le_rfl]⟩
  constructor
  case findLoop => exact h.findLoop_ends key
  case find =>
    intro index hash k
    rw [Table.find]
    split
    · exact ⟨none, rfl⟩
    · rename_i hs
      rw [h.buckets_eq hs]
      cases index with
      | some i => exact hon _ k i
      | none =>
        dsimp only
        split
        · split
          · exact ⟨_, rfl⟩
          · exact hon _ k _
        · split
          · exact ⟨_, rfl⟩
          · exact hon _ k _
  case skipPresent =>
    intro hash hstart
    obtain ⟨k, hk, -⟩ := h.firstFree hash
    rw [← chain_zero h.prime] at hstart ⊢
    refine ⟨_, fun fuel hfuel => skipPresent_eq hk.present hk.free fuel 0 ?_ ?_⟩
    · rcases Nat.eq_zero_or_pos k with rfl | hk0
      · rw [hk.free] at hstart
        cases hstart
      · exact hk0
    · have := hk.lt
      omega
  case freeBucket =>
    intro hash
    obtain ⟨k, -, heq⟩ := h.firstFree hash
    exact ⟨_, heq⟩

end Ends

/-! ## Whole runs -/

/-- The assumption on `determineCapacity`. -/
def Sizes (determineCapacity : Nat → F → Except Fault (Nat × Nat)) : Prop :=
  ∀ m lf, ∃ n c, determineCapacity m lf = .ok (n, c) ∧ n.Prime ∧ m ≤ c ∧ c ≤ n - 1

structure Table.Invariant (t : Table E F) : Prop extends t.Sound where
  filled_le : t.filledBuckets ≤ t.capacity

/-- An index given to `removeAt` has an entry. -/
def Legal (t : Table E F) : Op E F → Prop
  | .removeAt i => (bucketAt t.bucketList i).present = true
  | _ => True

instance decidableLegal (t : Table E F) : (op : Op E F) → Decidable (Legal t op)
  | .removeAt i => inferInstanceAs (Decidable ((bucketAt t.bucketList i).present = true))
  | .add _ _ => inferInstanceAs (Decidable True)
  | .rehash _ _ => inferInstanceAs (Decidable True)
  | .clear => inferInstanceAs (Decidable True)

/-- No entry is left, no bucket may be filled, and the first bucket of the chain is not a
marked one. -/
def Table.OutOfRoom (t : Table E F) (hash : UInt32) : Prop :=
  t.size = 0 ∧ t.capacity ≤ t.filledBuckets ∧
    (bucketAt t.bucketList (chainStart (trimHash hash) t.bucketCount)).collision = false

instance decidableOutOfRoom (t : Table E F) (hash : UInt32) : Decidable (t.OutOfRoom hash) :=
  inferInstanceAs (Decidable (_ ∧ _ ∧ _))

def Placeable (t : Table E F) : Op E F → Prop
  | .add hash _ => ¬ t.OutOfRoom hash
  | _ => True

instance decidablePlaceable (t : Table E F) : (op : Op E F) → Decidable (Placeable t op)
  | .add hash _ => inferInstanceAs (Decidable (¬ t.OutOfRoom hash))
  | .removeAt _ => inferInstanceAs (Decidable True)
  | .rehash _ _ => inferInstanceAs (Decidable True)
  | .clear => inferInstanceAs (Decidable True)

section Runs

variable {determineCapacity : Nat → F → Except Fault (Nat × Nat)}

theorem Sizes.cases (h : Sizes determineCapacity) (m : Nat) (lf : F) :
    ∃ n c, determineCapacity m lf = .ok (n, c) ∧ n.Prime ∧ m ≤ c ∧ c < n := by
  obtain ⟨n, c, h1, h2, h3, h4⟩ := h m lf
  have := h2.pos
  exact ⟨n, c, h1, h2, h3, by omega⟩

theorem newTable_invariant (hdc : Sizes determineCapacity) {m : Nat} {lf : F}
    (h : newTable determineCapacity m lf = .ok t) : t.Invariant := by
  obtain ⟨n, c, h1, h2, -, h4⟩ := hdc.cases m lf
  rw [newTable, h1] at h
  obtain rfl := Except.ok.inj h
  exact ⟨Table.Sound.of_none h2 h4 lf, Nat.zero_le c⟩

/-- Without entries every chain is free at its start. -/
theorem Table.Sound.firstFree_zero (h : t.Sound) (hs : t.size = 0) (hash : UInt32) :
    t.FirstFree hash 0 :=
  ⟨h.prime.pos, fun j hj => absurd hj (Nat.not_lt_zero j), h.not_present hs _⟩

/-- Out of room, the loop of `add` loses the buckets, or goes on as before for ever. -/
theorem Table.Sound.addLoop_outOfRoom (hdc : Sizes determineCapacity) {hash : UInt32} :
    ∀ (fuel : Nat) {t : Table E F}, t.Sound → t.buckets.isSome = true → t.size = 0 →
      ¬ t.Room hash → ∃ err, BasicHashtable.addLoop determineCapacity hash e fuel t = .error err
  | 0, t, _, _, _, _ => ⟨.hang, rfl⟩
  | fuel + 1, t, h, hb, hs, hroom => by
    have hk := h.firstFree_zero hs hash
    obtain ⟨n, c, h1, h2, -, h4⟩ := hdc.cases (max (t.capacity * 2) t.size) t.loadFactor
    obtain ⟨t1, hre, hr⟩ := (h.mark hk).rehash h1 h2 h4 (by rw [hs]; exact h2.pos)
    rw [addLoop_turn h hb hk, if_pos (hk.full hroom), hre]
    by_cases hsame : (n, c) = (t.bucketCount, t.capacity)
    · have hback : t1 = t := by
        have hbs : some t.bucketList = t.buckets := by
          obtain ⟨bs, hbs⟩ := Option.isSome_iff_exists.mp hb
          rw [bucketList, hbs]
          rfl
        rw [hr.same hsame]
        obtain ⟨_, _, _, _, _, _⟩ := t
        simp only [BasicHashtable.marked] at hbs ⊢
        rw [hbs]
      rw [hback]
      exact Table.Sound.addLoop_outOfRoom hdc fuel h hb hs hroom
    · have hnone : t1.buckets = none := by
        have := (hr.changed hsame).2
        cases hb1 : t1.buckets with
        | none => rfl
        | some bs =>
          rw [hb1] at this
          exact absurd hs (this.mp rfl).2
      cases fuel with
      | zero => exact ⟨.hang, rfl⟩
      | succ fuel => exact ⟨.nullDeref, by simp only [BasicHashtable.addLoop, hnone]⟩

theorem Table.Sound.outOfRoom_iff (h : t.Sound) (hash : UInt32) :
    t.OutOfRoom hash ↔ t.size = 0 ∧ ¬ t.Room (trimHash hash) := by
  constructor
  · rintro ⟨hs, hle, hc⟩
    refine ⟨hs, ?_⟩
    rintro (hr | hr)
    · omega
    · have := hr 0 (h.firstFree_zero hs _)
      rw [chain_zero h.prime, hc] at this
      cases this
  · rintro ⟨hs, hroom⟩
    refine ⟨hs, not_lt.mp fun hr => hroom (.inl hr), ?_⟩
    by_contra hc
    refine hroom (.inr fun k hk => ?_)
    rw [hk.unique (h.firstFree_zero hs _), chain_zero h.prime]
    simpa using hc

/-- `add` returns exactly if it is not out of room. -/
theorem Table.Invariant.add_iff (hdc : Sizes determineCapacity) (h : t.Invariant) (hash : UInt32)
    (e : E) : (¬ t.OutOfRoom hash → ∃ i t', t.add determineCapacity hash e = .ok (i, t') ∧
        Added t (trimHash hash) e t') ∧
      (t.OutOfRoom hash → ∃ err, t.add determineCapacity hash e = .error err) := by
  rw [h.outOfRoom_iff]
  constructor
  · intro hno
    refine h.toSound.add ?_ e
    by_cases hroom : t.Room (trimHash hash)
    · exact .inl hroom
    · have hs : t.size ≠ 0 := fun hs => hno ⟨hs, hroom⟩
      obtain ⟨n, c, h1, h2, h3, h4⟩ := hdc.cases (max (t.capacity * 2) t.size) t.loadFactor
      -- some bucket is filled, so the capacity is not zero and grows
      have hle := h.size_le_filled
      have := h.filled_le
      refine .inr ⟨n, c, h1, h2, h4, ?_, by omega, hs⟩
      intro heq
      obtain ⟨-, rfl⟩ := Prod.mk.inj heq
      omega
  · rintro ⟨hs, hroom⟩
    refine Table.Sound.addLoop_outOfRoom hdc 30 h.toSound.allocated rfl hs ?_
    rintro (hr | hr)
    · exact hroom (.inl hr)
    · exact hroom (.inr fun k hk => hr k ⟨hk.1, hk.2, hk.3⟩)

/-- A call returns exactly if it finds a place, and keeps the invariant. -/
theorem exec_iff (hdc : Sizes determineCapacity) (h : t.Invariant) {op : Op E F} (hl : Legal t op) :
    (Placeable t op → ∃ t', exec determineCapacity t op = .ok t' ∧ t'.Invariant) ∧
      (¬ Placeable t op → ∃ err, exec determineCapacity t op = .error err) := by
  cases op with
  | add hash e =>
    obtain ⟨hyes, hno⟩ := h.add_iff hdc hash e
    constructor
    · intro hp
      obtain ⟨i, t', hadd, ha⟩ := hyes hp
      refine ⟨t', by simp only [exec, hadd], ha.sound, ha.filled.elim id fun ⟨hf, hc⟩ => ?_⟩
      rw [hf, hc]
      exact h.filled_le
    · intro hp
      obtain ⟨err, hadd⟩ := hno (not_not.mp hp)
      exact ⟨err, by simp only [exec, hadd]⟩
  | removeAt i =>
    refine ⟨fun _ => ?_, fun hp => absurd trivial hp⟩
    obtain ⟨e, he⟩ := present_iff.mp hl
    obtain ⟨t', hr, hrem⟩ := h.toSound.removeAt he
    exact ⟨t', hr, hrem.sound, hrem.filled.trans (hrem.capacity ▸ h.filled_le)⟩
  | rehash m lf =>
    refine ⟨fun _ => ?_, fun hp => absurd trivial hp⟩
    obtain ⟨n, c, h1, h2, h3, h4⟩ := hdc.cases (max m t.size) lf
    obtain ⟨t', hre, hr⟩ := h.toSound.rehash h1 h2 h4 (by omega)
    refine ⟨t', hre, hr.sound, ?_⟩
    by_cases hsame : (n, c) = (t.bucketCount, t.capacity)
    · rw [hr.same hsame]
      exact h.filled_le
    · rw [(hr.changed hsame).1, hr.capacity]
      omega
  | clear =>
    refine ⟨fun _ => ?_, fun hp => absurd trivial hp⟩
    obtain ⟨hs, -, hf, hc⟩ := h.toSound.clear
    exact ⟨t.clear, rfl, hs, hf.trans (hc ▸ h.filled_le)⟩

variable [DecidableEq K] (key : E → K)

/-- A run of calls returns, with the invariant in every state and all loops over a chain
ended, exactly if no `add` is out of room. -/
theorem table_runs_iff (hdc : Sizes determineCapacity) {m : Nat} {lf : F}
    (h0 : newTable determineCapacity m lf = .ok t) {ops : List (Op E F)}
    (hl : Along (exec determineCapacity) Legal t ops) :
    ((∃ t', run (exec determineCapacity) t ops = .ok t') ∧
        Throughout (exec determineCapacity) (fun t => t.Invariant ∧ t.LoopsEnd key) t ops) ↔
      Along (exec determineCapacity) Placeable t ops := by
  have hinv := newTable_invariant hdc h0
  clear h0
  induction ops generalizing t with
  | nil => exact iff_of_true ⟨⟨t, rfl⟩, hinv, hinv.toSound.loopsEnd key⟩ trivial
  | cons op ops ih =>
    obtain ⟨hyes, hno⟩ := exec_iff hdc hinv hl.1
    by_cases hp : Placeable t op
    · obtain ⟨t1, h1, hi⟩ := hyes hp
      have hrec := ih (hl.2 t1 h1) hi
      rw [run_cons_ok h1]
      simp only [Throughout, Along, h1, Except.ok.injEq, forall_eq', hp, hinv,
        hinv.toSound.loopsEnd key, and_self, true_and]
      exact hrec
    · obtain ⟨err, he⟩ := hno hp
      refine iff_of_false ?_ (fun ha => hp ha.1)
      rintro ⟨⟨t', ht'⟩, -⟩
      obtain ⟨t1, h1, -⟩ := run_cons_inv ht'
      rw [he] at h1
      cases h1

end Runs

/-- The sizes the source chooses for the default load factor and at most seven entries, and
larger ones as the primes come. -/
def smallSizes (m : Nat) (_ : Unit) : Except Fault (Nat × Nat) :=
  if m ≤ 3 then .ok (5, 3)
  else if m ≤ 7 then .ok (11, 8)
  else
    let n := Nat.find (Nat.exists_infinite_primes (m + 1))
    .ok (n, n - 1)

theorem sizes_smallSizes : Sizes smallSizes := by
  intro m lf
  by_cases h3 : m ≤ 3
  · exact ⟨5, 3, if_pos h3, by norm_num, h3, by decide⟩
  by_cases h7 : m ≤ 7
  · exact ⟨11, 8, by rw [smallSizes, if_neg h3, if_pos h7], by norm_num, by omega, by decide⟩
  · obtain ⟨hle, hp⟩ := Nat.find_spec (Nat.exists_infinite_primes (m + 1))
    exact ⟨_, _, by rw [smallSizes, if_neg h3, if_neg h7], hp, by omega, le_refl _⟩

theorem table_runs_two_chained :
    ∃ t : Table Nat Unit, newTable smallSizes 0 () = .ok t ∧
      ∃ t', run (exec smallSizes) t [.add 0 10, .add 5 11, .removeAt 0, .rehash 5 (), .clear] =
        .ok t' := by
  refine ⟨⟨3, (), 0, 0, 5, none⟩, rfl, ?_⟩
  exact ((table_runs_iff id sizes_smallSizes (m := 0) rfl (by decide +kernel)).mpr
    (by decide +kernel)).1

/-- Five calls of `add` and four of `removeAt` on a table of five buckets, of which three may be
filled. Before the last `add` all entries are gone, but three buckets are marked. -/
def tombstones : List (Op Nat F) :=
  [.add 0 10, .add 5 11, .removeAt 0, .add 1 12, .removeAt 1, .add 257 13, .removeAt 0,
    .removeAt 2, .add 3 14]

theorem add_derefs_null_after_tombstones :
    Sizes smallSizes ∧ ∃ t : Table Nat Unit, newTable smallSizes 0 () = .ok t ∧
      Along (exec smallSizes) Legal t tombstones ∧
      run (exec smallSizes) t tombstones = .error .nullDeref :=
  ⟨sizes_smallSizes, ⟨3, (), 0, 0, 5, none⟩, rfl, by decide +kernel, by decide +kernel⟩

end SystemCore.Libutils.BasicHashtable
