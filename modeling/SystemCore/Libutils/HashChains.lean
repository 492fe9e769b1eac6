import SystemCore.Libutils.BasicHashtable
import SystemCore.Lib.ProbeChain
import Mathlib.Data.Nat.Prime.Basic

/-!
# The probe chains of a hash table

The number of buckets is a prime, so the chain of a hash meets every bucket. `Chained`
is what keeps an entry in reach: all buckets that come before it on its chain are marked.
A free bucket is found along the chain, which is marked up to it, and the new entry may
stand there.
-/
namespace SystemCore.Libutils.BasicHashtable

open Lib Bucket List

variable {E : Type*} {k j : Nat}

/-- Bucket `k` of the chain of a hash. -/
def chain (n : Nat) (hash : UInt32) (k : Nat) : Nat :=
  ProbeChain.place (chainStart hash n) (chainIncrement hash n) n k

section Chain

variable {n : Nat} (hn : n.Prime) (hash : UInt32)
include hn

theorem coprime_chainIncrement : Nat.Coprime (chainIncrement hash n) n := by
  have h2 := hn.two_le
  rw [Nat.coprime_comm, hn.coprime_iff_not_dvd]
  intro hdvd
  have hlt : ((hash >>> 7) ||| (hash <<< 25)).toNat % (n - 1) < n - 1 := Nat.mod_lt _ (by omega)
  have := Nat.le_of_dvd (Nat.succ_pos _) hdvd
  omega

theorem chain_zero : chain n hash 0 = chainStart hash n :=
  ProbeChain.place_zero (Nat.mod_lt _ hn.pos)

theorem chain_lt (k : Nat) : chain n hash k < n := ProbeChain.place_lt hn.pos k

theorem chain_inj (hj : j < n) (hk : k < n) (h : chain n hash j = chain n hash k) : j = k :=
  ProbeChain.place_inj (coprime_chainIncrement hn hash) hj hk h

theorem exists_chain {i : Nat} (hi : i < n) : ∃ k < n, chain n hash k = i :=
  ProbeChain.exists_place (coprime_chainIncrement hn hash) hi

end Chain

theorem chain_succ (n : Nat) (hash : UInt32) (k : Nat) :
    chain n hash (k + 1) = chainSeek (chain n hash k) (chainIncrement hash n) n :=
  ProbeChain.place_succ _ _ _ _

/-! ## Changing one bucket -/

section Buckets

variable {bs : List (Bucket E)}

variable {i : Nat} {b : Bucket E} {p : Bucket E → Bool} {e : E}

theorem bucketAt_eq (hi : i < bs.length) : bucketAt bs i = bs[i] := by
  simp only [bucketAt, getD_eq_getElem?_getD, List.getElem?_eq_getElem hi, Option.getD_some]

theorem bucketAt_set_self (hi : i < bs.length) (b : Bucket E) : bucketAt (bs.set i b) i = b := by
  rw [bucketAt_eq (by rwa [length_set]), getElem_set_self]

theorem bucketAt_set_ne (h : i ≠ j) (b : Bucket E) : bucketAt (bs.set i b) j = bucketAt bs j := by
  simp only [bucketAt, getD_eq_getElem?_getD, List.getElem?_set_ne h]

theorem countP_set (hi : i < bs.length) (b : Bucket E) :
    (bs.set i b).countP p + (if p (bucketAt bs i) then 1 else 0) =
      bs.countP p + if p b then 1 else 0 := by
  have hpos : p bs[i] = true → 0 < bs.countP p := fun h =>
    List.countP_pos_iff.mpr ⟨bs[i], List.getElem_mem hi, h⟩
  rw [List.countP_set hi, bucketAt_eq hi]
  split
  · rename_i h
    have := hpos h
    omega
  · omega

def Bucket.hashed (b : Bucket E) : Option (UInt32 × E) := b.entry.map fun e => (b.hash, e)

theorem Bucket.hashed_some (h : b.entry = some e) : b.hashed = some (b.hash, e) := by
  rw [hashed, h]
  rfl

theorem Bucket.hashed_none (h : b.entry = none) : b.hashed = none := by
  rw [hashed, h]
  rfl

def entries (bs : List (Bucket E)) : List (UInt32 × E) := bs.filterMap Bucket.hashed

theorem length_entries (bs : List (Bucket E)) : (entries bs).length = bs.countP Bucket.present := by
  rw [entries, length_filterMap_eq_countP]
  refine countP_congr fun b _ => ?_
  rw [hashed, Option.isSome_map, present]

/-- Overwriting a free bucket adds its new entry. -/
theorem entries_set_some (hi : i < bs.length) (hfree : (bucketAt bs i).entry = none)
    (hb : b.entry = some e) : (entries (bs.set i b)).Perm ((b.hash, e) :: entries bs) := by
  have h1 := (set_perm_cons_eraseIdx hi b).filterMap hashed
  have h2 := (getElem_cons_eraseIdx_perm hi).filterMap hashed
  rw [bucketAt_eq hi] at hfree
  rw [filterMap_cons_some (hashed_some hb)] at h1
  rw [filterMap_cons_none (hashed_none hfree)] at h2
  exact h1.trans (h2.cons _)

theorem entries_set_same (hi : i < bs.length) (hb : b.hashed = (bucketAt bs i).hashed) :
    entries (bs.set i b) = entries bs := by
  have hmap : (bs.set i b).map hashed = bs.map hashed := by
    rw [map_set, hb, bucketAt_eq hi, ← getElem_map hashed
      (h := by rwa [length_map]), set_getElem_self]
  have hid : ∀ l : List (Bucket E), entries l = (l.map hashed).filterMap id := by
    intro l
    rw [filterMap_map]
    rfl
  rw [hid, hmap, ← hid]

theorem mem_entries (hi : i < bs.length) (he : (bucketAt bs i).entry = some e) :
    ((bucketAt bs i).hash, e) ∈ entries bs := by
  refine mem_filterMap.mpr ⟨bs[i], getElem_mem hi, ?_⟩
  rw [← bucketAt_eq hi]
  exact hashed_some he

def Bucket.filled (b : Bucket E) : Bool := b.present || b.collision

theorem filled_of_present (h : b.present = true) : b.filled = true := by
  rw [filled, h, Bool.true_or]

theorem exists_not_of_countP_lt (h : bs.countP p < bs.length) :
    ∃ i < bs.length, p (bucketAt bs i) = false := by
  obtain ⟨b, hb, hp⟩ := countP_lt_length_iff.mp h
  obtain ⟨i, hi, rfl⟩ := getElem_of_mem hb
  exact ⟨i, hi, by rwa [bucketAt_eq hi]⟩

theorem mark_length (bs : List (Bucket E)) (i : Nat) : (mark bs i).length = bs.length :=
  length_set ..

theorem mark_entry (bs : List (Bucket E)) (i j : Nat) :
    (bucketAt (mark bs i) j).entry = (bucketAt bs j).entry := by
  by_cases hij : i = j
  · subst hij
    by_cases hi : i < bs.length
    · rw [mark, bucketAt_set_self hi]
    · rw [mark, set_eq_of_length_le (by omega)]
  · rw [mark, bucketAt_set_ne hij]

theorem mark_hash (bs : List (Bucket E)) (i j : Nat) :
    (bucketAt (mark bs i) j).hash = (bucketAt bs j).hash := by
  by_cases hij : i = j
  · subst hij
    by_cases hi : i < bs.length
    · rw [mark, bucketAt_set_self hi]
    · rw [mark, set_eq_of_length_le (by omega)]
  · rw [mark, bucketAt_set_ne hij]

theorem mark_collision (hi : i < bs.length) :
    (bucketAt (mark bs i) j).collision = true ↔ (bucketAt bs j).collision = true ∨ j = i := by
  by_cases hij : i = j
  · subst hij
    rw [mark, bucketAt_set_self hi]
    simp
  · rw [mark, bucketAt_set_ne hij]
    simp [Ne.symm hij]

theorem mark_filled (hi : i < bs.length) (hp : (bucketAt bs i).present = true) :
    (mark bs i).countP Bucket.filled = bs.countP Bucket.filled := by
  have h := countP_set (p := filled) hi { bucketAt bs i with collision := true }
  have h1 : filled { bucketAt bs i with collision := true } = true :=
    filled_of_present (b := { bucketAt bs i with collision := true }) hp
  rw [if_pos (filled_of_present hp), if_pos h1] at h
  exact Nat.add_right_cancel h

end Buckets

/-! ## Searching a free bucket -/

/-- The first `k` buckets of a chain marked. -/
def marked (n : Nat) (hash : UInt32) (bs : List (Bucket E)) : Nat → List (Bucket E)
  | 0 => bs
  | k + 1 => mark (marked n hash bs k) (chain n hash k)

section Marked

variable {n : Nat} {hash : UInt32} {bs : List (Bucket E)}

@[simp] theorem marked_length (k : Nat) : (marked n hash bs k).length = bs.length := by
  induction k with
  | zero => rfl
  | succ k ih => rw [marked, mark_length, ih]

theorem marked_entry (k j : Nat) :
    (bucketAt (marked n hash bs k) j).entry = (bucketAt bs j).entry := by
  induction k with
  | zero => rfl
  | succ k ih => rw [marked, mark_entry, ih]

theorem marked_present (k j : Nat) :
    (bucketAt (marked n hash bs k) j).present = (bucketAt bs j).present := by
  rw [present, marked_entry]
  rfl

theorem marked_hash (k j : Nat) :
    (bucketAt (marked n hash bs k) j).hash = (bucketAt bs j).hash := by
  induction k with
  | zero => rfl
  | succ k ih => rw [marked, mark_hash, ih]

theorem marked_collision (hn : n.Prime) (hlen : bs.length = n) (k j : Nat) :
    (bucketAt (marked n hash bs k) j).collision = true ↔
      (bucketAt bs j).collision = true ∨ ∃ i < k, chain n hash i = j := by
  induction k with
  | zero => simp [marked]
  | succ k ih =>
    rw [marked, mark_collision (by rw [marked_length, hlen]; exact chain_lt hn hash k), ih]
    simp only [Nat.lt_succ_iff_lt_or_eq, or_and_right, exists_or, exists_eq_left, or_assoc,
      eq_comm (a := j)]

theorem marked_entries (hn : n.Prime) (hlen : bs.length = n) (k : Nat) :
    entries (marked n hash bs k) = entries bs := by
  induction k with
  | zero => rfl
  | succ k ih =>
    have hk : chain n hash k < (marked n hash bs k).length := by
      rw [marked_length, hlen]
      exact chain_lt hn hash k
    rw [marked, mark, entries_set_same hk (b := { bucketAt _ _ with collision := true }) rfl, ih]

/-- Marking present buckets does not fill any. -/
theorem marked_filled (hn : n.Prime) (hlen : bs.length = n)
    (hp : ∀ j < k, (bucketAt bs (chain n hash j)).present = true) :
    (marked n hash bs k).countP Bucket.filled = bs.countP Bucket.filled := by
  induction k with
  | zero => rfl
  | succ k ih =>
    rw [marked, mark_filled, ih fun j hj => hp j (by omega)]
    · rw [marked_length, hlen]
      exact chain_lt hn hash k
    · rw [marked_present]
      exact hp k (Nat.lt_succ_self k)

/-- The loop marks the chain up to its first free bucket. -/
theorem skipPresent_eq {last : Nat}
    (hp : ∀ j < last, (bucketAt bs (chain n hash j)).present = true)
    (hfree : (bucketAt bs (chain n hash last)).present = false) :
    ∀ (fuel k : Nat), k < last → last ≤ k + fuel →
      skipPresent n (chainIncrement hash n) fuel (chain n hash k) (marked n hash bs k) =
        .ok (chain n hash last, marked n hash bs last) := by
  intro fuel
  induction fuel with
  | zero =>
    intro k hk hle
    omega
  | succ fuel ih =>
    intro k hk hle
    simp only [skipPresent, ← chain_succ]
    change (if (bucketAt (marked n hash bs (k + 1)) (chain n hash (k + 1))).present = true then
      skipPresent n (chainIncrement hash n) fuel (chain n hash (k + 1))
        (marked n hash bs (k + 1)) else _) = _
    rw [marked_present]
    rcases Nat.lt_or_ge (k + 1) last with hlt | hge
    · rw [if_pos (hp (k + 1) hlt)]
      exact ih (k + 1) hlt (by omega)
    · obtain rfl : k + 1 = last := by omega
      rw [if_neg (by rw [hfree]; exact Bool.false_ne_true)]
      rfl

/-- `freeBucket` finds the first free bucket of the chain, if there is one in the table. -/
theorem freeBucket_eq (hn : n.Prime) (hash : UInt32)
    (hfree : ∃ i < n, (bucketAt bs i).present = false) :
    ∃ k < n, (∀ j < k, (bucketAt bs (chain n hash j)).present = true) ∧
      (bucketAt bs (chain n hash k)).present = false ∧
      freeBucket n hash bs = .ok (chain n hash k, marked n hash bs k) := by
  obtain ⟨i, hi, hip⟩ := hfree
  obtain ⟨m, hm, rfl⟩ := exists_chain hn hash hi
  have hex : ∃ k, (bucketAt bs (chain n hash k)).present = false := ⟨m, hip⟩
  have hmin : ∀ j < Nat.find hex, (bucketAt bs (chain n hash j)).present = true := by
    intro j hj
    simpa using Nat.find_min hex hj
  have hlt : Nat.find hex < n := (Nat.find_min' hex hip).trans_lt hm
  refine ⟨Nat.find hex, hlt, hmin, Nat.find_spec hex, ?_⟩
  have hspec := Nat.find_spec hex
  generalize Nat.find hex = k at *
  simp only [freeBucket, ← chain_zero hn hash]
  cases k with
  | zero => rw [if_neg (by rw [hspec]; exact Bool.false_ne_true)]; rfl
  | succ k =>
    rw [if_pos (hmin 0 (Nat.succ_pos k))]
    exact skipPresent_eq hmin hspec n 0 (Nat.succ_pos k) (by omega)

end Marked

/-! ## Entries in reach -/

/-- All buckets that come before an entry on its own chain are marked. -/
structure Chained (n : Nat) (bs : List (Bucket E)) : Prop where
  length : bs.length = n
  reach : ∀ i < n, (bucketAt bs i).present = true →
    ∃ k < n, chain n (bucketAt bs i).hash k = i ∧
      ∀ j < k, (bucketAt bs (chain n (bucketAt bs i).hash j)).collision = true

section Chained

variable {n : Nat} {hash : UInt32} {bs : List (Bucket E)}

/-- The buckets after a new entry was put into the first free bucket of its chain. -/
def placed (n : Nat) (hash : UInt32) (e : E) (bs : List (Bucket E)) (k : Nat) : List (Bucket E) :=
  (marked n hash bs k).set (chain n hash k)
    ⟨(bucketAt bs (chain n hash k)).collision, hash, some e⟩

theorem chained_allocate (n : Nat) : Chained n (allocateBuckets n : List (Bucket E)) := by
  refine ⟨length_replicate, ?_⟩
  intro i hi hp
  rw [bucketAt_eq (by simpa [allocateBuckets] using hi)] at hp
  simp only [allocateBuckets, getElem_replicate] at hp
  cases hp

theorem placed_ne (e : E) {i : Nat} (hi : chain n hash k ≠ i) :
    bucketAt (placed n hash e bs k) i = bucketAt (marked n hash bs k) i := by
  rw [placed, bucketAt_set_ne hi]

theorem Chained.placed_length (h : Chained n bs) (e : E) (k : Nat) :
    (placed n hash e bs k).length = n := by
  rw [placed, length_set, marked_length, h.length]

variable (h : Chained n bs) (hn : n.Prime)
include h hn

/-- The free bucket keeps its own flag: it is not marked on the way. -/
theorem Chained.free_collision (hk : k < n) :
    (bucketAt (marked n hash bs k) (chain n hash k)).collision =
      (bucketAt bs (chain n hash k)).collision := by
  rw [Bool.eq_iff_iff, marked_collision hn h.length]
  constructor
  · rintro (hc | ⟨i, hi, he⟩)
    · exact hc
    · have := chain_inj hn hash (hi.trans hk) hk he
      omega
  · exact Or.inl

theorem Chained.chain_lt_length (k : Nat) : chain n hash k < (marked n hash bs k).length := by
  rw [marked_length, h.length]
  exact chain_lt hn hash k

theorem Chained.placed_self (e : E) (k : Nat) : bucketAt (placed n hash e bs k) (chain n hash k) =
    ⟨(bucketAt bs (chain n hash k)).collision, hash, some e⟩ := by
  rw [placed, bucketAt_set_self (h.chain_lt_length hn k)]

theorem Chained.placed_collision (e : E) (hk : k < n) (i : Nat) :
    (bucketAt (placed n hash e bs k) i).collision = true ↔
      (bucketAt bs i).collision = true ∨ ∃ j < k, chain n hash j = i := by
  by_cases hi : chain n hash k = i
  · subst hi
    rw [h.placed_self hn, ← marked_collision hn h.length, h.free_collision hn hk]
  · rw [placed_ne e hi, marked_collision hn h.length]

/-- A new entry in the first free bucket of its chain is in reach, and so are the others. -/
theorem Chained.place (e : E) (hk : k < n) : Chained n (placed n hash e bs k) := by
  refine ⟨h.placed_length e k, ?_⟩
  intro i hi hp
  by_cases hik : chain n hash k = i
  · subst hik
    rw [h.placed_self hn]
    refine ⟨k, hk, rfl, ?_⟩
    intro j hj
    rw [h.placed_collision hn e hk]
    exact Or.inr ⟨j, hj, rfl⟩
  · rw [placed_ne e hik, marked_hash]
    rw [placed_ne e hik, marked_present] at hp
    obtain ⟨m, hm, he, hc⟩ := h.reach i hi hp
    refine ⟨m, hm, he, ?_⟩
    intro j hj
    rw [h.placed_collision hn e hk]
    exact Or.inl (hc j hj)

theorem Chained.placed_entries (e : E) (hfree : (bucketAt bs (chain n hash k)).present = false) :
    (entries (placed n hash e bs k)).Perm ((hash, e) :: entries bs) := by
  have hnone : (bucketAt (marked n hash bs k) (chain n hash k)).entry = none := by
    rw [marked_entry]
    simpa [present] using hfree
  have hperm := entries_set_some (h.chain_lt_length hn k) hnone
    (b := ⟨(bucketAt bs (chain n hash k)).collision, hash, some e⟩) rfl
  rwa [marked_entries hn h.length] at hperm

theorem Chained.placed_filled (e : E) (hk : k < n)
    (hp : ∀ j < k, (bucketAt bs (chain n hash j)).present = true)
    (hfree : (bucketAt bs (chain n hash k)).present = false) :
    (placed n hash e bs k).countP Bucket.filled = bs.countP Bucket.filled +
      if (bucketAt bs (chain n hash k)).collision then 0 else 1 := by
  have hlt : chain n hash k < (marked n hash bs k).length := h.chain_lt_length hn k
  have hset := countP_set (p := filled) hlt
    ⟨(bucketAt bs (chain n hash k)).collision, hash, some e⟩
  rw [marked_filled hn h.length hp, filled, marked_present, hfree,
    h.free_collision hn hk] at hset
  change (placed n hash e bs k).countP filled + _ = _ + if filled _ = true then 1 else 0
    at hset
  simp only [filled, present, Option.isSome_some, Bool.true_or, if_true,
    Bool.false_or] at hset ⊢
  split at hset <;> simp_all

end Chained

end SystemCore.Libutils.BasicHashtable
