import Mathlib.Data.List.Perm.Basic

/-!
# Partial maps given by segments

A segment gives a value to each of `size` consecutive numbers from `start`. A
list of segments describes a partial map. Nothing is assumed about the order of
the list; disjointness of its segments makes the map single-valued.
-/
namespace SystemCore.Lib.Segments

/-- Values for the numbers from `start` up to, not including, `start + size`. -/
structure Seg (β : Type*) where
  start : Nat
  size : Nat
  val : Nat → β

variable {β : Type*} {l m : List (Seg β)}

namespace Seg

def Covers (s : Seg β) (k : Nat) : Prop := s.start ≤ k ∧ k < s.start + s.size

def Maps (s : Seg β) (k : Nat) (v : β) : Prop := s.Covers k ∧ s.val (k - s.start) = v

def Apart (s t : Seg β) : Prop := ∀ k, s.Covers k → ¬ t.Covers k

variable {s t u : Seg β}

theorem Apart.symm (h : Apart s t) : Apart t s :=
  fun k ht hs => h k hs ht

theorem apart_of_le (h : s.start + s.size ≤ t.start) : Apart s t := by
  rintro k ⟨_, hs⟩ ⟨ht, _⟩
  omega

theorem covers_iff (s : Seg β) (k : Nat) : s.Covers k ↔ ∃ v, s.Maps k v :=
  ⟨fun h => ⟨_, h, rfl⟩, fun ⟨_, h, _⟩ => h⟩

/-- `u` maps exactly what `s` and `t` map. -/
def Union (s t u : Seg β) : Prop := ∀ k v, u.Maps k v ↔ s.Maps k v ∨ t.Maps k v

theorem Union.covers (h : Union s t u) (k : Nat) : u.Covers k ↔ s.Covers k ∨ t.Covers k := by
  simp only [covers_iff, h k, exists_or]

theorem Union.apart {r : Seg β} (h : Union s t u) (hs : Apart s r) (ht : Apart t r) :
    Apart u r := by
  intro k hk
  rcases (h.covers k).mp hk with hk | hk
  · exact hs k hk
  · exact ht k hk

theorem union_empty (h : t.size = 0) : Union s t s := by
  intro k v
  constructor
  · exact Or.inl
  · rintro (hs | ⟨⟨h1, h2⟩, _⟩)
    · exact hs
    · omega

/-- `u` is `s` with `t` put behind it. -/
structure Joins (s t u : Seg β) : Prop where
  next : t.start = s.start + s.size
  start : u.start = s.start
  size : u.size = s.size + t.size
  left : ∀ i, i < s.size → u.val i = s.val i
  right : ∀ i, i < t.size → u.val (s.size + i) = t.val i

/-- A joined segment maps exactly what its two parts map. -/
theorem Joins.union (h : Joins s t u) : Union s t u := by
  have hn := h.next
  have hz := h.size
  have hst := h.start
  intro k v
  constructor
  · rintro ⟨⟨h1, h2⟩, hv⟩
    by_cases hk : k < s.start + s.size
    · refine Or.inl ⟨⟨by omega, hk⟩, ?_⟩
      rwa [hst, h.left _ (by omega)] at hv
    · refine Or.inr ⟨⟨by omega, by omega⟩, ?_⟩
      have he : k - u.start = s.size + (k - t.start) := by omega
      rwa [he, h.right _ (by omega)] at hv
  · rintro (⟨⟨h1, h2⟩, hv⟩ | ⟨⟨h1, h2⟩, hv⟩)
    · refine ⟨⟨by omega, by omega⟩, ?_⟩
      rwa [hst, h.left _ (by omega)]
    · refine ⟨⟨by omega, by omega⟩, ?_⟩
      have he : k - u.start = s.size + (k - t.start) := by omega
      rwa [he, h.right _ (by omega)]

end Seg

def Maps (l : List (Seg β)) (k : Nat) (v : β) : Prop := ∃ s ∈ l, s.Maps k v

def Apart (l : List (Seg β)) : Prop := l.Pairwise Seg.Apart

@[simp] theorem maps_nil (k : Nat) (v : β) : ¬ Maps ([] : List (Seg β)) k v := by
  rintro ⟨s, hs, _⟩
  cases hs

@[simp] theorem maps_cons (s : Seg β) (l : List (Seg β)) (k : Nat) (v : β) :
    Maps (s :: l) k v ↔ s.Maps k v ∨ Maps l k v := by
  simp [Maps]

@[simp] theorem maps_append (l m : List (Seg β)) (k : Nat) (v : β) :
    Maps (l ++ m) k v ↔ Maps l k v ∨ Maps m k v := by
  simp only [Maps, List.mem_append, or_and_right, exists_or]

theorem maps_perm (h : l.Perm m) (k : Nat) (v : β) : Maps l k v ↔ Maps m k v := by
  simp only [Maps, h.mem_iff]

theorem apart_perm (h : l.Perm m) : Apart l ↔ Apart m :=
  h.pairwise_iff (fun hst => Seg.Apart.symm hst)

end SystemCore.Lib.Segments
