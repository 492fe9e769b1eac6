import Mathlib.Data.List.Chain
import Mathlib.Data.List.Nodup

/-!
# Rings of doubly linked nodes

A ring has a head that is always there, and nodes behind it, and the links of the last node lead
back to the head. Nodes are put in behind the head and taken out anywhere. Many rings may share
the two link functions, as long as they have no node in common.
-/
namespace SystemCore.Lib.Ring

open List Function

variable {α : Type*} {l : List α}

structure Links (α : Type*) where
  next : α → α
  prev : α → α

namespace Links

variable [DecidableEq α]

def insertAfter (r : Links α) (head new : α) : Links α where
  next := Function.update (Function.update r.next new (r.next head)) head new
  prev := Function.update (Function.update r.prev new head) (r.next head) new

def unlink (r : Links α) (old : α) : Links α where
  next := Function.update r.next (r.prev old) (r.next old)
  prev := Function.update r.prev (r.next old) (r.prev old)

end Links

/-! ## Stretches of a ring -/

def Linked (r : Links α) (l : List α) : Prop :=
  l.IsChain fun a b => r.next a = b ∧ r.prev b = a

/-- The links out of the last node and into the first one do not matter. -/
theorem Linked.congr {r r' : Links α} (h : Linked r l)
    (hnext : ∀ a ∈ l.dropLast, r'.next a = r.next a) (hprev : ∀ b ∈ l.tail, r'.prev b = r.prev b) :
    Linked r' l := by
  induction l with
  | nil => exact isChain_nil
  | cons a l ih =>
    cases l with
    | nil => exact isChain_singleton a
    | cons b l =>
      obtain ⟨⟨hab, hba⟩, hrest⟩ := isChain_cons_cons.mp h
      have hrest' : Linked r' (b :: l) :=
        ih hrest (fun x hx => hnext x (mem_cons_of_mem a hx)) fun x hx =>
          hprev x (mem_cons_of_mem b hx)
      refine isChain_cons_cons.mpr ⟨⟨?_, ?_⟩, hrest'⟩
      · rw [hnext a mem_cons_self, hab]
      · rw [hprev b mem_cons_self, hba]

/-- The nodes behind the head in their order, and back to the head. -/
structure IsRing (r : Links α) (head : α) (l : List α) : Prop where
  nodup : (head :: l).Nodup
  linked : Linked r (head :: (l ++ [head]))

namespace IsRing

variable {r : Links α} {head x : α} {l pre post l' : List α} (h : IsRing r head l)

include h

theorem head_notMem : head ∉ l := (nodup_cons.mp h.nodup).1

theorem nodup_turned : (l ++ [head]).Nodup :=
  nodup_append_comm.mp h.nodup

theorem prev_head : r.prev head = l.getLast?.getD head := by
  have hlast := isChain_append.mp (show Linked r ((head :: l) ++ [head]) from h.linked)
  rcases eq_nil_or_concat l with rfl | ⟨l, x, rfl⟩
  · exact (hlast.2.2 head rfl head rfl).2
  · rw [concat_eq_append, List.getLast?_concat]
    refine (hlast.2.2 x ?_ head rfl).2
    rw [concat_eq_append, ← cons_append, List.getLast?_concat]
    rfl

theorem next_head : r.next head = l.head?.getD head := by
  cases l with
  | nil => exact (isChain_cons_cons.mp h.linked).1.1
  | cons x l => exact (isChain_cons_cons.mp h.linked).1.1

theorem next_head_mem : r.next head ∈ head :: l := by
  rw [h.next_head]
  cases l with
  | nil => exact mem_cons_self
  | cons x l => exact mem_cons_of_mem _ mem_cons_self

omit h in
theorem around (h : IsRing r head (pre ++ x :: post)) :
    r.prev x = pre.getLast?.getD head ∧ r.next x = post.head?.getD head := by
  have hlinked : Linked r ((head :: pre) ++ x :: (post ++ [head])) := by
    have h' := h.linked
    rwa [append_assoc, cons_append] at h'
  obtain ⟨hbefore, hbehind⟩ := isChain_split.mp hlinked
  constructor
  · rcases eq_nil_or_concat pre with rfl | ⟨pre, y, rfl⟩
    · exact (isChain_cons_cons.mp hbefore).1.2
    · rw [concat_eq_append, List.getLast?_concat]
      rw [concat_eq_append] at hbefore
      refine ((isChain_append.mp hbefore).2.2 y ?_ x rfl).2
      rw [← cons_append, List.getLast?_concat]
      rfl
  · cases post with
    | nil => exact (isChain_cons_cons.mp hbehind).1.1
    | cons y post => exact (isChain_cons_cons.mp hbehind).1.1

omit h in
theorem getLast?_getD_mem (pre : List α) (head : α) : pre.getLast?.getD head ∈ head :: pre := by
  rcases eq_nil_or_concat pre with rfl | ⟨pre, y, rfl⟩
  · exact mem_cons_self
  · rw [concat_eq_append, List.getLast?_concat]
    exact mem_cons_of_mem _ (mem_append_right _ mem_cons_self)

omit h in
theorem head?_getD_mem (post : List α) (head : α) : post.head?.getD head ∈ post ++ [head] := by
  cases post with
  | nil => exact mem_cons_self
  | cons y post => exact mem_append_left _ mem_cons_self

/-- The neighbours of a node are in its ring. -/
theorem around_mem (hx : x ∈ l) : r.prev x ∈ head :: l ∧ r.next x ∈ head :: l := by
  obtain ⟨pre, post, rfl⟩ := append_of_mem hx
  obtain ⟨hprev, hnext⟩ := h.around
  rw [hprev, hnext]
  constructor
  · rcases mem_cons.mp (getLast?_getD_mem pre head) with heq | hmem
    · rw [heq]
      exact mem_cons_self
    · exact mem_cons_of_mem _ (mem_append_left _ hmem)
  · rcases mem_append.mp (head?_getD_mem post head) with hmem | hmem
    · exact mem_cons_of_mem _ (mem_append_right _ (mem_cons_of_mem x hmem))
    · rw [mem_singleton.mp hmem]
      exact mem_cons_self

/-! ## Putting a node in and taking one out -/

/-- A ring whose nodes keep their links. -/
theorem congr {r' : Links α} (hnext : ∀ a ∈ head :: l, r'.next a = r.next a)
    (hprev : ∀ a ∈ head :: l, r'.prev a = r.prev a) : IsRing r' head l := by
  refine ⟨h.nodup, h.linked.congr (fun a ha => hnext a ?_) fun b hb => hprev b ?_⟩
  · rwa [← cons_append, dropLast_concat] at ha
  · rcases mem_append.mp hb with hb | hb
    · exact mem_cons_of_mem head hb
    · rw [mem_singleton.mp hb]
      exact mem_cons_self

variable [DecidableEq α]

theorem insertAfter {new : α} (hnew : new ∉ head :: l) :
    IsRing (r.insertAfter head new) head (new :: l) := by
  have hne : new ≠ head := fun heq => hnew (heq ▸ mem_cons_self)
  have hfirst := h.next_head_mem
  have hnext_ne : new ≠ r.next head := fun heq => hnew (heq ▸ hfirst)
  have hnodup : (head :: new :: l).Nodup :=
    (List.Perm.swap head new l).nodup (nodup_cons.mpr ⟨hnew, h.nodup⟩)
  have hkept : Linked (r.insertAfter head new) (l ++ [head]) := by
    refine Linked.congr (isChain_cons.mp h.linked).2 ?_ ?_
    · intro a ha
      rw [dropLast_concat] at ha
      have hahead : a ≠ head := fun heq => h.head_notMem (heq ▸ ha)
      have hanew : a ≠ new := fun heq => hnew (heq ▸ mem_cons_of_mem head ha)
      simp only [Links.insertAfter, update_of_ne hahead, update_of_ne hanew]
    · intro b hb
      -- only the first node gets a new link to the one before it
      have hbfirst : b ≠ r.next head := by
        rw [h.next_head]
        cases l with
        | nil => cases hb
        | cons x l =>
          have hx := (nodup_cons.mp h.nodup_turned).1
          rintro rfl
          exact hx hb
      have hbnew : b ≠ new := by
        have hb' := mem_of_mem_tail hb
        rintro rfl
        rcases mem_append.mp hb' with hb' | hb'
        · exact hnew (mem_cons_of_mem _ hb')
        · exact hne (mem_singleton.mp hb')
      simp only [Links.insertAfter, update_of_ne hbfirst, update_of_ne hbnew]
  refine ⟨hnodup, ?_⟩
  rw [cons_append]
  refine isChain_cons_cons.mpr ⟨⟨?_, ?_⟩, isChain_cons.mpr ⟨?_, hkept⟩⟩
  · simp [Links.insertAfter]
  · simp [Links.insertAfter, update_of_ne hnext_ne]
  · intro y hy
    have hy' : r.next head = y := by
      rw [h.next_head]
      cases l with
      | nil => exact Option.some.inj hy
      | cons x l => exact Option.some.inj hy
    simp [Links.insertAfter, update_of_ne hne, hy']

omit h in
theorem unlink (h : IsRing r head (pre ++ x :: post)) : IsRing (r.unlink x) head (pre ++ post) := by
  obtain ⟨hprev, hnext⟩ := h.around
  have hnodup := h.nodup
  have hsplit : (head :: pre).Nodup ∧ (x :: post).Nodup ∧ List.Disjoint (head :: pre) (x :: post) := by
    rw [← cons_append] at hnodup
    exact nodup_append'.mp hnodup
  obtain ⟨hpre, hpost, hdisj⟩ := hsplit
  have hlinked : Linked r ((head :: pre) ++ x :: (post ++ [head])) := by
    have h' := h.linked
    rwa [append_assoc, cons_append] at h'
  obtain ⟨hbefore, hbehind⟩ := isChain_split.mp hlinked
  have hheadpost : head ∉ post := fun hmem =>
    hdisj mem_cons_self (mem_cons_of_mem x hmem)
  have hleft : Linked (r.unlink x) (head :: pre) := by
    refine Linked.congr (isChain_append.mp hbefore).1 (fun a ha => ?_) fun b hb => ?_
    · -- the last node before it is the only one with a new link, and it is not meant here
      have hane : a ≠ r.prev x := by
        rw [hprev]
        rcases eq_nil_or_concat pre with rfl | ⟨pre, y, rfl⟩
        · cases ha
        · rw [concat_eq_append, ← cons_append, dropLast_concat] at ha
          rw [concat_eq_append, List.getLast?_concat]
          rw [concat_eq_append, ← cons_append, nodup_append'] at hpre
          exact fun heq => hpre.2.2 ha (by rw [heq]; exact mem_singleton_self y)
      exact update_of_ne hane _ _
    · have hbne : b ≠ r.next x := by
        rw [hnext]
        rintro rfl
        rcases mem_append.mp (head?_getD_mem post head) with hmem | hmem
        · exact hdisj (mem_cons_of_mem head hb) (mem_cons_of_mem x hmem)
        · rw [mem_singleton.mp hmem] at hb
          exact (nodup_cons.mp hpre).1 hb
      exact update_of_ne hbne _ _
  have hright : Linked (r.unlink x) (post ++ [head]) := by
    refine Linked.congr (isChain_cons.mp hbehind).2 (fun a ha => ?_) fun b hb => ?_
    · rw [dropLast_concat] at ha
      have hane : a ≠ r.prev x := by
        rw [hprev]
        rintro rfl
        exact hdisj (getLast?_getD_mem pre head) (mem_cons_of_mem x ha)
      exact update_of_ne hane _ _
    · have hbne : b ≠ r.next x := by
        rw [hnext]
        cases post with
        | nil => cases hb
        | cons y post =>
          rintro rfl
          have hy := (nodup_cons.mp (nodup_cons.mp hpost).2).1
          rcases mem_append.mp hb with hb | hb
          · exact hy hb
          · exact hheadpost (by rw [← mem_singleton.mp hb]; exact mem_cons_self)
      exact update_of_ne hbne _ _
  refine ⟨?_, ?_⟩
  · rw [← cons_append, nodup_append']
    exact ⟨hpre, (nodup_cons.mp hpost).2, fun a ha hb => hdisj ha (mem_cons_of_mem x hb)⟩
  · rw [append_assoc, ← cons_append]
    refine isChain_append.mpr ⟨hleft, hright, fun a ha b hb => ?_⟩
    have ha' : r.prev x = a := by
      rw [hprev]
      rcases eq_nil_or_concat pre with rfl | ⟨pre, y, rfl⟩
      · exact Option.some.inj ha
      · rw [concat_eq_append, ← cons_append, List.getLast?_concat] at ha
        rw [concat_eq_append, List.getLast?_concat]
        exact Option.some.inj ha
    have hb' : r.next x = b := by
      rw [hnext]
      cases post with
      | nil => exact Option.some.inj hb
      | cons y post => exact Option.some.inj hb
    rw [← ha', ← hb']
    exact ⟨update_self .., update_self ..⟩

theorem insertAfter_other {other new : α} (hother : IsRing r other l') (hnew : new ∉ head :: l)
    (hdisj : List.Disjoint (other :: l') (head :: l)) :
    IsRing (r.insertAfter other new) head l := by
  refine h.congr (fun a ha => ?_) fun a ha => ?_
  all_goals
    have hanew : a ≠ new := fun heq => hnew (heq ▸ ha)
  · have hahead : a ≠ other := fun heq => hdisj mem_cons_self (heq ▸ ha)
    simp only [Links.insertAfter, update_of_ne hahead, update_of_ne hanew]
  · have hafirst : a ≠ r.next other := fun heq => hdisj hother.next_head_mem (heq ▸ ha)
    simp only [Links.insertAfter, update_of_ne hafirst, update_of_ne hanew]

/-- A ring that the node was not in. -/
theorem unlink_other {other : α} (hother : IsRing r other l') (hx : x ∈ l')
    (hdisj : List.Disjoint (other :: l') (head :: l)) : IsRing (r.unlink x) head l := by
  obtain ⟨hprev, hnext⟩ := hother.around_mem hx
  refine h.congr (fun a ha => ?_) fun a ha => ?_
  · have hane : a ≠ r.prev x := by
      rintro rfl
      exact hdisj hprev ha
    exact update_of_ne hane _ _
  · have hane : a ≠ r.next x := by
      rintro rfl
      exact hdisj hnext ha
    exact update_of_ne hane _ _

end IsRing

/-! ## Walking along a ring -/

section Walk

variable [DecidableEq α]

/-- The nodes from one on, up to the head. -/
def walk (r : Links α) (head : α) : Nat → α → List α
  | 0, _ => []
  | fuel + 1, a => if a = head then [] else a :: walk r head fuel (r.next a)

variable {r : Links α} {head : α}

theorem walk_of_linked :
    ∀ {l : List α} {fuel : Nat}, head ∉ l → l.length < fuel →
      Linked r (l ++ [head]) → walk r head fuel ((l ++ [head]).head?.getD head) = l := by
  intro l
  induction l with
  | nil =>
    intro fuel _ hfuel _
    obtain ⟨n, rfl⟩ := Nat.exists_eq_add_of_lt hfuel
    simp [walk]
  | cons a l ih =>
    intro fuel hhead hfuel hlinked
    have hne : a ≠ head := fun heq => hhead (heq ▸ mem_cons_self)
    obtain ⟨n, rfl⟩ : ∃ n, fuel = n + 1 := ⟨fuel - 1, by simp at hfuel; omega⟩
    obtain ⟨hlink, hrest⟩ := isChain_cons.mp hlinked
    have hnext : r.next a = (l ++ [head]).head?.getD head := by
      cases l with
      | nil => exact (hlink head rfl).1
      | cons b l => exact (hlink b rfl).1
    have hlen : l.length < n := by simp at hfuel; omega
    change (if a = head then [] else a :: walk r head n (r.next a)) = a :: l
    rw [if_neg hne, hnext, ih (fun h => hhead (mem_cons_of_mem a h)) hlen hrest]

theorem IsRing.walk_eq (h : IsRing r head l) {fuel : Nat} (hfuel : l.length < fuel) :
    walk r head fuel (r.next head) = l := by
  have hnext : r.next head = (l ++ [head]).head?.getD head := by
    rw [h.next_head]
    cases l <;> rfl
  rw [hnext]
  exact walk_of_linked h.head_notMem hfuel (isChain_cons.mp h.linked).2

end Walk

end SystemCore.Lib.Ring
