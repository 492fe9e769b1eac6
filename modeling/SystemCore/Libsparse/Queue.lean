import SystemCore.Libsparse.BackedBlock
import Mathlib.Data.List.Pairwise

/-!
# What one call of queue_bb does

`queueBb_inv` lists the outcomes of a call that returns: the new node becomes the
head, or it is linked behind the node where the search stopped and taken together
with its neighbours there. `queueBb_behind` is the converse for a search that stops
behind a lower node. Callers use these and do not unfold the search.
-/
namespace SystemCore.Libsparse

open List

/-- `merge_bb` returns 0 on the nodes `a` and `b`. -/
def mergeable (blockSize : UInt32) (a b : BackedBlock) : Bool :=
  a.block + a.len / blockSize == b.block && compatible a b

@[simp] theorem absorb_block (a b : BackedBlock) : (a.absorb b).block = a.block := rfl
@[simp] theorem absorb_len (a b : BackedBlock) : (a.absorb b).len = a.len + b.len := rfl
@[simp] theorem absorb_backing (a b : BackedBlock) : (a.absorb b).backing = a.backing := rfl

section Merge

variable {bs : UInt32} {a b bb m newBb : BackedBlock} {rest next l : List BackedBlock}
  {r : Option BackedBlock}

theorem compatible_type (h : compatible a b = true) : a.backing.type = b.backing.type := by
  unfold compatible at h
  split at h <;> simp_all [Backing.type]

theorem mergeBb_inv (h : mergeBb bs a b = .ok r) :
    a.block < b.block ∧ r = if mergeable bs a b then some (a.absorb b) else none := by
  unfold mergeBb at h
  split_ifs at h with hlt htype hbs hadj hc <;> cases h
  · have hc : compatible a b = false := Bool.eq_false_iff.mpr fun hc => htype (compatible_type hc)
    exact ⟨hlt, by simp [mergeable, hc]⟩
  · exact ⟨hlt, by simp [mergeable, hadj]⟩
  · exact ⟨hlt, by simp [mergeable, hadj, hc]⟩
  · exact ⟨hlt, by simp [mergeable, hc]⟩

theorem mergeBb_eq (hlt : a.block < b.block) (hbs : bs ≠ 0) :
    mergeBb bs a b = .ok (if mergeable bs a b then some (a.absorb b) else none) := by
  cases hr : mergeBb bs a b with
  | ok r => rw [(mergeBb_inv hr).2]
  | error e =>
    unfold mergeBb at hr
    split_ifs at hr

/-- The new node after `merge_bb(bbl, new_bb, new_bb->next)`, and what follows it. -/
def joinNext (bs : UInt32) (newBb : BackedBlock) :
    List BackedBlock → BackedBlock × List BackedBlock
  | [] => (newBb, [])
  | n :: rest => if mergeable bs newBb n then (newBb.absorb n, rest) else (newBb, n :: rest)

/-- The nodes after `merge_bb(bbl, bb, new_bb)`. -/
def joinPrev (bs : UInt32) (bb : BackedBlock) (m : BackedBlock × List BackedBlock) :
    List BackedBlock :=
  if mergeable bs bb m.1 then bb.absorb m.1 :: m.2 else bb :: m.1 :: m.2

theorem joinNext_fst (bs : UInt32) (newBb : BackedBlock) (next : List BackedBlock) :
    (joinNext bs newBb next).1.block = newBb.block ∧
      (joinNext bs newBb next).1.addr = newBb.addr := by
  cases next with
  | nil => exact ⟨rfl, rfl⟩
  | cons n rest =>
    simp only [joinNext]
    split_ifs <;> exact ⟨rfl, rfl⟩

theorem mergeInto_inv (h : mergeInto bs bb m rest = .ok l) :
    bb.block < m.block ∧ l = joinPrev bs bb (m, rest) := by
  unfold mergeInto at h
  cases hm : mergeBb bs bb m with
  | error e => rw [hm] at h; cases h
  | ok r =>
    obtain ⟨hlt, hr⟩ := mergeBb_inv hm
    refine ⟨hlt, ?_⟩
    rw [hm, hr] at h
    unfold joinPrev
    cases hb : mergeable bs bb m <;> simp [hb] at h ⊢ <;> exact h.symm

theorem mergeInto_eq (hlt : bb.block < m.block) (hbs : bs ≠ 0) (rest : List BackedBlock) :
    mergeInto bs bb m rest = .ok (joinPrev bs bb (m, rest)) := by
  unfold mergeInto joinPrev
  rw [mergeBb_eq hlt hbs]
  cases mergeable bs bb m <;> simp

/-- The second merge is on what the first one leaves. -/
theorem linkAndMerge_cons {n : BackedBlock} (h : mergeBb bs newBb n = .ok r) :
    linkAndMerge bs bb newBb (n :: rest) =
      mergeInto bs bb (joinNext bs newBb (n :: rest)).1 (joinNext bs newBb (n :: rest)).2 := by
  simp only [linkAndMerge, h, joinNext, (mergeBb_inv h).2]
  cases mergeable bs newBb n <;> rfl

theorem linkAndMerge_inv (h : linkAndMerge bs bb newBb next = .ok l) :
    bb.block < newBb.block ∧ (∀ n ∈ next.head?, newBb.block < n.block) ∧
      l = joinPrev bs bb (joinNext bs newBb next) := by
  cases next with
  | nil =>
    obtain ⟨hlt, hl⟩ := mergeInto_inv h
    exact ⟨hlt, by simp, hl⟩
  | cons n rest =>
    cases hm : mergeBb bs newBb n with
    | error e => simp [linkAndMerge, hm] at h
    | ok r =>
      rw [linkAndMerge_cons hm] at h
      obtain ⟨hlt, hl⟩ := mergeInto_inv h
      rw [(joinNext_fst bs newBb _).1] at hlt
      exact ⟨hlt, by simpa using (mergeBb_inv hm).1, hl⟩

theorem linkAndMerge_eq (hlt : bb.block < newBb.block)
    (hn : ∀ n ∈ next.head?, newBb.block < n.block) (hbs : bs ≠ 0) :
    linkAndMerge bs bb newBb next = .ok (joinPrev bs bb (joinNext bs newBb next)) := by
  cases next with
  | nil => exact mergeInto_eq hlt hbs []
  | cons n rest =>
    rw [linkAndMerge_cons (mergeBb_eq (hn n (by simp)) hbs)]
    exact mergeInto_eq (by rwa [(joinNext_fst bs newBb _).1]) hbs _

end Merge

/-! ## The search -/

variable {nodes : List BackedBlock}

section Search

variable {freed : FreedRead} {lastUsed : Option Nat} {bbl bbl' : BackedBlockList}
  {newBb hd : BackedBlock} {tl : List BackedBlock} {c : Cursor}

theorem cursorAt_nodes {i : Nat} (h : cursorAt nodes i = some c) : c.nodes = nodes := by
  unfold cursorAt at h
  split at h
  · cases h
  · rename_i bb next hd
    obtain rfl := Option.some.inj h
    rw [Cursor.nodes, ← hd, take_append_drop]

theorem startOr_spec {o : Option Cursor} (ho : ∀ c ∈ o, c.nodes = hd :: tl) :
    (startOr ⟨[], hd, tl⟩ newBb o).nodes = hd :: tl ∧
      ((startOr ⟨[], hd, tl⟩ newBb o).bb.block < newBb.block ∨
        startOr ⟨[], hd, tl⟩ newBb o = ⟨[], hd, tl⟩) := by
  cases o with
  | none => exact ⟨rfl, .inr rfl⟩
  | some c =>
    simp only [startOr]
    split_ifs with hlt
    · exact ⟨ho c rfl, .inl hlt⟩
    · exact ⟨rfl, .inr rfl⟩

theorem searchStart_spec (h : searchStart freed lastUsed newBb hd tl = .ok c) :
    c.nodes = hd :: tl ∧ (c.bb.block < newBb.block ∨ c = ⟨[], hd, tl⟩) := by
  unfold searchStart at h
  dsimp only at h
  split at h
  · cases h
    exact ⟨rfl, .inr rfl⟩
  · split at h
    · rename_i c' hc
      cases h
      exact startOr_spec (fun d hd' => by cases hd'; exact cursorAt_nodes hc)
    · split at h <;> cases h
      exact startOr_spec (fun d hd' => cursorAt_nodes hd')

theorem seek_spec (newBb : BackedBlock) :
    ∀ (next before : List BackedBlock) (bb : BackedBlock),
      (seek newBb before bb next).nodes = before ++ bb :: next ∧
      (∀ n ∈ (seek newBb before bb next).next.head?, ¬ n.block < newBb.block) ∧
      ((seek newBb before bb next).bb.block < newBb.block ∨
        seek newBb before bb next = ⟨before, bb, next⟩) := by
  intro next
  induction next with
  | nil => intro before bb; exact ⟨rfl, by simp [seek], .inr rfl⟩
  | cons n rest ih =>
    intro before bb
    unfold seek
    split
    · rename_i hlt
      obtain ⟨h1, h2, h3⟩ := ih (before ++ [bb]) n
      refine ⟨by simpa using h1, h2, .inl ?_⟩
      rcases h3 with h3 | h3
      · exact h3
      · rw [h3]; exact hlt
    · rename_i hlt
      exact ⟨rfl, by simpa using hlt, .inr rfl⟩

/-- The search ends behind a lower node, or behind a head that is not higher, and
the node after it is not lower. -/
theorem searchStop_spec (h : searchStop freed bbl newBb = .ok (some c)) :
    c.nodes = bbl.dataBlocks ∧ (∀ n ∈ c.next.head?, ¬ n.block < newBb.block) ∧
      (c.bb.block < newBb.block ∨ (c.before = [] ∧ ¬ newBb.block < c.bb.block)) := by
  unfold searchStop at h
  split at h
  · cases h
  rename_i hd tl hl
  split_ifs at h with hge
  · cases h
  split at h
  · cases h
  rename_i s hs
  cases h
  obtain ⟨hn, hs'⟩ := searchStart_spec hs
  obtain ⟨h1, h2, h3⟩ := seek_spec newBb s.next s.before s.bb
  refine ⟨by rw [h1, hl, ← hn]; rfl, h2, ?_⟩
  rcases h3 with h3 | h3
  · exact .inl h3
  · rw [h3]
    rcases hs' with hs' | rfl
    · exact .inl hs'
    · exact .inr ⟨rfl, hge⟩

theorem searchStop_none (h : searchStop freed bbl newBb = .ok none) :
    ∀ n ∈ bbl.dataBlocks.head?, newBb.block < n.block := by
  unfold searchStop at h
  split at h
  · rename_i hl
    simp [hl]
  · rename_i hd tl hl
    split_ifs at h with hlt
    · simpa [hl] using hlt
    · split at h <;> cases h

/-- The search begins unless a trap meets a `last_used` outside the list. -/
theorem searchStart_ok (newBb : BackedBlock)
    (h : freed = .trap → ∀ a ∈ lastUsed, ∃ n ∈ hd :: tl, n.addr = a) :
    ∃ c, searchStart freed lastUsed newBb hd tl = .ok c := by
  unfold searchStart
  dsimp only
  split
  · exact ⟨_, rfl⟩
  · rename_i a
    split
    · exact ⟨_, rfl⟩
    · rename_i hc
      split
      · obtain ⟨n, hn, he⟩ := h rfl a rfl
        have hlt : (hd :: tl).findIdx (fun n => n.addr == a) < (hd :: tl).length :=
          findIdx_lt_length_of_exists ⟨n, hn, by simp [he]⟩
        unfold cursorAt at hc
        split at hc
        · rename_i hdrop
          have := drop_eq_nil_iff.mp hdrop
          omega
        · cases hc
      · exact ⟨_, rfl⟩

theorem searchStop_front (h : ∀ n ∈ bbl.dataBlocks.head?, newBb.block < n.block) :
    searchStop freed bbl newBb = .ok none := by
  unfold searchStop
  split
  · rfl
  · rename_i hd tl hl
    rw [if_pos (h hd (by rw [hl]; rfl))]

theorem searchStop_ok (newBb : BackedBlock)
    (h : (∀ n ∈ bbl.dataBlocks.head?, newBb.block < n.block) ∨
      (freed = .trap → ∀ a ∈ bbl.lastUsed, ∃ n ∈ bbl.dataBlocks, n.addr = a)) :
    ∃ o, searchStop freed bbl newBb = .ok o := by
  rcases h with h | h
  · exact ⟨none, searchStop_front h⟩
  unfold searchStop
  split
  · exact ⟨_, rfl⟩
  · rename_i hd tl hl
    split
    · exact ⟨_, rfl⟩
    · obtain ⟨c, hc⟩ := searchStart_ok newBb (hl ▸ h)
      simp only [hc]
      exact ⟨_, rfl⟩

/-- A call that returns either puts the new node in front of the list, or links it
behind the node where the search stopped and merges there. -/
theorem queueBb_inv (h : queueBb freed bbl newBb = .ok bbl') :
    (searchStop freed bbl newBb = .ok none ∧
        bbl' = { bbl with dataBlocks := newBb :: bbl.dataBlocks }) ∨
      ∃ c, searchStop freed bbl newBb = .ok (some c) ∧ c.bb.block < newBb.block ∧
        (∀ n ∈ c.next.head?, newBb.block < n.block) ∧
        bbl' = { bbl with
          dataBlocks := c.before ++
            joinPrev bbl.blockSize c.bb (joinNext bbl.blockSize newBb c.next)
          lastUsed := some newBb.addr } := by
  unfold queueBb at h
  split at h
  · cases h
  · rename_i hs
    cases h
    exact .inl ⟨hs, rfl⟩
  · rename_i c hs
    split at h
    · cases h
    · rename_i nodes hl
      cases h
      obtain ⟨h1, h2, h3⟩ := linkAndMerge_inv hl
      exact .inr ⟨c, hs, h1, h2, by rw [h3]⟩

theorem queueBb_blockSize (h : queueBb freed bbl newBb = .ok bbl') :
    bbl'.blockSize = bbl.blockSize := by
  rcases queueBb_inv h with ⟨-, rfl⟩ | ⟨c, -, -, -, rfl⟩ <;> rfl

theorem queueBb_front (h : searchStop freed bbl newBb = .ok none) :
    queueBb freed bbl newBb = .ok { bbl with dataBlocks := newBb :: bbl.dataBlocks } := by
  simp only [queueBb, h]

theorem queueBb_behind (h : searchStop freed bbl newBb = .ok (some c)) (hbs : bbl.blockSize ≠ 0)
    (hlt : c.bb.block < newBb.block) (hn : ∀ n ∈ c.next.head?, newBb.block < n.block) :
    queueBb freed bbl newBb = .ok { bbl with
      dataBlocks := c.before ++ joinPrev bbl.blockSize c.bb (joinNext bbl.blockSize newBb c.next)
      lastUsed := some newBb.addr } := by
  simp only [queueBb, h, linkAndMerge_eq hlt hn hbs]

end Search

/-! ## Sorted lists -/

section Sorted

variable {freed : FreedRead} {bbl : BackedBlockList} {newBb : BackedBlock} {c : Cursor}

theorem above_of_head {block : UInt32} (hs : nodes.Pairwise (·.block < ·.block))
    (h : ∀ n ∈ nodes.head?, block < n.block) : ∀ n ∈ nodes, block < n.block := by
  cases nodes with
  | nil => simp
  | cons m tl =>
    intro n hn
    have hm : block < m.block := h m rfl
    rcases mem_cons.mp hn with rfl | hn
    · exact hm
    · exact UInt32.lt_trans hm ((pairwise_cons.mp hs).1 n hn)

/-- Where no node has the new number, the search ends between a lower node and a higher one. -/
theorem searchStop_between (h : searchStop freed bbl newBb = .ok (some c))
    (hother : ∀ n ∈ bbl.dataBlocks, n.block ≠ newBb.block) :
    c.bb.block < newBb.block ∧ ∀ n ∈ c.next.head?, newBb.block < n.block := by
  obtain ⟨hc, hnext, hbb⟩ := searchStop_spec h
  rw [← hc, Cursor.nodes] at hother
  constructor
  · rcases hbb with hbb | ⟨-, hbb⟩
    · exact hbb
    · exact UInt32.lt_of_le_of_ne (UInt32.not_lt.mp hbb) (hother c.bb (by simp))
  · intro n hn
    exact UInt32.lt_of_le_of_ne (UInt32.not_lt.mp (hnext n hn))
      (hother n (by simp [mem_of_mem_head? hn])).symm

/-- Up to such a cursor the nodes of a sorted list are lower than the new one, behind it higher. -/
theorem searchStop_sides (h : searchStop freed bbl newBb = .ok (some c))
    (hs : bbl.dataBlocks.Pairwise (·.block < ·.block)) (hbb : c.bb.block < newBb.block)
    (hnext : ∀ n ∈ c.next.head?, newBb.block < n.block) :
    bbl.dataBlocks = (c.before ++ [c.bb]) ++ c.next ∧
      (∀ n ∈ c.before ++ [c.bb], n.block < newBb.block) ∧ ∀ n ∈ c.next, newBb.block < n.block := by
  have hnodes : bbl.dataBlocks = (c.before ++ [c.bb]) ++ c.next := by
    rw [← (searchStop_spec h).1, Cursor.nodes, append_cons]
  rw [hnodes, pairwise_append, pairwise_append] at hs
  obtain ⟨⟨-, -, hbefore⟩, hrest, -⟩ := hs
  refine ⟨hnodes, fun n hn => ?_, above_of_head hrest hnext⟩
  rcases mem_append.mp hn with hn | hn
  · exact UInt32.lt_trans (hbefore n hn c.bb (by simp)) hbb
  · rwa [mem_singleton.mp hn]

theorem pairwise_link {R : BackedBlock → BackedBlock → Prop} {lower higher : List BackedBlock}
    (h : (lower ++ higher).Pairwise R) (hlow : ∀ n ∈ lower, R n newBb)
    (hhigh : ∀ n ∈ higher, R newBb n) : (lower ++ newBb :: higher).Pairwise R := by
  rw [pairwise_append] at h ⊢
  obtain ⟨hl, hh, hcross⟩ := h
  refine ⟨hl, pairwise_cons.mpr ⟨hhigh, hh⟩, fun x hx y hy => ?_⟩
  rcases mem_cons.mp hy with rfl | hy
  · exact hlow x hx
  · exact hcross x hx y hy

end Sorted

/-! ## Moving a segment -/

section Move

variable {src src' : BackedBlockList} {start stop : Option Nat}
  {nodes before seg after : List BackedBlock}

theorem nodesBefore_append_drop (nodes : List BackedBlock) (start : Option Nat) :
    nodesBefore nodes start ++ nodes.drop (nodesBefore nodes start).length = nodes := by
  cases start with
  | none => rfl
  | some s => exact prefix_iff_eq_append.mp (List.takeWhile_prefix _)

theorem segment_append (h : segment nodes start stop = some (before, seg, after)) :
    nodes = before ++ seg ++ after := by
  have hb := nodesBefore_append_drop nodes start
  unfold segment at h
  dsimp only at h
  split at h
  · rename_i hd
    cases h
    rw [hd] at hb
    simpa [nodesBefore] using hb.symm
  · cases h
  · rename_i hd tl hdrop
    rw [hdrop] at hb
    split at h
    · cases h
      simpa using hb.symm
    · rename_i e
      have ht := nodesBefore_append_drop (hd :: tl) (some e)
      split at h
      · cases h
      · rename_i last aft hlast
        cases h
        rw [hlast] at ht
        rw [append_assoc, append_assoc, singleton_append, ht, hb]

theorem detach_inv (h : detach src start stop = .ok (seg, src')) :
    (seg = [] ∧ src' = src) ∨
      ∃ before after, segment src.dataBlocks start stop = some (before, seg, after) ∧ seg ≠ [] ∧
        src' = { src with dataBlocks := before ++ after, lastUsed := none } := by
  unfold detach at h
  split at h
  · cases h
  · cases h
    exact .inl ⟨rfl, rfl⟩
  · rename_i before sg after hne hs
    cases h
    exact .inr ⟨before, after, hs, hne, rfl⟩

theorem detach_subset (h : detach src start stop = .ok (seg, src')) :
    seg ⊆ src.dataBlocks ∧ src'.dataBlocks ⊆ src.dataBlocks := by
  rcases detach_inv h with ⟨rfl, rfl⟩ | ⟨before, after, hs, _, rfl⟩
  · exact ⟨nil_subset _, List.Subset.refl _⟩
  · rw [segment_append hs]
    constructor <;> intro n hn <;> simp_all
    exact hn.imp_right .inr

end Move

theorem spliceAfter_perm (start : UInt32) (seg l : List BackedBlock) :
    (spliceAfter start seg l).Perm (seg ++ l) := by
  induction l with
  | nil => simp [spliceAfter]
  | cons bb l ih =>
    cases l with
    | nil => exact (perm_append_singleton bb seg).symm
    | cons n rest =>
      simp only [spliceAfter]
      split
      · exact perm_middle.symm
      · exact (ih.cons bb).trans perm_middle.symm

theorem mem_spliceAfter (start : UInt32) (seg l : List BackedBlock) (n : BackedBlock) :
    n ∈ spliceAfter start seg l ↔ n ∈ seg ∨ n ∈ l := by
  rw [(spliceAfter_perm start seg l).mem_iff, mem_append]

end SystemCore.Libsparse
