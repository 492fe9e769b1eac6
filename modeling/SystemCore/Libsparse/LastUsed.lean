import SystemCore.Libsparse.Queue
import SystemCore.Lib.Runs

/-!
# Which runs keep last_used in its list

`queue_bb` stores the new node in `last_used` before its two merges. The second
merge may free that node. Nothing else in the list interface leaves the pointer
behind: the first merge frees a node that is not `last_used`, a split only adds a
node, and a move clears the pointer of both lists. So a run keeps every `last_used`
null or in its list exactly if no call of it lets the predecessor take in the new
node.
-/
namespace SystemCore.Libsparse.LastUsed

open Lib.Runs List

/-- Block lists by number, and the next address to hand out. -/
structure Store where
  lists : Nat → BackedBlockList
  fresh : Nat

def Store.new (blockSize : Nat → UInt32) : Store := ⟨fun i => backedBlockListNew (blockSize i), 0⟩

inductive ListOp where
  | add (list : Nat) (call : AddCall)
  | split (list bb : Nat) (maxLen : UInt32)
  | move (src dst : Nat) (start stop : Option Nat)

def Store.set (s : Store) (i : Nat) (bbl : BackedBlockList) : Store :=
  { s with lists := Function.update s.lists i bbl }

/-- Make the call. A list may be moved into itself. -/
def exec (freed : FreedRead) (s : Store) : ListOp → Except Fault Store
  | .add i c =>
    match c.run freed (s.lists i) s.fresh with
    | .error e => .error e
    | .ok bbl => .ok { s.set i bbl with fresh := s.fresh + 1 }
  | .split i bb maxLen =>
    match backedBlockSplit (s.lists i) bb maxLen s.fresh with
    | .error e => .error e
    | .ok bbl => .ok { s.set i bbl with fresh := s.fresh + 1 }
  | .move i j start stop =>
    match detach (s.lists i) start stop with
    | .error e => .error e
    | .ok (seg, src) =>
      let s' := s.set i src
      .ok (s'.set j (attach (s'.lists j) seg))

def Valid (bbl : BackedBlockList) : Prop :=
  ∀ a ∈ bbl.lastUsed, ∃ n ∈ bbl.dataBlocks, n.addr = a

def Store.Valid (s : Store) : Prop := ∀ i, LastUsed.Valid (s.lists i)

def Store.Allocated (s : Store) : Prop := ∀ i, ∀ n ∈ (s.lists i).dataBlocks, n.addr < s.fresh

/-- The predecessor that `queue_bb` finds takes in the new node, after the new node
has taken in its successor where the two go together. -/
def Absorbed (freed : FreedRead) (bbl : BackedBlockList) (newBb : BackedBlock) : Prop :=
  ∃ c, searchStop freed bbl newBb = .ok (some c) ∧
    mergeable bbl.blockSize c.bb (joinNext bbl.blockSize newBb c.next).1 = true

/-- An add call that returns does not let the predecessor take in its node. -/
def Retains (freed : FreedRead) (s : Store) : ListOp → Prop
  | .add i c => (∃ s', exec freed s (.add i c) = .ok s') → ¬ Absorbed freed (s.lists i) (c.bb s.fresh)
  | _ => True

@[simp] theorem set_lists_self (s : Store) (i : Nat) (bbl : BackedBlockList) :
    (s.set i bbl).lists i = bbl := by
  simp [Store.set]

theorem set_lists_of_ne (s : Store) {i j : Nat} (bbl : BackedBlockList) (h : j ≠ i) :
    (s.set i bbl).lists j = s.lists j := by
  simp [Store.set, h]

variable {s s' : Store} {bbl bbl' dst : BackedBlockList} {n newBb : BackedBlock} {freed : FreedRead}
  {maxLen bs : UInt32} {addr bb : Nat} {op : ListOp} {seg : List BackedBlock}

/-- A property of all lists, when one of them is replaced. -/
theorem forall_set {P : BackedBlockList → Prop} {i : Nat} (hold : ∀ j, j ≠ i → P (s.lists j))
    (hnew : P bbl) : ∀ j, P ((s.set i bbl).lists j) := by
  intro j
  by_cases hj : j = i
  · subst hj
    rwa [set_lists_self]
  · rw [set_lists_of_ne s bbl hj]
    exact hold j hj

/-! ## One call -/

theorem mem_joinPrev {bb : BackedBlock} {m : BackedBlock × List BackedBlock}
    (h : n ∈ joinPrev bs bb m) : n.addr = bb.addr ∨ n.addr = m.1.addr ∨ n ∈ m.2 := by
  unfold joinPrev at h
  split at h
  · rcases mem_cons.mp h with rfl | h
    · exact .inl rfl
    · exact .inr (.inr h)
  · rcases mem_cons.mp h with rfl | h
    · exact .inl rfl
    rcases mem_cons.mp h with rfl | h
    · exact .inr (.inl rfl)
    · exact .inr (.inr h)

theorem joinNext_subset (bs : UInt32) (newBb : BackedBlock) (next : List BackedBlock) :
    (joinNext bs newBb next).2 ⊆ next := by
  cases next with
  | nil => exact List.Subset.refl _
  | cons n rest =>
    simp only [joinNext]
    split
    · exact subset_cons_self n rest
    · exact List.Subset.refl _

/-- After a call only the new address can be new in the list. -/
theorem queueBb_addr (h : queueBb freed bbl newBb = .ok bbl') (hn : n ∈ bbl'.dataBlocks) :
    n.addr = newBb.addr ∨ ∃ o ∈ bbl.dataBlocks, o.addr = n.addr := by
  rcases queueBb_inv h with ⟨_, rfl⟩ | ⟨c, hs, _, _, rfl⟩
  · rcases mem_cons.mp hn with rfl | hn
    · exact .inl rfl
    · exact .inr ⟨n, hn, rfl⟩
  · obtain ⟨hc, _, _⟩ := searchStop_spec hs
    have hsub : ∀ o ∈ c.nodes, o ∈ bbl.dataBlocks := by rw [hc]; exact fun o ho => ho
    simp only [Cursor.nodes, mem_append, mem_cons] at hsub
    rcases mem_append.mp hn with hn | hn
    · exact .inr ⟨n, hsub n (.inl hn), rfl⟩
    · rcases mem_joinPrev hn with ha | ha | hn
      · exact .inr ⟨c.bb, hsub c.bb (.inr (.inl rfl)), ha.symm⟩
      · exact .inl (ha.trans ((joinNext_fst _ _ _).2))
      · exact .inr ⟨n, hsub n (.inr (.inr (joinNext_subset _ _ _ hn))), rfl⟩

/-- The pointer is good after a call exactly if the predecessor did not take in the
new node, whose address no other node has. -/
theorem queueBb_valid_iff (h : queueBb freed bbl newBb = .ok bbl') (hv : Valid bbl)
    (hnew : ∀ n ∈ bbl.dataBlocks, n.addr ≠ newBb.addr) :
    Valid bbl' ↔ ¬ Absorbed freed bbl newBb := by
  rcases queueBb_inv h with ⟨hs, rfl⟩ | ⟨c, hs, _, _, rfl⟩
  · constructor
    · rintro _ ⟨c, hc, _⟩
      rw [hs] at hc
      cases hc
    · intro _ a ha
      obtain ⟨n, hn, he⟩ := hv a ha
      exact ⟨n, mem_cons_of_mem _ hn, he⟩
  · obtain ⟨hc, _, _⟩ := searchStop_spec hs
    have hold : ∀ o ∈ c.nodes, o.addr ≠ newBb.addr := by rw [hc]; exact hnew
    simp only [Cursor.nodes, mem_append, mem_cons] at hold
    by_cases hm : mergeable bbl.blockSize c.bb (joinNext bbl.blockSize newBb c.next).1 = true
    · refine iff_of_false ?_ (fun hna => hna ⟨c, hs, hm⟩)
      intro hv'
      obtain ⟨n, hn, he⟩ := hv' newBb.addr rfl
      simp only [joinPrev, hm, ↓reduceIte, mem_append, mem_cons] at hn
      rcases hn with hn | rfl | hn
      · exact hold n (.inl hn) he
      · exact hold c.bb (.inr (.inl rfl)) he
      · exact hold n (.inr (.inr (joinNext_subset _ _ _ hn))) he
    · refine iff_of_true ?_ ?_
      · intro a ha
        obtain rfl := Option.some.inj ha
        refine ⟨(joinNext bbl.blockSize newBb c.next).1, ?_, (joinNext_fst _ _ _).2⟩
        simp [joinPrev, hm]
      · rintro ⟨d, hd, hm'⟩
        rw [hs] at hd
        cases hd
        exact hm hm'

theorem mem_splitBb {bb : BackedBlock} (h : n ∈ splitBb bs maxLen addr bb) :
    n.addr = bb.addr ∨ n.addr = addr := by
  unfold splitBb at h
  dsimp only at h
  split at h
  · exact .inl (by rw [mem_singleton.mp h])
  · simp only [mem_cons, not_mem_nil, or_false] at h
    rcases h with rfl | rfl
    · exact .inl rfl
    · exact .inr rfl

theorem splitBb_keeps (bs maxLen : UInt32) (addr : Nat) (bb : BackedBlock) :
    ∃ n ∈ splitBb bs maxLen addr bb, n.addr = bb.addr := by
  unfold splitBb
  dsimp only
  split
  · exact ⟨bb, by simp, rfl⟩
  · exact ⟨_, mem_cons_self, rfl⟩

theorem split_inv (h : backedBlockSplit bbl bb maxLen addr = .ok bbl') :
    bbl' = { bbl with dataBlocks := bbl.dataBlocks.flatMap fun n =>
      if n.addr = bb then splitBb bbl.blockSize maxLen addr n else [n] } := by
  unfold backedBlockSplit at h
  split at h
  · cases h
  split at h
  · cases h
  · cases h
    rfl

theorem split_addr (h : backedBlockSplit bbl bb maxLen addr = .ok bbl') (hn : n ∈ bbl'.dataBlocks) :
    n.addr = addr ∨ ∃ o ∈ bbl.dataBlocks, o.addr = n.addr := by
  obtain rfl := split_inv h
  obtain ⟨o, ho, hn⟩ := mem_flatMap.mp hn
  split at hn
  · rcases mem_splitBb hn with he | he
    · exact .inr ⟨o, ho, he.symm⟩
    · exact .inl he
  · exact .inr ⟨o, ho, by rw [mem_singleton.mp hn]⟩

theorem split_valid (h : backedBlockSplit bbl bb maxLen addr = .ok bbl') (hv : Valid bbl) :
    Valid bbl' := by
  obtain rfl := split_inv h
  intro a ha
  obtain ⟨n, hn, he⟩ := hv a ha
  by_cases hb : n.addr = bb
  · obtain ⟨p, hp, hpa⟩ := splitBb_keeps bbl.blockSize maxLen addr n
    exact ⟨p, mem_flatMap.mpr ⟨n, hn, by rwa [if_pos hb]⟩, hpa.trans he⟩
  · exact ⟨n, mem_flatMap.mpr ⟨n, hn, by simp [hb]⟩, he⟩

theorem attach_addr (hn : n ∈ (attach dst seg).dataBlocks) : n ∈ seg ∨ n ∈ dst.dataBlocks := by
  cases seg with
  | nil => exact .inr hn
  | cons hd tl => exact (mem_spliceAfter _ _ _ n).mp hn

theorem attach_valid (seg : List BackedBlock) (hv : Valid dst) : Valid (attach dst seg) := by
  cases seg with
  | nil => exact hv
  | cons hd tl => intro a ha; cases ha

theorem detach_valid {src src' : BackedBlockList} {start stop : Option Nat}
    (h : detach src start stop = .ok (seg, src')) (hv : Valid src) : Valid src' := by
  rcases detach_inv h with ⟨_, rfl⟩ | ⟨before, after, _, _, rfl⟩
  · exact hv
  · intro a ha; cases ha

/-! ## Whole runs -/

theorem exec_allocated (hs : s.Allocated) (h : exec freed s op = .ok s') : s'.Allocated := by
  cases op with
  | add i c =>
    simp only [exec, AddCall.run_eq] at h
    split at h
    · cases h
    rename_i bbl hq
    cases h
    refine forall_set (P := fun b => ∀ n ∈ b.dataBlocks, n.addr < s.fresh + 1) ?_ ?_
    · intro j _ n hn
      exact Nat.lt_succ_of_lt (hs j n hn)
    · intro n hn
      rcases queueBb_addr hq hn with he | ⟨o, ho, he⟩
      · rw [he, AddCall.bb_addr]
        exact Nat.lt_succ_self _
      · exact he ▸ Nat.lt_succ_of_lt (hs i o ho)
  | split i bb maxLen =>
    simp only [exec] at h
    split at h
    · cases h
    rename_i bbl hq
    cases h
    refine forall_set (P := fun b => ∀ n ∈ b.dataBlocks, n.addr < s.fresh + 1) ?_ ?_
    · intro j _ n hn
      exact Nat.lt_succ_of_lt (hs j n hn)
    · intro n hn
      rcases split_addr hq hn with he | ⟨o, ho, he⟩
      · omega
      · exact he ▸ Nat.lt_succ_of_lt (hs i o ho)
  | move i j start stop =>
    simp only [exec] at h
    split at h
    · cases h
    rename_i seg src hd
    cases h
    obtain ⟨hseg, hsrc⟩ := detach_subset hd
    have hmid : ∀ k, ∀ n ∈ ((s.set i src).lists k).dataBlocks, n.addr < s.fresh :=
      forall_set (P := fun b => ∀ n ∈ b.dataBlocks, n.addr < s.fresh) (fun k _ => hs k)
        (fun n hn => hs i n (hsrc hn))
    refine forall_set (P := fun b => ∀ n ∈ b.dataBlocks, n.addr < s.fresh) (fun k _ => hmid k) ?_
    intro n hn
    rcases attach_addr hn with hn | hn
    · exact hs i n (hseg hn)
    · exact hmid j n hn

/-- From a good store a call leads to a good store exactly if it retains its node. -/
theorem exec_valid_iff (ha : s.Allocated) (hv : s.Valid) (h : exec freed s op = .ok s') :
    s'.Valid ↔ Retains freed s op := by
  cases op with
  | add i c =>
    have hret : Retains freed s (.add i c) ↔ ¬ Absorbed freed (s.lists i) (c.bb s.fresh) :=
      ⟨fun hr => hr ⟨s', h⟩, fun hn _ => hn⟩
    rw [hret]
    simp only [exec, AddCall.run_eq] at h
    split at h
    · cases h
    rename_i bbl hq
    cases h
    rw [← queueBb_valid_iff hq (hv i)
      (fun n hn => by rw [AddCall.bb_addr]; exact (ha i n hn).ne)]
    constructor
    · intro hs'
      have hi := hs' i
      rwa [set_lists_self] at hi
    · intro hb
      exact forall_set (P := Valid) (fun j _ => hv j) hb
  | split i bb maxLen =>
    refine iff_of_true ?_ trivial
    simp only [exec] at h
    split at h
    · cases h
    rename_i bbl hq
    cases h
    exact forall_set (P := Valid) (fun j _ => hv j) (split_valid hq (hv i))
  | move i j start stop =>
    refine iff_of_true ?_ trivial
    simp only [exec] at h
    split at h
    · cases h
    rename_i seg src hd
    cases h
    have hmid : ∀ k, Valid ((s.set i src).lists k) :=
      forall_set (P := Valid) (fun k _ => hv k) (detach_valid hd (hv i))
    exact forall_set (P := Valid) (fun k _ => hmid k) (attach_valid seg (hmid j))

theorem retains_of_stop {e : Fault} (h : exec freed s op = .error e) : Retains freed s op := by
  cases op with
  | add i c =>
    rintro ⟨s', h'⟩
    rw [h] at h'
    cases h'
  | split => trivial
  | move => trivial

/-- In a run of any calls on any lists, `last_used` is null or a node of its list in
every state reached, exactly if no call lets the predecessor take in its node. -/
theorem lastUsed_valid_iff (freed : FreedRead) (blockSize : Nat → UInt32) (ops : List ListOp) :
    Throughout (exec freed) Store.Valid (Store.new blockSize) ops ↔
      Along (exec freed) (Retains freed) (Store.new blockSize) ops := by
  refine throughout_iff_along (I := Store.Allocated) ?_ ?_ ?_ ops _ ?_ ?_
  · intro s op s' hs h
    exact exec_allocated hs h
  · intro s op s' hs hv h
    exact exec_valid_iff hs hv h
  · intro s op e h
    exact retains_of_stop h
  · intro i n hn
    cases hn
  · intro i a ha
    cases ha

/-- Two equal fills queued one behind the other leave `last_used` at the freed second
node. -/
theorem lastUsed_stale_after_two_fills :
    ¬ ∀ (blockSize : Nat → UInt32) (ops : List ListOp),
      Throughout (exec .trap) Store.Valid (Store.new blockSize) ops := by
  intro h
  have hv := h (fun _ => 4096) [.add 0 (.fill 0 4096 0), .add 0 (.fill 0 4096 1)]
  obtain ⟨_, hv⟩ := hv
  obtain ⟨_, hv⟩ := hv _ rfl
  obtain ⟨n, hn, he⟩ := hv _ rfl 0 1 rfl
  have hl : n ∈ [(⟨0, 0, 8192, .fill 0⟩ : BackedBlock)] := hn
  rw [mem_singleton.mp hl] at he
  cases he

end SystemCore.Libsparse.LastUsed
