import SystemCore.Libsparse.LastUsed
import SystemCore.Lib.Segments

/-!
# The map that a block list describes

Every node describes a run of blocks: for each of them where its bytes come from
and how many of them the node holds. Adding regions that do not meet keeps the
list sorted and describes their union, as long as no call finds a node at its own
block number and no merge carries a length past 32 bits.
-/
namespace SystemCore.Libsparse.BlockMap

open Lib Lib.Segments Lib.CeilDiv Lib.Runs List

inductive Source where
  | data (addr : Nat)
  | file (path : String) (offset : Int)
  | fd (fd : Int) (offset : Int)
  | fill (val : UInt32)
  deriving DecidableEq, Repr

/-- The content of one block: its source, and how many bytes of it there are. -/
structure BlockContent where
  source : Source
  len : Nat
  deriving DecidableEq, Repr

def source : Backing → Source
  | .data p => .data p
  | .file _ path o => .file path o
  | .fd d o => .fd d o
  | .fill v => .fill v

def seg (bs : UInt32) (bb : BackedBlock) : Seg BlockContent where
  start := bb.block.toNat
  size := bb.len.toNat ⌈/⌉ bs.toNat
  val i := ⟨source (bb.backing.advance (bs.toNat * i)), min bs.toNat (bb.len.toNat - bs.toNat * i)⟩

/-- The list gives block `k` the content `v`. -/
def Describes (bs : UInt32) (nodes : List BackedBlock) (k : Nat) (v : BlockContent) : Prop :=
  Segments.Maps (nodes.map (seg bs)) k v

def region (bs : UInt32) (c : AddCall) : Seg BlockContent := seg bs (c.bb 0)

theorem seg_bb (bs : UInt32) (c : AddCall) (addr : Nat) : seg bs (c.bb addr) = region bs c := by
  cases c <;> rfl

@[simp] theorem describes_nil (bs : UInt32) (k : Nat) (v : BlockContent) : ¬ Describes bs [] k v :=
  maps_nil k v

@[simp] theorem describes_cons (bs : UInt32) (n : BackedBlock) (l : List BackedBlock) (k : Nat)
    (v : BlockContent) : Describes bs (n :: l) k v ↔ (seg bs n).Maps k v ∨ Describes bs l k v :=
  maps_cons _ _ k v

@[simp] theorem describes_append (bs : UInt32) (l m : List BackedBlock) (k : Nat)
    (v : BlockContent) : Describes bs (l ++ m) k v ↔ Describes bs l k v ∨ Describes bs m k v := by
  simp only [Describes, map_append, maps_append]

/-- `a` comes before `b`, and no block belongs to both. -/
def Before (bs : UInt32) (a b : BackedBlock) : Prop :=
  a.block < b.block ∧ Seg.Apart (seg bs a) (seg bs b)

/-- The list is strictly sorted, its nodes do not meet, they end within 32-bit block
numbers, and their file names were made before `fresh`. -/
structure Ordered (bs : UInt32) (fresh : Nat) (nodes : List BackedBlock) : Prop where
  before : nodes.Pairwise (Before bs)
  range : ∀ n ∈ nodes, (seg bs n).start + (seg bs n).size ≤ 2 ^ 32
  names : ∀ n ∈ nodes, ∀ f path o, n.backing = .file f path o → f < fresh

/-! ## Merging two neighbours -/

theorem advance_add (b : Backing) (m n : Nat) :
    (b.advance m).advance n = b.advance (m + n) := by
  cases b <;> simp [Backing.advance, Nat.add_assoc, Int.add_assoc]

variable {fresh : Nat} {bs : UInt32} {newBb a b : BackedBlock} {freed : FreedRead}

/-- Compatible nodes have one source, in sequence. A file name is only compatible
with itself, so the two paths agree. -/
theorem compatible_source (h : compatible a b = true)
    (hp : ∀ f x o y o', a.backing = .file f x o → b.backing = .file f y o' → x = y) (n : Nat) :
    source (a.backing.advance (a.len.toNat + n)) = source (b.backing.advance n) := by
  unfold compatible at h
  split at h
  · rename_i v w ha hb
    rw [ha, hb]
    simp only [Backing.advance, source]
    exact congrArg _ (eq_of_beq h)
  · rename_i p x o q y o' ha hb
    simp only [Bool.and_eq_true, beq_iff_eq] at h
    obtain ⟨rfl, ho⟩ := h
    rw [ha, hb, hp p x o y o' ha hb]
    simp only [Backing.advance, source, Nat.cast_add, ← ho, Int.add_assoc]
  · rename_i d o e o' ha hb
    simp only [Bool.and_eq_true, beq_iff_eq] at h
    obtain ⟨rfl, ho⟩ := h
    rw [ha, hb]
    simp only [Backing.advance, source, Nat.cast_add, ← ho, Int.add_assoc]
  · cases h

section Merge

variable {bs : UInt32} {a b : BackedBlock}

/-- The first of two mergeable nodes ends where the second begins. -/
theorem mergeable_adjacent (hm : mergeable bs a b = true)
    (hlt : a.block < b.block) (hr : (seg bs a).start + (seg bs a).size ≤ 2 ^ 32) :
    b.block.toNat = a.block.toNat + a.len.toNat / bs.toNat := by
  unfold mergeable at hm
  simp only [Bool.and_eq_true, beq_iff_eq] at hm
  have he := congrArg UInt32.toNat hm.1
  rw [UInt32.toNat_add, UInt32.toNat_div] at he
  have hlt' : a.block.toNat < b.block.toNat := hlt
  have hc : a.len.toNat / bs.toNat ≤ a.len.toNat ⌈/⌉ bs.toNat := div_le_ceilDiv _ _
  simp only [seg] at hr
  generalize a.len.toNat / bs.toNat = q at *
  omega

/-- Merging keeps the map: the second node is empty, or the first fills its blocks
and the second goes on where it ends. -/
theorem merge_union (hbs : 0 < bs.toNat) (hm : mergeable bs a b = true) (hab : Before bs a b)
    (hr : (seg bs a).start + (seg bs a).size ≤ 2 ^ 32)
    (hp : ∀ f x o y o', a.backing = .file f x o → b.backing = .file f y o' → x = y)
    (hlen : a.len.toNat + b.len.toNat < 2 ^ 32) :
    Seg.Union (seg bs a) (seg bs b) (seg bs (a.absorb b)) := by
  have hadj := mergeable_adjacent hm hab.1 hr
  have hsum : (a.absorb b).len.toNat = a.len.toNat + b.len.toNat := by
    rw [absorb_len, UInt32.toNat_add]
    omega
  rcases Nat.eq_zero_or_pos b.len.toNat with hb0 | hb0
  · have he : seg bs (a.absorb b) = seg bs a := by
      simp only [seg, hsum, hb0, Nat.add_zero, absorb_block, absorb_backing]
    rw [he]
    exact Seg.union_empty (by simp only [seg, hb0, zero_ceilDiv])
  · have hpos := ceilDiv_pos hbs hb0
    have hle : a.len.toNat ⌈/⌉ bs.toNat ≤ a.len.toNat / bs.toNat := by
      by_contra hgt
      refine hab.2 b.block.toNat ⟨?_, ?_⟩ ⟨le_rfl, ?_⟩
      · exact hadj ▸ Nat.le_add_right _ _
      · rw [hadj]
        exact Nat.add_lt_add_left (not_le.mp hgt) _
      · exact Nat.lt_add_of_pos_right hpos
    have hdvd := dvd_of_ceilDiv_le hbs hle
    have hceil := ceilDiv_of_dvd hbs hdvd
    have hmul : bs.toNat * (a.len.toNat / bs.toNat) = a.len.toNat := Nat.mul_div_cancel' hdvd
    have hcomp : compatible a b = true := by
      unfold mergeable at hm
      simp only [Bool.and_eq_true] at hm
      exact hm.2
    apply Seg.Joins.union
    constructor
    · simp only [seg, hceil, hadj]
    · rfl
    · simp only [seg, hsum, hceil]
      conv_lhs => rw [← hmul]
      rw [ceilDiv_mul_add hbs]
    · intro i hi
      simp only [seg, lt_ceilDiv_iff hbs] at hi
      have hfit : bs.toNat * i + bs.toNat ≤ a.len.toNat := by
        have hi' : i < a.len.toNat / bs.toNat := by
          rw [← hceil]
          exact (lt_ceilDiv_iff hbs i).mpr hi
        have hle := Nat.mul_le_mul_left bs.toNat (Nat.succ_le_of_lt hi')
        rw [hmul, Nat.mul_succ] at hle
        exact hle
      simp only [seg, absorb_backing, hsum, BlockContent.mk.injEq, true_and]
      omega
    · intro i _
      have hoff : bs.toNat * (a.len.toNat / bs.toNat + i) = a.len.toNat + bs.toNat * i := by
        rw [Nat.mul_add, hmul]
      simp only [seg, absorb_backing, hsum, hceil, hoff, BlockContent.mk.injEq]
      refine ⟨compatible_source hcomp hp _, ?_⟩
      omega

theorem merge_range (hu : Seg.Union (seg bs a) (seg bs b) (seg bs (a.absorb b)))
    (ha : (seg bs a).start + (seg bs a).size ≤ 2 ^ 32)
    (hb : (seg bs b).start + (seg bs b).size ≤ 2 ^ 32) :
    (seg bs (a.absorb b)).start + (seg bs (a.absorb b)).size ≤ 2 ^ 32 := by
  rcases Nat.eq_zero_or_pos (seg bs (a.absorb b)).size with h0 | h0
  · have : (seg bs (a.absorb b)).start = (seg bs a).start := rfl
    omega
  · have hlast := (hu.covers ((seg bs (a.absorb b)).start + (seg bs (a.absorb b)).size - 1)).mp
      ⟨by omega, by omega⟩
    rcases hlast with ⟨_, h⟩ | ⟨_, h⟩ <;> omega

end Merge

private theorem pairwise_merge {α : Type*} {R : α → α → Prop} {pre post : List α} {a b c : α}
    (h : (pre ++ a :: b :: post).Pairwise R) (hl : ∀ x, R x a → R x b → R x c)
    (hr : ∀ y, R a y → R b y → R c y) : (pre ++ c :: post).Pairwise R := by
  simp only [pairwise_append, pairwise_cons, mem_cons] at h ⊢
  obtain ⟨hpre, ⟨ha, hb, hpost⟩, hcross⟩ := h
  refine ⟨hpre, ⟨fun y hy => hr y (ha y (.inr hy)) (hb y hy), hpost⟩, ?_⟩
  rintro x hx y (rfl | hy)
  · exact hl x (hcross x hx a (.inl rfl)) (hcross x hx b (.inr (.inl rfl)))
  · exact hcross x hx y (.inr (.inr hy))

/-- Merging two neighbours of a list keeps its order and its map. -/
theorem ordered_merge {pre post : List BackedBlock} (hbs : 0 < bs.toNat)
    (h : Ordered bs fresh (pre ++ a :: b :: post)) (hm : mergeable bs a b = true)
    (hp : ∀ f x o y o', a.backing = .file f x o → b.backing = .file f y o' → x = y)
    (hlen : a.len.toNat + b.len.toNat < 2 ^ 32) :
    Ordered bs fresh (pre ++ a.absorb b :: post) ∧
      ∀ k v, Describes bs (pre ++ a.absorb b :: post) k v ↔
        Describes bs (pre ++ a :: b :: post) k v := by
  have ha : a ∈ pre ++ a :: b :: post := by simp
  have hb : b ∈ pre ++ a :: b :: post := by simp
  have hab : Before bs a b := by
    have hpw := h.before
    rw [pairwise_append, pairwise_cons] at hpw
    exact hpw.2.1.1 b (by simp)
  have hu := merge_union hbs hm hab (h.range a ha) hp hlen
  have hmem : ∀ n ∈ pre ++ a.absorb b :: post, n = a.absorb b ∨ n ∈ pre ++ a :: b :: post := by
    intro n hn
    simp only [mem_append, mem_cons] at hn ⊢
    tauto
  refine ⟨⟨?_, ?_, ?_⟩, ?_⟩
  · refine pairwise_merge h.before ?_ ?_
    · rintro x ⟨hxa, hxs⟩ ⟨_, hxt⟩
      exact ⟨hxa, (hu.apart hxs.symm hxt.symm).symm⟩
    · rintro y ⟨hay, hsy⟩ ⟨_, hty⟩
      exact ⟨hay, hu.apart hsy hty⟩
  · intro n hn
    rcases hmem n hn with rfl | hn
    · exact merge_range hu (h.range a ha) (h.range b hb)
    · exact h.range n hn
  · intro n hn
    rcases hmem n hn with rfl | hn
    · exact h.names a ha
    · exact h.names n hn
  · intro k v
    simp only [describes_append, describes_cons, hu k v, or_assoc]

/-! ## One call -/

/-- What a call needs of the list before it: no node at its block number, no merge
that leaves 32 bits, and a `last_used` that is safe to read, unless the new node goes in
front of the list. -/
structure Fits (freed : FreedRead) (bbl : BackedBlockList) (newBb : BackedBlock) : Prop where
  other : ∀ n ∈ bbl.dataBlocks, n.block ≠ newBb.block
  live : (∀ n ∈ bbl.dataBlocks.head?, newBb.block < n.block) ∨ (freed = .trap → LastUsed.Valid bbl)
  next : ∀ c, searchStop freed bbl newBb = .ok (some c) → ∀ n ∈ c.next.head?,
    mergeable bbl.blockSize newBb n = true → newBb.len.toNat + n.len.toNat < 2 ^ 32
  prev : ∀ c, searchStop freed bbl newBb = .ok (some c) →
    mergeable bbl.blockSize c.bb (joinNext bbl.blockSize newBb c.next).1 = true →
    c.bb.len.toNat + (joinNext bbl.blockSize newBb c.next).1.len.toNat < 2 ^ 32

/-- Linking the new node between lower and higher ones. -/
theorem ordered_link {lower higher : List BackedBlock} (h : Ordered bs fresh (lower ++ higher))
    (hlow : ∀ n ∈ lower, n.block < newBb.block) (hhigh : ∀ n ∈ higher, newBb.block < n.block)
    (hapart : ∀ n ∈ lower ++ higher, Seg.Apart (seg bs newBb) (seg bs n))
    (hrange : (seg bs newBb).start + (seg bs newBb).size ≤ 2 ^ 32)
    (hname : ∀ f path o, newBb.backing = .file f path o → f = fresh) :
    Ordered bs (fresh + 1) (lower ++ newBb :: higher) := by
  have hmem : ∀ n ∈ lower ++ newBb :: higher, n = newBb ∨ n ∈ lower ++ higher := by
    intro n hn
    simp only [mem_append, mem_cons] at hn ⊢
    tauto
  refine ⟨?_, ?_, ?_⟩
  · refine pairwise_link h.before (fun n hn => ?_) fun n hn => ?_
    · exact ⟨hlow n hn, (hapart n (by simp [hn])).symm⟩
    · exact ⟨hhigh n hn, hapart n (by simp [hn])⟩
  · intro n hn
    rcases hmem n hn with rfl | hn
    · exact hrange
    · exact h.range n hn
  · intro n hn f path o hf
    rcases hmem n hn with rfl | hn
    · have := hname f path o hf
      omega
    · exact Nat.lt_succ_of_lt (h.names n hn f path o hf)

/-- A call that fits returns, keeps the order, and adds the new region to the map. -/
theorem queueBb_describes {bbl : BackedBlockList} (hbs : 0 < bbl.blockSize.toNat)
    (h : Ordered bbl.blockSize fresh bbl.dataBlocks) (hfit : Fits freed bbl newBb)
    (hapart : ∀ n ∈ bbl.dataBlocks, Seg.Apart (seg bbl.blockSize newBb) (seg bbl.blockSize n))
    (hrange : (seg bbl.blockSize newBb).start + (seg bbl.blockSize newBb).size ≤ 2 ^ 32)
    (hname : ∀ f path o, newBb.backing = .file f path o → f = fresh) :
    ∃ bbl', queueBb freed bbl newBb = .ok bbl' ∧ bbl'.blockSize = bbl.blockSize ∧
      Ordered bbl.blockSize (fresh + 1) bbl'.dataBlocks ∧
      ∀ k v, Describes bbl.blockSize bbl'.dataBlocks k v ↔
        (seg bbl.blockSize newBb).Maps k v ∨ Describes bbl.blockSize bbl.dataBlocks k v := by
  have hsorted : bbl.dataBlocks.Pairwise (·.block < ·.block) := h.before.imp fun hab => hab.1
  obtain ⟨o, ho⟩ := searchStop_ok newBb hfit.live
  cases o with
  | none =>
    refine ⟨_, queueBb_front ho, rfl, ?_, fun k v => describes_cons _ _ _ k v⟩
    exact @ordered_link _ _ _ [] _ h (by simp)
      (above_of_head hsorted (searchStop_none ho)) hapart hrange hname
  | some c =>
    obtain ⟨hlt, hnext⟩ := searchStop_between ho hfit.other
    obtain ⟨hsplit, hlow, hhigh⟩ := searchStop_sides ho hsorted hlt hnext
    have hlink : Ordered bbl.blockSize (fresh + 1) ((c.before ++ [c.bb]) ++ newBb :: c.next) :=
      ordered_link (hsplit ▸ h) hlow hhigh (by rw [← hsplit]; exact hapart) hrange hname
    have hold : ∀ n ∈ bbl.dataBlocks, ∀ f x o y o',
        n.backing = .file f x o → newBb.backing = .file f y o' → x = y := by
      intro n hn f x o y o' h1 h2
      have := h.names n hn f x o h1
      have := hname f y o' h2
      omega
    have hmap : ∀ k v, Describes bbl.blockSize ((c.before ++ [c.bb]) ++ newBb :: c.next) k v ↔
        (seg bbl.blockSize newBb).Maps k v ∨ Describes bbl.blockSize bbl.dataBlocks k v := by
      intro k v
      rw [hsplit]
      simp only [describes_append, describes_cons]
      tauto
    refine ⟨_, queueBb_behind ho (by rintro h0; rw [h0] at hbs; exact absurd hbs (by decide))
      hlt hnext, rfl, ?_⟩
    -- The merge with the successor, then the merge with the predecessor.
    have hfirst : Ordered bbl.blockSize (fresh + 1)
          (c.before ++ c.bb :: (joinNext bbl.blockSize newBb c.next).1 ::
            (joinNext bbl.blockSize newBb c.next).2) ∧
        ∀ k v, Describes bbl.blockSize (c.before ++ c.bb ::
            (joinNext bbl.blockSize newBb c.next).1 ::
            (joinNext bbl.blockSize newBb c.next).2) k v ↔
          Describes bbl.blockSize ((c.before ++ [c.bb]) ++ newBb :: c.next) k v := by
      cases hn : c.next with
      | nil =>
        rw [hn] at hlink
        simp only [joinNext]
        exact ⟨by simpa using hlink, fun k v => by simp⟩
      | cons n rest =>
        rw [hn] at hlink
        simp only [joinNext]
        split
        · rename_i hm
          have hmem : n ∈ bbl.dataBlocks := by rw [hsplit, hn]; simp
          have := ordered_merge hbs hlink hm
            (fun f x o y o' h1 h2 => (hold n hmem f y o' x o h2 h1).symm)
            (hfit.next c ho n (by rw [hn]; rfl) hm)
          simpa using this
        · exact ⟨by simpa using hlink, fun k v => by simp⟩
    unfold joinPrev
    split
    · rename_i hm
      have hmem : c.bb ∈ bbl.dataBlocks := by rw [hsplit]; simp
      have hback : (joinNext bbl.blockSize newBb c.next).1.backing = newBb.backing := by
        cases c.next with
        | nil => rfl
        | cons n rest => simp only [joinNext]; split <;> rfl
      have hsecond := ordered_merge hbs hfirst.1 hm
        (fun f x o y o' h1 h2 => hold c.bb hmem f x o y o' h1 (hback ▸ h2)) (hfit.prev c ho hm)
      exact ⟨hsecond.1, fun k v => by rw [hsecond.2, hfirst.2, hmap]⟩
    · exact ⟨hfirst.1, fun k v => by rw [hfirst.2, hmap]⟩

/-! ## Whole runs -/

/-- One add call on a list and the next address. -/
def addStep (freed : FreedRead) (s : BackedBlockList × Nat) (c : AddCall) :
    Except Fault (BackedBlockList × Nat) :=
  match c.run freed s.1 s.2 with
  | .error e => .error e
  | .ok bbl => .ok (bbl, s.2 + 1)

/-- The list that a sequence of add calls makes of an empty one. -/
def addAll (freed : FreedRead) (bs : UInt32) (calls : List AddCall) :
    Except Fault (BackedBlockList × Nat) :=
  run (addStep freed) (backedBlockListNew bs, 0) calls

def AllFit (freed : FreedRead) (bs : UInt32) (calls : List AddCall) : Prop :=
  Along (addStep freed) (fun s c => Fits freed s.1 (c.bb s.2)) (backedBlockListNew bs, 0) calls

theorem addCall_name (c : AddCall) (addr : Nat) (f : Nat) (path : String) (o : Int)
    (h : (c.bb addr).backing = .file f path o) : f = addr := by
  cases c <;> simp [AddCall.bb] at h
  exact h.1.symm

/-- Calls that fit turn a list that describes `done` into one that also describes
their regions. -/
theorem run_describes (hbs : 0 < bs.toNat) :
    ∀ (calls done : List AddCall) (bbl : BackedBlockList) (addr : Nat), bbl.blockSize = bs →
      Ordered bs addr bbl.dataBlocks →
      (∀ k v, Describes bs bbl.dataBlocks k v ↔ Segments.Maps (done.map (region bs)) k v) →
      (∀ c ∈ calls, (region bs c).start + (region bs c).size ≤ 2 ^ 32) →
      Segments.Apart ((done ++ calls).map (region bs)) →
      Along (addStep freed) (fun s c => Fits freed s.1 (c.bb s.2)) (bbl, addr) calls →
      ∃ bbl' addr', run (addStep freed) (bbl, addr) calls = .ok (bbl', addr') ∧
        Ordered bs addr' bbl'.dataBlocks ∧
        ∀ k v, Describes bs bbl'.dataBlocks k v ↔
          Segments.Maps ((done ++ calls).map (region bs)) k v := by
  intro calls
  induction calls with
  | nil =>
    intro done bbl addr _ ho hd _ _ _
    exact ⟨bbl, addr, rfl, ho, by simpa using hd⟩
  | cons c calls ih =>
    intro done bbl addr hb ho hd hr ha hfit
    subst hb
    have hapart : ∀ n ∈ bbl.dataBlocks,
        Seg.Apart (seg bbl.blockSize (c.bb addr)) (seg bbl.blockSize n) := by
      intro n hn k hc hk
      obtain ⟨v, hv⟩ := (Seg.covers_iff _ k).mp hk
      obtain ⟨s, hs, hs'⟩ := (hd k v).mp ⟨_, mem_map_of_mem hn, hv⟩
      rw [seg_bb] at hc
      simp only [map_append, map_cons, Segments.Apart, pairwise_append,
        mem_cons] at ha
      exact ha.2.2 s hs (region bbl.blockSize c) (.inl rfl) k hs'.1 hc
    have hrange := hr c mem_cons_self
    rw [← seg_bb bbl.blockSize c addr] at hrange
    obtain ⟨bbl', hq, hb', ho', hd'⟩ := queueBb_describes hbs ho hfit.1 hapart hrange
      (addCall_name c addr)
    have hstep : addStep freed (bbl, addr) c = .ok (bbl', addr + 1) := by
      simp only [addStep, AddCall.run_eq, hq]
    rw [run_cons_ok hstep, show done ++ c :: calls = (done ++ [c]) ++ calls by simp]
    refine ih (done ++ [c]) bbl' (addr + 1) hb' ho' ?_
      (fun d hd => hr d (mem_cons_of_mem _ hd)) (by simpa using ha) (hfit.2 _ hstep)
    intro k v
    rw [hd' k v, seg_bb, hd k v, map_append, maps_append]
    simp [or_comm]

/-- The list that calls on disjoint regions make is strictly sorted, its nodes do not
meet, and it describes the union of the regions, whatever the order of the calls; for
every sequence whose calls fit the list they are made on. -/
theorem addAll_describes (freed : FreedRead) (bs : UInt32) (calls : List AddCall) (hbs : bs ≠ 0)
    (hrange : ∀ c ∈ calls, (region bs c).start + (region bs c).size ≤ 2 ^ 32)
    (hapart : Segments.Apart (calls.map (region bs))) (hfit : AllFit freed bs calls) :
    ∃ bbl addr, addAll freed bs calls = .ok (bbl, addr) ∧
      bbl.dataBlocks.Pairwise (fun a b => a.block < b.block) ∧
      Segments.Apart (bbl.dataBlocks.map (seg bs)) ∧
      (∀ k v, Describes bs bbl.dataBlocks k v ↔ ∃ c ∈ calls, (region bs c).Maps k v) ∧
      ∀ calls' bbl' addr', calls'.Perm calls → AllFit freed bs calls' →
        addAll freed bs calls' = .ok (bbl', addr') →
        ∀ k v, Describes bs bbl'.dataBlocks k v ↔ Describes bs bbl.dataBlocks k v := by
  have main : ∀ calls' : List AddCall, calls'.Perm calls → AllFit freed bs calls' →
      ∃ bbl addr, addAll freed bs calls' = .ok (bbl, addr) ∧ Ordered bs addr bbl.dataBlocks ∧
        ∀ k v, Describes bs bbl.dataBlocks k v ↔ Segments.Maps (calls.map (region bs)) k v := by
    intro calls' hp hf
    have hnil : Ordered bs 0 ([] : List BackedBlock) := ⟨.nil, by simp, by simp⟩
    obtain ⟨bbl, addr, hrun, ho, hd⟩ := run_describes (toNat_pos_of_ne hbs) calls' []
      (backedBlockListNew bs) 0 rfl hnil (fun k v => by simp [backedBlockListNew])
      (fun c hc => hrange c (hp.mem_iff.mp hc))
      ((apart_perm (hp.map (region bs))).mpr hapart) hf
    exact ⟨bbl, addr, hrun, ho, fun k v => by rw [hd, nil_append, maps_perm (hp.map _)]⟩
  obtain ⟨bbl, addr, hrun, ho, hd⟩ := main calls (List.Perm.refl _) hfit
  refine ⟨bbl, addr, hrun, ho.before.imp (fun h => h.1), ?_, ?_, ?_⟩
  · exact pairwise_map.mpr (ho.before.imp (fun h => h.2))
  · intro k v
    rw [hd]
    simp [Segments.Maps]
  · intro calls' bbl' addr' hp hf hrun' k v
    obtain ⟨bbl'', addr'', hrun'', _, hd''⟩ := main calls' hp hf
    rw [hrun'] at hrun''
    obtain ⟨rfl, rfl⟩ := Prod.mk.inj (Except.ok.inj hrun'')
    rw [hd, hd'']

/-- Two calls that fit: a fill and a shorter one behind it, merged into one node. -/
theorem addAll_describes_two_fills :
    AllFit .trap 4096 [.fill 7 4096 5, .fill 7 100 6] ∧
    ∃ bbl addr, addAll .trap 4096 [.fill 7 4096 5, .fill 7 100 6] = .ok (bbl, addr) ∧
      ∀ k v, Describes 4096 bbl.dataBlocks k v ↔
        ∃ c ∈ ([.fill 7 4096 5, .fill 7 100 6] : List AddCall), (region 4096 c).Maps k v := by
  have hfit : AllFit .trap 4096 [.fill 7 4096 5, .fill 7 100 6] := by
    refine ⟨⟨by simp [backedBlockListNew], .inl (by simp [backedBlockListNew]), ?_, ?_⟩, ?_⟩
    · intro c hc; cases hc
    · intro c hc; cases hc
    · intro s hs
      obtain rfl : ((⟨[⟨0, 5, 4096, .fill 7⟩], none, 4096⟩, 1) : BackedBlockList × Nat) = s :=
        Except.ok.inj hs
      refine ⟨⟨by decide, .inr fun _ a ha => absurd ha (by simp), ?_, ?_⟩, fun _ _ => trivial⟩
      · intro c hc
        obtain rfl : (⟨[], ⟨0, 5, 4096, .fill 7⟩, []⟩ : Cursor) = c :=
          Option.some.inj (Except.ok.inj hc)
        intro n hn; cases hn
      · intro c hc _
        obtain rfl : (⟨[], ⟨0, 5, 4096, .fill 7⟩, []⟩ : Cursor) = c :=
          Option.some.inj (Except.ok.inj hc)
        decide
  obtain ⟨bbl, addr, h, _, _, hd, _⟩ := addAll_describes .trap 4096
    [.fill 7 4096 5, .fill 7 100 6] (by decide) (by decide)
    (pairwise_pair.mpr (Seg.apart_of_le (by decide))) hfit
  exact ⟨hfit, bbl, addr, h, hd⟩

/-- Two equal fills of half the 32-bit range merge into a node of length zero. -/
theorem addAll_loses_wrapped_fills :
    ¬ ∀ calls : List AddCall,
      (∀ c ∈ calls, (region 4096 c).start + (region 4096 c).size ≤ 2 ^ 32) →
      Segments.Apart (calls.map (region 4096)) →
      ∃ bbl addr, addAll .trap 4096 calls = .ok (bbl, addr) ∧
        ∀ k v, Describes 4096 bbl.dataBlocks k v ↔ ∃ c ∈ calls, (region 4096 c).Maps k v := by
  intro h
  obtain ⟨bbl, addr, hrun, hd⟩ := h [.fill 7 2147483648 0, .fill 7 2147483648 524288] (by decide)
    (pairwise_pair.mpr (Seg.apart_of_le (by decide)))
  obtain ⟨rfl, rfl⟩ : (⟨[⟨0, 0, 0, .fill 7⟩], some 1, 4096⟩ : BackedBlockList) = bbl ∧ 2 = addr :=
    Prod.mk.inj (Except.ok.inj hrun)
  obtain ⟨s, hs, ⟨_, hlt⟩, _⟩ := (hd 0 ⟨.fill 7, 4096⟩).mpr
    ⟨.fill 7 2147483648 0, by simp, ⟨by decide, by decide⟩, by decide⟩
  rw [mem_singleton.mp hs] at hlt
  exact absurd hlt (by decide)

end SystemCore.Libsparse.BlockMap
