import SystemCore.Libsparse.StreamFormat

/-!
# The end of the list while a stream is read

The reader adds its nodes behind all others, so only the last node can take in the next
one. `Tail` says of the chunks alone whether that happens: a fill goes on with the fills
of its value that end at its first block, and raw chunks are never merged. `Tracks` ties
it to the block list, for as long as no length has wrapped.
-/
namespace SystemCore.Libsparse.Decoding

open Lib Lib.Segments Lib.CeilDiv Lib.LittleEndian List
open BlockMap

/-! ## Blocks that a node holds as a whole -/

/-- Some node holds all the bytes of block `k`. -/
def Whole (bs : UInt32) (nodes : List BackedBlock) (k : Nat) : Prop :=
  ∃ n ∈ nodes, n.block.toNat ≤ k ∧ k < n.block.toNat + n.len.toNat / bs.toNat

/-- All nodes begin before block `cur`, and their whole blocks end there. -/
def Below (bs : UInt32) (nodes : List BackedBlock) (cur : Nat) : Prop :=
  ∀ n ∈ nodes, n.block.toNat < cur ∧ n.block.toNat + n.len.toNat / bs.toNat ≤ cur

variable {last : BackedBlock} {bs : UInt32} {nodes : List BackedBlock}

theorem whole_of_describes (hbs : 0 < bs.toNat) {k : Nat} {v : BlockContent}
    (h : Describes bs nodes k v) (hv : v.len = bs.toNat) : Whole bs nodes k := by
  obtain ⟨s, hs, ⟨hcov, hval⟩⟩ := h
  obtain ⟨n, hn, rfl⟩ := mem_map.mp hs
  have hlen := congrArg BlockContent.len hval
  simp only [seg] at hcov hlen
  refine ⟨n, hn, hcov.1, ?_⟩
  have hi : k - n.block.toNat + 1 ≤ n.len.toNat / bs.toNat := by
    rw [Nat.le_div_iff_mul_le hbs, Nat.add_mul, Nat.mul_comm]
    omega
  have := hcov.1
  omega

theorem below_mono {cur cur' : Nat} (h : Below bs nodes cur) (hle : cur ≤ cur') :
    Below bs nodes cur' := by
  intro n hn
  have := h n hn
  omega

section Snoc

variable {bs : UInt32} {nodes : List BackedBlock} {newBb : BackedBlock}

/-- A node is merged when its last whole block is the one before the new node. -/
theorem end_of_mergeable (hb : Below bs nodes newBb.block.toNat) (hl : last ∈ nodes)
    (hm : mergeable bs last newBb = true) :
    last.block.toNat + last.len.toNat / bs.toNat = newBb.block.toNat := by
  unfold mergeable at hm
  simp only [Bool.and_eq_true, beq_iff_eq] at hm
  have he := congrArg UInt32.toNat hm.1
  have := (hb last hl).2
  have := newBb.block.toNat_lt
  rw [UInt32.toNat_add, UInt32.toNat_div, Nat.mod_eq_of_lt (by omega)] at he
  exact he

theorem below_snoc (hbs : 0 < bs.toNat) (hb : Below bs nodes newBb.block.toNat) {n : Nat}
    (hn : 0 < n) (hlen : newBb.len.toNat ≤ n * bs.toNat) :
    Below bs (snocBb bs nodes newBb) (newBb.block.toNat + n) := by
  have hdiv : newBb.len.toNat / bs.toNat ≤ n := by
    have := Nat.div_le_div_right (c := bs.toNat) hlen
    rwa [Nat.mul_div_cancel _ hbs] at this
  refine forall_snocBb (below_mono hb (Nat.le_add_right _ _)) ⟨by omega, by omega⟩ ?_
  intro last hlast hm
  have hl := mem_of_getLast? hlast
  have hend := end_of_mergeable hb hl hm
  refine ⟨by rw [absorb_block]; have := hb last hl; omega, ?_⟩
  have hsum : (last.len + newBb.len).toNat / bs.toNat ≤ last.len.toNat / bs.toNat + n := by
    rw [UInt32.toNat_add, ← Nat.add_mul_div_right _ _ hbs]
    apply Nat.div_le_div_right
    exact (Nat.mod_le _ _).trans (Nat.add_le_add_left hlen _)
  rw [absorb_block, absorb_len]
  omega

/-- A new node does not make a block before it whole. -/
theorem whole_of_snoc (hb : Below bs nodes newBb.block.toNat) {k : Nat}
    (hk : k < newBb.block.toNat) (h : Whole bs (snocBb bs nodes newBb) k) : Whole bs nodes k := by
  obtain ⟨n, hn, hlo, hhi⟩ := h
  refine forall_snocBb (P := fun n => n.block.toNat ≤ k →
    k < n.block.toNat + n.len.toNat / bs.toNat → Whole bs nodes k) ?_ ?_ ?_ n hn hlo hhi
  · intro n hn hlo hhi
    exact ⟨n, hn, hlo, hhi⟩
  · intro hlo _
    omega
  · intro last hlast hm hlo _
    have hl := mem_of_getLast? hlast
    exact ⟨last, hl, hlo, by rw [end_of_mergeable hb hl hm]; exact hk⟩

/-- The last of `n` new blocks is not whole when the node that should hold it is too
short. -/
theorem not_whole_snoc (hb : Below bs nodes newBb.block.toNat) {n : Nat} (hn : 0 < n)
    (hnew : (∀ last ∈ nodes.getLast?, mergeable bs last newBb = false) →
      newBb.len.toNat / bs.toNat < n)
    (hmerge : ∀ last ∈ nodes.getLast?, mergeable bs last newBb = true →
      (last.len + newBb.len).toNat / bs.toNat < last.len.toNat / bs.toNat + n) :
    ¬ Whole bs (snocBb bs nodes newBb) (newBb.block.toNat + n - 1) := by
  rintro ⟨m, hm, hlo, hhi⟩
  have hold : m ∉ nodes := by
    intro hmem
    have := (hb m hmem).2
    omega
  rcases snocBb_cases bs nodes newBb with ⟨before, last, rfl, hj, h⟩ | ⟨hj, h⟩
  · rw [h, mem_append, mem_singleton] at hm
    rcases hm with hm | rfl
    · exact hold (by simp [hm])
    have hend := end_of_mergeable hb (by simp) hj
    have := hmerge last (by simp) hj
    rw [absorb_block, absorb_len] at hhi
    omega
  · rw [h, mem_append, mem_singleton] at hm
    rcases hm with hm | rfl
    · exact hold hm
    have := hnew hj
    omega

/-- The node that a new one ends up in. -/
theorem getLast?_snocBb : (snocBb bs nodes newBb).getLast? = some
    (match nodes.getLast? with
      | none => newBb
      | some last => if mergeable bs last newBb then last.absorb newBb else newBb) := by
  unfold snocBb
  cases nodes.getLast? with
  | none => rfl
  | some last =>
    dsimp only
    split <;> simp

end Snoc

/-! ## The end of the list -/

/-- What the chunks read so far leave for the next one: the run of equal fills that ends
at the current block, by its value and its number of bytes, and whether the node that was
added last has been freed in a merge. -/
structure Tail where
  fill : Option (UInt32 × Nat)
  stale : Bool
  deriving DecidableEq, Repr

def Tail.merges (t : Tail) : Chunk → Bool
  | .fill _ v =>
    match t.fill with
    | some (w, _) => w == v
    | none => false
  | _ => false

def Tail.bytes (t : Tail) : Nat :=
  match t.fill with
  | some (_, len) => len
  | none => 0

def Tail.next (bs : Nat) (t : Tail) : Chunk → Tail
  | .raw _ _ => ⟨none, false⟩
  | .fill n v =>
    ⟨some (v, (if t.merges (.fill n v) then t.bytes else 0) + n.toNat * bs), t.merges (.fill n v)⟩
  | .dontCare n => if n = 0 then t else ⟨none, t.stale⟩
  | .crc32 _ => t

/-- No run of equal fills that meet comes to `2^32` bytes, and where a read of freed
memory traps, no raw or fill chunk follows one that was merged. -/
def Decodable (freed : FreedRead) (bs : Nat) : Tail → List Chunk → Prop
  | _, [] => True
  | t, c :: cs =>
    (c.adds = true → freed = .trap → t.stale = false) ∧ (t.next bs c).bytes < 2 ^ 32 ∧
      Decodable freed bs (t.next bs c) cs

def EndsIn (bs : UInt32) (nodes : List BackedBlock) (cur : Nat) : Option (UInt32 × Nat) → Prop
  | some (v, len) => ∃ last ∈ nodes.getLast?, last.backing = .fill v ∧ last.len.toNat = len ∧
      last.block.toNat + len / bs.toNat = cur
  | none => ∀ last ∈ nodes.getLast?,
      last.block.toNat + last.len.toNat / bs.toNat ≠ cur ∨ ∃ d o, last.backing = .fd d o

/-- The list in front of block `cur`, built from the first `pos` bytes of the stream. -/
structure Tracks (bs : UInt32) (t : Tail) (bbl : BackedBlockList) (fresh pos cur : Nat) : Prop where
  ordered : Ordered bs fresh bbl.dataBlocks
  addrs : ∀ n ∈ bbl.dataBlocks, n.addr < fresh
  below : Below bs bbl.dataBlocks cur
  dvd : ∀ n ∈ bbl.dataBlocks, bs.toNat ∣ n.len.toNat
  behind : ∀ n ∈ bbl.dataBlocks, ∀ d o, n.backing = .fd d o → o + n.len.toNat ≤ pos
  valid : t.stale = false ↔ LastUsed.Valid bbl
  empty : bbl.dataBlocks = [] → bbl.lastUsed = none
  ends : EndsIn bs bbl.dataBlocks cur t.fill

/-- Blocks that are left out move the end of the list away. -/
theorem Tracks.skip {t : Tail} {bbl : BackedBlockList} {fresh pos pos' cur : Nat}
    (h : Tracks bs t bbl fresh pos cur) (n : UInt32) (hpos : pos ≤ pos') :
    Tracks bs (t.next bs.toNat (.dontCare n)) bbl fresh pos' (cur + n.toNat) := by
  constructor
  case ordered => exact h.ordered
  case addrs => exact h.addrs
  case below => exact below_mono h.below (Nat.le_add_right _ _)
  case dvd => exact h.dvd
  case behind =>
    intro m hm d o hb
    have := h.behind m hm d o hb
    omega
  case valid =>
    rw [← h.valid]
    simp only [Tail.next]
    split <;> rfl
  case empty => exact h.empty
  case ends =>
    simp only [Tail.next]
    split
    · rename_i h0
      rw [h0]
      exact h.ends
    · rename_i h0
      have hn := toNat_pos_of_ne h0
      intro last hl
      left
      have := (h.below last (mem_of_getLast? hl)).2
      omega

section Tracking

variable {freed : FreedRead} {fd : Int} {bs cur : UInt32} {t : Tail} {bbl : BackedBlockList}
  {fresh pos offset : Nat} {c : Chunk} {newBb : BackedBlock}
  (h : Tracks bs t bbl fresh pos cur.toNat) (hpos : pos < offset)
  (hnode : NodeOf fd bs offset fresh cur c newBb)

include h

theorem Tracks.merges_of_nil (hl : bbl.dataBlocks.getLast? = none) (c : Chunk) :
    t.merges c = false := by
  have hf : t.fill = none := by
    cases hf : t.fill with
    | none => rfl
    | some x =>
      have hends := h.ends
      rw [hf] at hends
      obtain ⟨last, hlast, -⟩ := hends
      rw [hl] at hlast
      cases hlast
  cases c <;> simp [Tail.merges, hf]

include hpos hnode

/-- The last node takes in the node of a chunk exactly if the chunk goes on with its
fills: the data of two raw chunks do not lie side by side. -/
theorem Tracks.mergeable_eq (hl : last ∈ bbl.dataBlocks.getLast?) :
    mergeable bs last newBb = t.merges c := by
  have hmem := mem_of_getLast? hl
  have hend : (last.block + last.len / bs == newBb.block) =
      decide (last.block.toNat + last.len.toNat / bs.toNat = cur.toNat) := by
    have := (h.below last hmem).2
    have := cur.toNat_lt
    rw [Bool.eq_iff_iff, beq_iff_eq, decide_eq_true_iff, ← UInt32.toNat_inj, UInt32.toNat_add,
      UInt32.toNat_div, Nat.mod_eq_of_lt (by omega), hnode.block]
  rw [mergeable, hend]
  rcases hnode.backing with ⟨n, data, rfl, hb⟩ | ⟨n, v, rfl, hb⟩
  · have hcompat : compatible last newBb = false := by
      rw [← Bool.not_eq_true]
      intro hcompat
      obtain ⟨_, _, hf, -⟩ := hnode.fill_of_compatible
        (fun d o hb => by have := h.behind last hmem d o hb; omega) hcompat
      cases hf
    rw [hcompat, Bool.and_false]
    rfl
  · have hends := h.ends
    cases hf : t.fill with
    | none =>
      rw [hf] at hends
      rcases hends last hl with hne | ⟨d, o, hb'⟩
      · simp [Tail.merges, hf, hne]
      · simp [Tail.merges, hf, compatible, hb, hb']
    | some x =>
      obtain ⟨w, len⟩ := x
      rw [hf] at hends
      obtain ⟨last', hl', hb', hlen, hcur⟩ := hends
      obtain rfl := Option.some.inj (hl'.symm.trans hl)
      subst hlen
      simp [Tail.merges, hf, compatible, hb, hb', hcur]

/-- A node is only merged into a run of fills of its value. -/
theorem Tracks.run_of_mergeable (hl : last ∈ bbl.dataBlocks.getLast?)
    (hm : mergeable bs last newBb = true) :
    ∃ n v, c = .fill n v ∧ last.backing = .fill v ∧ t.fill = some (v, last.len.toNat) ∧
      last.block.toNat + last.len.toNat / bs.toNat = cur.toNat := by
  rw [h.mergeable_eq hpos hnode hl] at hm
  rcases hnode.backing with ⟨n, data, rfl, -⟩ | ⟨n, v, rfl, -⟩
  · cases hm
  · simp only [Tail.merges] at hm
    split at hm
    · rename_i w len hf
      obtain rfl := eq_of_beq hm
      have hends := h.ends
      rw [hf] at hends
      obtain ⟨last', hl', hb, rfl, hcur⟩ := hends
      obtain rfl := Option.some.inj (hl'.symm.trans hl)
      exact ⟨n, w, rfl, hb, hf, hcur⟩
    · cases hm

omit hpos in
/-- Queueing a node of whole blocks at the current block. -/
theorem Tracks.queue (hbs : bs ≠ 0) (hsize : bbl.blockSize = bs)
    (hlen : newBb.len.toNat = c.blocks.toNat * bs.toNat)
    (hr : cur.toNat + c.blocks.toNat ≤ 2 ^ 32) (hlive : freed = .trap → t.stale = false)
    (hsum : ∀ last ∈ bbl.dataBlocks.getLast?, mergeable bs last newBb = true →
      last.len.toNat + newBb.len.toNat < 2 ^ 32) :
    ∃ bbl', queueBb freed bbl newBb = .ok bbl' ∧ bbl'.blockSize = bs ∧
      bbl'.dataBlocks = snocBb bs bbl.dataBlocks newBb ∧
      bbl'.lastUsed = (if bbl.dataBlocks = [] then bbl.lastUsed else some fresh) ∧
      Ordered bs (fresh + 1) bbl'.dataBlocks ∧
      ∀ k v, Describes bs bbl'.dataBlocks k v ↔
        (seg bs newBb).Maps k v ∨ Describes bs bbl.dataBlocks k v := by
  subst hsize
  have hu := toNat_pos_of_ne hbs
  have hlt : ∀ m ∈ bbl.dataBlocks, m.block < newBb.block := by
    intro m hm
    rw [hnode.block]
    exact UInt32.lt_iff_toNat_lt.mpr (h.below m hm).1
  have hvalid : freed = .trap → LastUsed.Valid bbl := fun hf => h.valid.mp (hlive hf)
  have hq := queueBb_last hvalid hbs hlt
  have hblocks : newBb.len.toNat ⌈/⌉ bbl.blockSize.toNat = c.blocks.toNat := by
    rw [hlen, Nat.mul_comm]
    exact smul_ceilDiv hu _
  have hfits : BlockMap.Fits freed bbl newBb := by
    refine ⟨fun m hm => UInt32.ne_of_lt (hlt m hm), .inr hvalid, ?_, ?_⟩
    · intro c hc m hm
      rw [(searchStop_last hlt hc).2] at hm
      cases hm
    · intro c hc hm
      obtain ⟨hlast, hnil⟩ := searchStop_last hlt hc
      rw [hnil] at hm ⊢
      exact hsum c.bb (by rw [hlast]; simp) hm
  have hapart : ∀ m ∈ bbl.dataBlocks,
      Seg.Apart (seg bbl.blockSize newBb) (seg bbl.blockSize m) := by
    intro m hm
    apply Seg.Apart.symm
    apply Seg.apart_of_le
    simp only [seg, ceilDiv_of_dvd hu (h.dvd m hm), hnode.block]
    exact (h.below m hm).2
  have hname : ∀ f path o, newBb.backing = .file f path o → f = fresh := by
    intro f path o hf
    rcases hnode.backing with ⟨_, _, _, hb⟩ | ⟨_, _, _, hb⟩ <;> rw [hb] at hf <;> cases hf
  obtain ⟨bbl', hq', -, hord, hdesc⟩ := queueBb_describes hu h.ordered hfits hapart
    (by simp only [seg, hblocks, hnode.block]; exact hr) hname
  rw [hq] at hq'
  obtain rfl := Except.ok.inj hq'
  exact ⟨_, hq, rfl, rfl, by rw [hnode.addr], hord, hdesc⟩

/-- `last_used` is good behind a node that was not merged. -/
theorem Tracks.valid_next {bbl' : BackedBlockList}
    (hnodes : bbl'.dataBlocks = snocBb bs bbl.dataBlocks newBb)
    (hused : bbl'.lastUsed = if bbl.dataBlocks = [] then bbl.lastUsed else some fresh) :
    (t.next bs.toNat c).stale = false ↔ LastUsed.Valid bbl' := by
  have hstale : (t.next bs.toNat c).stale = t.merges c := by
    rcases hnode.backing with ⟨n, data, rfl, -⟩ | ⟨n, v, rfl, -⟩ <;> rfl
  rw [hstale]
  cases hl : bbl.dataBlocks.getLast? with
  | none =>
    have hnil := List.getLast?_eq_none_iff.mp hl
    refine iff_of_true (h.merges_of_nil hl c) ?_
    intro a ha
    rw [hused, if_pos hnil, h.empty hnil] at ha
    cases ha
  | some last =>
    have hne : bbl.dataBlocks ≠ [] := by
      intro hnil
      rw [hnil] at hl
      cases hl
    have hold : ∀ n ∈ bbl.dataBlocks, n.addr ≠ fresh := fun n hn => (h.addrs n hn).ne
    rw [← h.mergeable_eq hpos hnode hl, LastUsed.Valid, hused, if_neg hne, hnodes]
    simp only [Option.mem_some_iff, forall_eq', snocBb, hl]
    split
    · rename_i hm
      refine iff_of_false (by simp [hm]) ?_
      rintro ⟨n, hn, ha⟩
      rcases mem_append.mp hn with hn | hn
      · exact hold n (dropLast_subset _ hn) ha
      · rw [mem_singleton.mp hn] at ha
        exact hold last (mem_of_getLast? hl) ha
    · rename_i hm
      exact iff_of_true (by simpa using hm) ⟨newBb, by simp, hnode.addr⟩

theorem Tracks.ends_next (hu : 0 < bs.toNat)
    (hlen : newBb.len.toNat = c.blocks.toNat * bs.toNat)
    (habsorb : ∀ last ∈ bbl.dataBlocks.getLast?, mergeable bs last newBb = true →
      (last.absorb newBb).len.toNat = last.len.toNat + newBb.len.toNat) :
    EndsIn bs (snocBb bs bbl.dataBlocks newBb) (cur.toNat + c.blocks.toNat)
      (t.next bs.toNat c).fill := by
  have hlast := @getLast?_snocBb bs bbl.dataBlocks newBb
  rcases hnode.backing with ⟨n, data, rfl, hb⟩ | ⟨n, v, rfl, hb⟩
  · intro last hl
    right
    refine ⟨fd, offset, ?_⟩
    rw [hlast] at hl
    obtain rfl := Option.some.inj hl
    split
    · exact hb
    · rename_i last hl'
      rw [h.mergeable_eq hpos hnode hl']
      exact hb
  · have hblocks : (Chunk.fill n v).blocks = n := rfl
    rw [hblocks] at hlen ⊢
    refine ⟨_, hlast, ?_⟩
    split
    · rename_i hl
      rw [h.merges_of_nil hl, hb, hlen, hnode.block, if_neg Bool.false_ne_true, Nat.zero_add,
        Nat.mul_div_cancel _ hu]
      exact ⟨rfl, rfl, rfl⟩
    · rename_i last hl
      rw [← h.mergeable_eq hpos hnode hl]
      split
      · rename_i hm
        obtain ⟨n', v', hc, hb', hf, hend⟩ := h.run_of_mergeable hpos hnode hl hm
        obtain ⟨rfl, rfl⟩ := Chunk.fill.inj hc
        have hbytes : t.bytes = last.len.toNat := by rw [Tail.bytes, hf]
        rw [absorb_backing, hb', habsorb last hl hm, hlen, absorb_block, hbytes,
          Nat.add_mul_div_right _ _ hu]
        exact ⟨rfl, rfl, by omega⟩
      · rw [hb, hlen, hnode.block, Nat.zero_add, Nat.mul_div_cancel _ hu]
        exact ⟨rfl, rfl, rfl⟩

/-- The list behind the node of a chunk. -/
theorem Tracks.add (hbs : bs ≠ 0) (hsize : bbl.blockSize = bs) (hn : 0 < c.blocks.toNat)
    (hr : cur.toNat + c.blocks.toNat < 2 ^ 32)
    (hlen : newBb.len.toNat = c.blocks.toNat * bs.toNat) {pos' : Nat} (hpos' : pos ≤ pos')
    (hraw : ∀ n data, c = .raw n data → offset + newBb.len.toNat ≤ pos')
    (hlive : freed = .trap → t.stale = false) (hbytes : (t.next bs.toNat c).bytes < 2 ^ 32) :
    ∃ bbl', queueBb freed bbl newBb = .ok bbl' ∧ bbl'.blockSize = bs ∧
      Tracks bs (t.next bs.toNat c) bbl' (fresh + 1) pos' (cur.toNat + c.blocks.toNat) ∧
      ∀ k v, Describes bs bbl'.dataBlocks k v ↔
        (seg bs newBb).Maps k v ∨ Describes bs bbl.dataBlocks k v := by
  have hu := toNat_pos_of_ne hbs
  have hrun := fun last (hl : last ∈ bbl.dataBlocks.getLast?) (hm : mergeable bs last newBb = true) =>
    h.run_of_mergeable hpos hnode hl hm
  have hsum : ∀ last ∈ bbl.dataBlocks.getLast?, mergeable bs last newBb = true →
      last.len.toNat + newBb.len.toNat < 2 ^ 32 := by
    intro last hl hm
    obtain ⟨n, v, rfl, hb, hf, -⟩ := hrun last hl hm
    rw [hlen]
    simpa [Tail.next, Tail.merges, Tail.bytes, hf, Chunk.blocks] using hbytes
  have habsorb : ∀ last ∈ bbl.dataBlocks.getLast?, mergeable bs last newBb = true →
      (last.absorb newBb).len.toNat = last.len.toNat + newBb.len.toNat := by
    intro last hl hm
    rw [absorb_len, UInt32.toNat_add, Nat.mod_eq_of_lt (hsum last hl hm)]
  obtain ⟨bbl', hq, hsize', hnodes, hused, hord, hdesc⟩ :=
    h.queue hnode hbs hsize hlen hr.le hlive hsum
  have hdvd : bs.toNat ∣ newBb.len.toNat := hlen ▸ Nat.dvd_mul_left _ _
  refine ⟨bbl', hq, hsize', ?_, hdesc⟩
  constructor
  case ordered => exact hord
  case addrs =>
    rw [hnodes]
    refine forall_snocBb (fun n hn => Nat.lt_succ_of_lt (h.addrs n hn))
      (hnode.addr ▸ Nat.lt_succ_self _) ?_
    intro last hl _
    exact Nat.lt_succ_of_lt (h.addrs last (mem_of_getLast? hl))
  case below =>
    have hb := below_snoc hu (hnode.block ▸ h.below) hn hlen.le
    rwa [hnodes, ← hnode.block]
  case dvd =>
    rw [hnodes]
    refine forall_snocBb h.dvd hdvd ?_
    intro last hl hm
    rw [habsorb last hl hm]
    exact Nat.dvd_add (h.dvd last (mem_of_getLast? hl)) hdvd
  case behind =>
    rw [hnodes]
    refine forall_snocBb ?_ ?_ ?_
    · intro n hn d o hb
      have := h.behind n hn d o hb
      omega
    · intro d o hb
      rcases hnode.backing with ⟨n, data, rfl, hb'⟩ | ⟨n, v, rfl, hb'⟩
      · rw [hb'] at hb
        obtain ⟨-, rfl⟩ := Backing.fd.inj hb
        exact_mod_cast hraw n data rfl
      · rw [hb'] at hb
        cases hb
    · intro last hl hm d o hb
      obtain ⟨n, v, -, hb', -⟩ := hrun last hl hm
      rw [absorb_backing, hb'] at hb
      cases hb
  case valid => exact h.valid_next hpos hnode hnodes hused
  case empty =>
    intro hnil
    have hlast := @getLast?_snocBb bs bbl.dataBlocks newBb
    rw [← hnodes, hnil] at hlast
    cases hlast
  case ends =>
    rw [hnodes]
    exact h.ends_next hpos hnode hu hlen habsorb

end Tracking

end SystemCore.Libsparse.Decoding
