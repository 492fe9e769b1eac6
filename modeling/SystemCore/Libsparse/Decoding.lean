import SystemCore.Libsparse.ReadTail

/-!
# What is imported from a stream

`sparse_file_import` hands every raw and fill chunk to the block list, with its length in
32 bits, and the list merges equal fills that meet. So the blocks of the imported file
are those of the format exactly if no such run of fills comes to `2^32` bytes, and if the
reader does not trip over the node that a merge freed.
-/
namespace SystemCore.Libsparse.Decoding

open Lib Lib.Segments Lib.CeilDiv Lib.LittleEndian List
open BlockMap

/-! ## Whole streams -/

/-- The loop behind the chunks `done`, all of them decoded. -/
structure Follows (file : List UInt8) (fd : Int) (bs : UInt32) (done : List Chunk) (t : Tail)
    (st : ChunkLoop) : Prop where
  blockSize : st.reader.s.blockSize = bs
  curBlock : st.curBlock.toNat = totalBlocks done
  tracks : Tracks bs t st.reader.s.list st.reader.fresh st.reader.pos st.curBlock.toNat
  decoded : Decoded file fd bs done st.reader.s.list.dataBlocks

variable {c : Chunk}

section Blocks

variable {file : List UInt8} {fd : Int} {bs : UInt32} {done : List Chunk} {nodes : List BackedBlock}
  (h : Decoded file fd bs done nodes)

include h

/-- A new node for the blocks of one more chunk. -/
theorem Decoded.add {nodes' : List BackedBlock} {s : Seg BlockContent}
    (hstart : s.start = totalBlocks done) (hsize : s.size = c.blocks.toNat)
    (hdesc : ∀ k v, Describes bs nodes' k v ↔ s.Maps k v ∨ Describes bs nodes k v)
    (hval : ∀ i < c.blocks.toNat, ∃ d, chunkBlock bs.toNat i c = some d ∧
      dataOf file fd bs.toNat (s.val i) = some d) : Decoded file fd bs (done ++ [c]) nodes' := by
  constructor
  · intro k d hk
    by_cases hlt : k < totalBlocks done
    · rw [blockAt_of_lt [c] hlt] at hk
      obtain ⟨v, hv, hd⟩ := h.carried k d hk
      exact ⟨v, (hdesc k v).mpr (Or.inr hv), hd⟩
    · rw [blockAt_concat c (not_lt.mp hlt)] at hk
      split at hk
      · rename_i hi
        obtain ⟨d', hd', hs⟩ := hval _ hi
        obtain rfl := Option.some.inj (hk.symm.trans hd')
        exact ⟨_, (hdesc k _).mpr (Or.inl ⟨⟨by omega, by omega⟩, rfl⟩), by rwa [hstart]⟩
      · cases hk
  · intro k v hk
    rcases (hdesc k v).mp hk with ⟨⟨hlo, hhi⟩, rfl⟩ | hv
    · obtain ⟨d, hd, hs⟩ := hval (k - s.start) (by omega)
      refine ⟨d, ?_, hs⟩
      rw [blockAt_concat c (by omega), if_pos (by omega), ← hstart, hd]
    · obtain ⟨d, hd, hs⟩ := h.only k v hv
      exact ⟨d, by rw [blockAt_of_lt [c] (lt_of_blockAt hd), hd], hs⟩

/-- Blocks that a chunk leaves out. -/
theorem Decoded.skip (n : UInt32) : Decoded file fd bs (done ++ [.dontCare n]) nodes := by
  constructor
  · intro k d hk
    by_cases hlt : k < totalBlocks done
    · rw [blockAt_of_lt _ hlt] at hk
      exact h.carried k d hk
    · rw [blockAt_concat _ (not_lt.mp hlt)] at hk
      split at hk <;> cases hk
  · intro k v hk
    obtain ⟨d, hd, hs⟩ := h.only k v hk
    exact ⟨d, by rw [blockAt_of_lt _ (lt_of_blockAt hd), hd], hs⟩

end Blocks

section Streams

variable {freed : FreedRead} {file rest : List UInt8} {fd : Int} {hdrSz : UInt16} {bs cur : UInt32}
  {done : List Chunk} {t : Tail} {st st' : ChunkLoop} {f : Framed} {newBb : BackedBlock}
  {offset addr : Nat} (hbs : bs ≠ 0) (hhdr : 12 ≤ hdrSz.toNat)
  (hx : 12 + f.extra.length = hdrSz.toNat) (hc : Documented hdrSz bs f.chunk)
  (hfile : file.drop st.reader.pos = f.bytes hdrSz ++ rest)
  (hnode : NodeOf fd bs offset addr cur f.chunk newBb) (h : Follows file fd bs done t st)

/-- The blocks that the node of a chunk gives are those of the chunk. -/
theorem node_decodes (hnode : NodeOf fd bs offset addr cur f.chunk newBb)
    (hc : Documented hdrSz bs f.chunk) (hlen : newBb.len.toNat = f.chunk.blocks.toNat * bs.toNat)
    (hpay : file.drop offset = f.chunk.payload ++ rest) (i : Nat) (hi : i < f.chunk.blocks.toNat) :
    ∃ d, chunkBlock bs.toNat i f.chunk = some d ∧
      dataOf file fd bs.toNat ((seg bs newBb).val i) = some d := by
  have hfit : bs.toNat * i + bs.toNat ≤ newBb.len.toNat := by
    have := Nat.mul_le_mul_left bs.toNat (Nat.succ_le_of_lt hi)
    rw [hlen, Nat.mul_comm _ bs.toNat]
    rwa [Nat.mul_succ] at this
  have hval : ((seg bs newBb).val i).len = bs.toNat := by
    simp only [seg]
    omega
  rcases hnode.backing with ⟨n, data, hraw, hb⟩ | ⟨n, v, hfill, hb⟩
  · rw [hraw] at hc hpay hlen ⊢
    refine ⟨_, rfl, ?_⟩
    rw [dataOf, if_neg (not_not.mpr hval)]
    have hsrc : ((seg bs newBb).val i).source = .fd fd (Int.ofNat (offset + bs.toNat * i)) := by
      simp only [seg, hb, Backing.advance, source]
      rfl
    have hle : bs.toNat * i + bs.toNat ≤ data.length := by
      rw [hlen] at hfit
      exact hfit.trans hc.2.2.1.ge
    simp only [hsrc, if_true]
    rw [← drop_drop, hpay]
    change some (BlockData.raw (((data ++ rest).drop _).take _)) = _
    rw [drop_append_of_le_length (by omega),
      take_append_of_le_length (by rw [length_drop]; omega)]
  · rw [hfill]
    refine ⟨_, rfl, ?_⟩
    rw [dataOf, if_neg (not_not.mpr hval)]
    simp only [seg, hb, Backing.advance, source]

include hc hnode in
theorem documented_pos : 0 < f.chunk.blocks.toNat := by
  rcases hnode.backing with ⟨n, data, hf, -⟩ | ⟨n, v, hf, -⟩ <;> rw [hf] at hc ⊢
  all_goals exact toNat_pos_of_ne hc.1

include hx in
theorem payload_of_framed {pos : Nat}
    (h : file.drop pos = f.bytes hdrSz ++ rest) :
    file.drop (pos + hdrSz.toNat) = f.chunk.payload ++ rest := by
  rw [Framed.bytes, append_assoc, append_assoc] at h
  rw [← hx, ← Nat.add_assoc]
  exact drop_add_of_drop (drop_add_of_drop h (ChunkHeader.bytes_length _)) rfl

theorem toNat_add_blocks {n : UInt32} (h : cur.toNat + n.toNat < 2 ^ 32) :
    (cur + n).toNat = cur.toNat + n.toNat := by
  rw [UInt32.toNat_add, Nat.mod_eq_of_lt h]

/-- The run of fills behind a chunk is never shorter than a new node. -/
theorem le_next_bytes {n v : UInt32} (hc : c = .fill n v) :
    n.toNat * bs.toNat ≤ (t.next bs.toNat c).bytes := by
  subst hc
  exact Nat.le_add_left _ _

include hc hnode in
/-- The length of the node of a chunk that the rest of the list can take. -/
theorem node_len (hbytes : (t.next bs.toNat f.chunk).bytes < 2 ^ 32) :
    newBb.len.toNat = f.chunk.blocks.toNat * bs.toNat := by
  rw [hnode.len, UInt32.toNat_mul]
  apply Nat.mod_eq_of_lt
  rcases hnode.backing with ⟨n, data, hf, -⟩ | ⟨n, v, hf, -⟩
  · rw [hf] at hc ⊢
    obtain ⟨-, -, hdata, hsize⟩ := hc
    simp only [Chunk.blocks]
    omega
  · rw [hf] at hbytes ⊢
    exact (le_next_bytes rfl).trans_lt hbytes

include hbs hx hc hfile in
/-- One turn over a chunk of the format: it leaves blocks out, or its node is queued. -/
theorem readChunk_documented (hsize : st.reader.s.blockSize = bs) :
    (∃ n, f.chunk = .dontCare n ∧
      readChunk freed file fd hdrSz st = .ok (goOn hdrSz f st st.reader)) ∨
    ∃ call : AddCall, NodeOf fd bs (st.reader.pos + hdrSz.toNat) st.reader.fresh st.curBlock f.chunk
        (call.bb st.reader.fresh) ∧
      readChunk freed file fd hdrSz st =
        match st.reader.add freed call with
        | .error e => .error e
        | .ok r => .ok (goOn hdrSz f st r) := by
  subst hsize
  have himage : f.chunk.Image st.reader.s.blockSize ∧ f.chunk.blocks.toNat < 2 ^ 31 := by
    cases hf : f.chunk <;> rw [hf] at hc
    case raw => exact ⟨⟨hc.2.2.1, by have := hc.2.2.2; omega⟩, hc.2.1⟩
    case fill => exact ⟨trivial, hc.2⟩
    case dontCare => exact ⟨trivial, hc⟩
    case crc32 => exact hc.elim
  have hread : readChunk freed file fd hdrSz st = _ :=
    readChunk_framed hbs hx himage.1 himage.2 hfile
  cases hcall : callFor fd hdrSz f st with
  | none =>
    rw [hcall] at hread
    refine .inl ?_
    cases hf : f.chunk with
    | raw n data => rw [callFor, hf] at hcall; cases hcall
    | fill n v => rw [callFor, hf] at hcall; cases hcall
    | dontCare n => exact ⟨n, rfl, hread⟩
    | crc32 w => rw [hf] at hc; exact hc.elim
  | some call =>
    rw [hcall] at hread
    exact .inr ⟨call, nodeOf_call hcall _, hread⟩

theorem totalBlocks_snoc (done : List Chunk) (c : Chunk) :
    totalBlocks (done ++ [c]) = totalBlocks done + c.blocks.toNat := by
  simp [totalBlocks]

include h in
/-- A chunk that queues nothing only moves the reader on. -/
theorem Follows.skip {n : UInt32} (hn : f.chunk = .dontCare n)
    (hr : totalBlocks done + f.chunk.blocks.toNat < 2 ^ 32) :
    Follows file fd bs (done ++ [f.chunk]) (t.next bs.toNat f.chunk)
      (goOn hdrSz f st st.reader) := by
  have hcur := toNat_add_blocks (h.curBlock.symm ▸ hr)
  constructor
  case blockSize => exact h.blockSize
  case curBlock => rw [totalBlocks_snoc, ← h.curBlock]; exact hcur
  case decoded => rw [hn]; exact h.decoded.skip n
  case tracks =>
    change Tracks bs _ st.reader.s.list st.reader.fresh
      (st.reader.pos + (f.bytes hdrSz).length) (st.curBlock + f.chunk.blocks).toNat
    rw [hcur, hn]
    exact h.tracks.skip n (Nat.le_add_right _ _)

include hbs hhdr hx hc hfile h in
/-- A chunk that queues a node adds its blocks. -/
theorem Follows.add {call : AddCall}
    (hnode : NodeOf fd bs (st.reader.pos + hdrSz.toNat) st.reader.fresh st.curBlock f.chunk
      (call.bb st.reader.fresh)) (hr : totalBlocks done + f.chunk.blocks.toNat < 2 ^ 32)
    (hlive : freed = .trap → t.stale = false) (hbytes : (t.next bs.toNat f.chunk).bytes < 2 ^ 32) :
    ∃ r, st.reader.add freed call = .ok r ∧
      Follows file fd bs (done ++ [f.chunk]) (t.next bs.toNat f.chunk) (goOn hdrSz f st r) := by
  have hcur := toNat_add_blocks (h.curBlock.symm ▸ hr)
  have hlen := framed_length f hx
  have hnlen := node_len hc hnode hbytes
  have hraw : ∀ n data, f.chunk = .raw n data → st.reader.pos + hdrSz.toNat +
      (call.bb st.reader.fresh).len.toNat ≤ st.reader.pos + (f.bytes hdrSz).length := by
    intro n data hf
    rw [hnlen, hlen]
    rw [hf] at hc ⊢
    simp only [Chunk.blocks, Chunk.payload, hc.2.2.1]
    omega
  obtain ⟨bbl', hq, hsize, htr, hdesc⟩ := h.tracks.add (by omega) hnode hbs h.blockSize
    (documented_pos hc hnode) (h.curBlock.symm ▸ hr) hnlen
    (Nat.le_add_right _ _) hraw hlive hbytes
  refine ⟨{ st.reader with s := { st.reader.s with list := bbl' }, fresh := st.reader.fresh + 1 },
    ?_, ?_⟩
  · simp only [Reader.add, SparseFile.add, AddCall.run_eq, hq]
  constructor
  case blockSize => exact hsize
  case curBlock => rw [totalBlocks_snoc, ← h.curBlock]; exact hcur
  case tracks => rw [← hcur] at htr; exact htr
  case decoded =>
    refine h.decoded.add ?_ ?_ hdesc (node_decodes hnode hc hnlen (payload_of_framed hx hfile))
    · simp only [seg, hnode.block, h.curBlock]
    · simp only [seg, hnlen]
      rw [Nat.mul_comm]
      exact smul_ceilDiv (toNat_pos_of_ne hbs) _

include hbs hhdr hx hc hfile h in
theorem Follows.step (hr : totalBlocks done + f.chunk.blocks.toNat < 2 ^ 32)
    (hlive : f.chunk.adds = true → freed = .trap → t.stale = false)
    (hbytes : (t.next bs.toNat f.chunk).bytes < 2 ^ 32) :
    ∃ st', readChunk freed file fd hdrSz st = .ok st' ∧
      Follows file fd bs (done ++ [f.chunk]) (t.next bs.toNat f.chunk) st' := by
  rcases readChunk_documented hbs hx hc hfile h.blockSize with ⟨n, hn, hread⟩ | ⟨call, hnode, hread⟩
  · exact ⟨_, hread, h.skip hn hr⟩
  · obtain ⟨r, hadd, hfollows⟩ := h.add hbs hhdr hx hc hfile hnode hr (hlive hnode.adds) hbytes
    rw [hadd] at hread
    exact ⟨_, hread, hfollows⟩

/-! ### Where the reader goes wrong -/

/-- What an add call that returns does to the nodes. -/
theorem add_nodes {r r' : Reader} {call : AddCall} (h : r.add freed call = .ok r')
    (hlt : ∀ n ∈ r.s.list.dataBlocks, n.block < (call.bb r.fresh).block) :
    r'.s.blockSize = r.s.blockSize ∧ r'.s.list.dataBlocks =
      snocBb r.s.blockSize r.s.list.dataBlocks (call.bb r.fresh) := by
  simp only [Reader.add, SparseFile.add, AddCall.run_eq] at h
  cases hq : queueBb freed r.s.list (call.bb r.fresh) with
  | error e => rw [hq] at h; cases h
  | ok bbl =>
    rw [hq] at h
    obtain rfl := Except.ok.inj h
    refine ⟨queueBb_blockSize hq, ?_⟩
    rcases queueBb_inv hq with ⟨hs, rfl⟩ | ⟨c, hs, -, -, rfl⟩
    · simp [searchStop_nil hlt hs, snocBb]
    · obtain ⟨hn, hnil⟩ := searchStop_last hlt hs
      rw [hn, snocBb_append]
      simp only [hnil]
      rfl

/-- A reader in front of block `st.curBlock`, however it came there. -/
structure Loose (bs : UInt32) (st : ChunkLoop) : Prop where
  blockSize : st.reader.s.blockSize = bs
  below : Below bs st.reader.s.list.dataBlocks st.curBlock.toNat

theorem Loose.lt (h : Loose bs st) (hnode : NodeOf fd bs offset addr st.curBlock c newBb) :
    ∀ n ∈ st.reader.s.list.dataBlocks, n.block < newBb.block := by
  intro n hn
  rw [hnode.block]
  exact UInt32.lt_iff_toNat_lt.mpr (h.below n hn).1

theorem node_len_le (hnode : NodeOf fd bs offset addr cur c newBb) :
    newBb.len.toNat ≤ c.blocks.toNat * bs.toNat := by
  rw [hnode.len, UInt32.toNat_mul]
  exact Nat.mod_le _ _

include hbs hx hc hfile in
/-- A chunk that is read does not make a block before it whole. -/
theorem Loose.step (h : Loose bs st)
    (hr : st.curBlock.toNat + f.chunk.blocks.toNat < 2 ^ 32)
    (hread : readChunk freed file fd hdrSz st = .ok st') :
    Loose bs st' ∧ st'.reader.pos = st.reader.pos + (f.bytes hdrSz).length ∧
      st'.curBlock.toNat = st.curBlock.toNat + f.chunk.blocks.toNat ∧
      ∀ k < st.curBlock.toNat, Whole bs st'.reader.s.list.dataBlocks k →
        Whole bs st.reader.s.list.dataBlocks k := by
  have hcur := toNat_add_blocks hr
  rcases readChunk_documented hbs hx hc hfile h.blockSize with ⟨n, -, hok⟩ | ⟨call, hnode, hok⟩
  · obtain rfl := Except.ok.inj (hok.symm.trans hread)
    refine ⟨⟨h.blockSize, ?_⟩, rfl, hcur, fun k _ hw => hw⟩
    change Below bs _ (st.curBlock + f.chunk.blocks).toNat
    rw [hcur]
    exact below_mono h.below (Nat.le_add_right _ _)
  · rw [hok] at hread
    cases hadd : st.reader.add freed call with
    | error e => rw [hadd] at hread; cases hread
    | ok r =>
      rw [hadd] at hread
      obtain rfl := Except.ok.inj hread
      obtain ⟨hsize, hnodes⟩ := add_nodes hadd (h.lt hnode)
      rw [h.blockSize] at hsize hnodes
      have hb : Below bs st.reader.s.list.dataBlocks (call.bb st.reader.fresh).block.toNat := by
        rw [hnode.block]
        exact h.below
      refine ⟨⟨hsize, ?_⟩, rfl, hcur, ?_⟩
      · change Below bs r.s.list.dataBlocks (st.curBlock + f.chunk.blocks).toNat
        rw [hcur, hnodes, ← hnode.block]
        exact below_snoc (toNat_pos_of_ne hbs) hb (documented_pos hc hnode) (node_len_le hnode)
      · intro k hk hw
        change Whole bs r.s.list.dataBlocks k at hw
        rw [hnodes] at hw
        exact whole_of_snoc hb (hnode.block ▸ hk) hw

/-- The chunks behind a block do not make it whole. -/
theorem Loose.run (hbs : bs ≠ 0) :
    ∀ (fs : List Framed) {st : ChunkLoop}, Loose bs st →
      (∀ f ∈ fs, 12 + f.extra.length = hdrSz.toNat ∧ Documented hdrSz bs f.chunk) →
      file.drop st.reader.pos = fs.flatMap (Framed.bytes hdrSz) →
      st.curBlock.toNat + totalBlocks (fs.map Framed.chunk) < 2 ^ 32 →
      readChunks freed file fd hdrSz fs.length st = .ok st' →
      Loose bs st' ∧
        st'.curBlock.toNat = st.curBlock.toNat + totalBlocks (fs.map Framed.chunk) ∧
        ∀ k < st.curBlock.toNat, Whole bs st'.reader.s.list.dataBlocks k →
          Whole bs st.reader.s.list.dataBlocks k
  | [], st, h, _, _, _, hread => by
    obtain rfl := Except.ok.inj hread
    exact ⟨h, rfl, fun k _ hw => hw⟩
  | f :: fs, st, h, hfs, hfile, hr, hread => by
    obtain ⟨⟨hx, hc⟩, hfs⟩ := forall_mem_cons.mp hfs
    simp only [totalBlocks, map_cons, sum_cons] at hr ⊢
    obtain ⟨st1, hr1, hr2⟩ := readChunks_succ_inv fd hread
    obtain ⟨h1, hpos, hcur, hw⟩ := h.step hbs hx hc hfile (by omega) hr1
    obtain ⟨hl, hcur', hw'⟩ := Loose.run hbs fs h1 hfs (hpos ▸ drop_add_of_drop hfile rfl)
      (by simp only [totalBlocks]; omega) hr2
    simp only [totalBlocks] at hcur'
    refine ⟨hl, by omega, ?_⟩
    intro k hk hk'
    exact hw k hk (hw' k (by omega) hk')

theorem queueBb_trap {bbl : BackedBlockList} (hne : bbl.dataBlocks ≠ [])
    (hlt : ∀ n ∈ bbl.dataBlocks, n.block < newBb.block) (hv : ¬ LastUsed.Valid bbl) :
    queueBb .trap bbl newBb = .error .useAfterFree := by
  obtain ⟨a, ha, hno⟩ : ∃ a ∈ bbl.lastUsed, ∀ n ∈ bbl.dataBlocks, n.addr ≠ a := by
    simpa [LastUsed.Valid] using hv
  cases hl : bbl.dataBlocks with
  | nil => exact absurd hl hne
  | cons hd tl =>
    rw [hl] at hlt hno
    have hidx : (hd :: tl).findIdx (fun n => n.addr == a) = (hd :: tl).length := by
      apply findIdx_eq_length_of_false
      intro n hn
      simpa using hno n hn
    have hcursor : cursorAt (hd :: tl) ((hd :: tl).findIdx (fun n => n.addr == a)) = none := by
      rw [hidx, cursorAt, drop_length]
    have hused : bbl.lastUsed = some a := ha
    simp only [queueBb, searchStop, hl, if_neg (UInt32.lt_asymm (hlt hd (by simp))), searchStart,
      hused, hcursor]

include h in
theorem Follows.loose : Loose bs st := ⟨h.blockSize, h.tracks.below⟩

include h in
theorem Follows.tail_bytes : t.bytes < 2 ^ 32 := by
  have hends := h.tracks.ends
  cases hf : t.fill with
  | none => simp [Tail.bytes, hf]
  | some x =>
    obtain ⟨v, len⟩ := x
    rw [hf] at hends
    obtain ⟨last, -, -, rfl, -⟩ := hends
    simp only [Tail.bytes, hf]
    exact last.len.toNat_lt

include h in
/-- Only a fill makes a run too long. -/
theorem Follows.fill_of_wrap (hbad : 2 ^ 32 ≤ (t.next bs.toNat f.chunk).bytes) :
    ∃ n v, f.chunk = .fill n v := by
  have ht := h.tail_bytes
  cases hf : f.chunk with
  | raw n data => rw [hf] at hbad; simp [Tail.next, Tail.bytes] at hbad
  | fill n v => exact ⟨n, v, rfl⟩
  | dontCare n =>
    rw [hf] at hbad
    simp only [Tail.next] at hbad
    split at hbad
    · omega
    · simp [Tail.bytes] at hbad
  | crc32 w => rw [hf] at hbad; simp only [Tail.next] at hbad; omega

include hbs hhdr hx hc hfile h in
/-- The reader traps on the freed node, or the last block of the chunk is not whole. -/
theorem Follows.wrong (hbad : (f.chunk.adds = true → freed = .trap → t.stale = false) →
      2 ^ 32 ≤ (t.next bs.toNat f.chunk).bytes) (hread : readChunk freed file fd hdrSz st = .ok st') :
    ∃ n v, f.chunk = .fill n v ∧
      ¬ Whole bs st'.reader.s.list.dataBlocks (st.curBlock.toNat + n.toNat - 1) := by
  have hu := toNat_pos_of_ne hbs
  rcases readChunk_documented hbs hx hc hfile h.blockSize with ⟨n, hn, -⟩ | ⟨call, hnode, hok⟩
  · obtain ⟨n, v, hf⟩ := h.fill_of_wrap (hbad (fun ha => by rw [hn] at ha; cases ha))
    rw [hn] at hf
    cases hf
  · rw [hok] at hread
    have hlt := h.loose.lt hnode
    have hpos : st.reader.pos < st.reader.pos + hdrSz.toNat := by omega
    cases hadd : st.reader.add freed call with
    | error e => rw [hadd] at hread; cases hread
    | ok r =>
      rw [hadd] at hread
      obtain rfl := Except.ok.inj hread
      have hstale : f.chunk.adds = true → freed = .trap → t.stale = false := by
        rintro - rfl
        by_contra hs
        have hv := fun hv => hs (h.tracks.valid.mpr hv)
        have hne : st.reader.s.list.dataBlocks ≠ [] := by
          intro hnil
          apply hv
          intro a ha
          rw [h.tracks.empty hnil] at ha
          cases ha
        simp only [Reader.add, SparseFile.add, AddCall.run_eq, queueBb_trap hne hlt hv] at hadd
        cases hadd
      have hbytes := hbad hstale
      obtain ⟨n, v, hf⟩ := h.fill_of_wrap hbytes
      refine ⟨n, v, hf, ?_⟩
      obtain ⟨-, hnodes⟩ := add_nodes hadd hlt
      change ¬ Whole bs r.s.list.dataBlocks _
      rw [hnodes, h.blockSize, ← hnode.block]
      rw [hf] at hnode hc hbytes
      have hlen := hnode.len
      simp only [Tail.next] at hbytes
      refine not_whole_snoc (hnode.block ▸ h.tracks.below) (toNat_pos_of_ne hc.1) ?_ ?_
      · intro hno
        have hmerges : t.merges (.fill n v) = false := by
          cases hl : st.reader.s.list.dataBlocks.getLast? with
          | none => exact h.tracks.merges_of_nil hl _
          | some last =>
            rw [← h.tracks.mergeable_eq hpos hnode hl]
            exact hno last hl
        simp only [hmerges, Bool.false_eq_true, if_false, Nat.zero_add, Tail.bytes] at hbytes
        rw [Nat.div_lt_iff_lt_mul hu]
        exact (UInt32.toNat_lt _).trans_le hbytes
      · intro last hl hm
        obtain ⟨n', v', he, -, hfill, -⟩ := h.tracks.run_of_mergeable hpos hnode hl hm
        obtain ⟨rfl, rfl⟩ := Chunk.fill.inj he
        have hmerges := (h.tracks.mergeable_eq hpos hnode hl).symm.trans hm
        have hdvd := h.tracks.dvd last (mem_of_getLast? hl)
        simp only [hmerges, if_true, Tail.bytes, hfill] at hbytes
        rw [Nat.div_lt_iff_lt_mul hu, Nat.add_mul, Nat.div_mul_cancel hdvd]
        exact (UInt32.toNat_lt _).trans_le hbytes

/-- The chunks are decoded exactly if each of them can be. -/
theorem Follows.run_iff (hbs : bs ≠ 0) (hhdr : 12 ≤ hdrSz.toNat) :
    ∀ (fs : List Framed) {done : List Chunk} {t : Tail} {st : ChunkLoop},
      Follows file fd bs done t st →
      (∀ f ∈ fs, 12 + f.extra.length = hdrSz.toNat ∧ Documented hdrSz bs f.chunk) →
      file.drop st.reader.pos = fs.flatMap (Framed.bytes hdrSz) →
      totalBlocks (done ++ fs.map Framed.chunk) < 2 ^ 32 →
      ((∃ st', readChunks freed file fd hdrSz fs.length st = .ok st' ∧
          Decoded file fd bs (done ++ fs.map Framed.chunk) st'.reader.s.list.dataBlocks) ↔
        Decodable freed bs.toNat t (fs.map Framed.chunk))
  | [], done, t, st, h, _, _, _ => by
    refine iff_of_true ⟨st, rfl, ?_⟩ trivial
    rw [List.map_nil, List.append_nil]
    exact h.decoded
  | f :: fs, done, t, st, h, hfs, hfile, hr => by
    obtain ⟨⟨hx, hc⟩, hfs⟩ := forall_mem_cons.mp hfs
    have hsplit : done ++ (f :: fs).map Framed.chunk =
        (done ++ [f.chunk]) ++ fs.map Framed.chunk := by simp
    have hr1 : totalBlocks done + f.chunk.blocks.toNat < 2 ^ 32 := by
      simp only [totalBlocks, map_append, sum_append, map_cons,
        sum_cons] at hr ⊢
      omega
    by_cases hok : (f.chunk.adds = true → freed = .trap → t.stale = false) ∧
        (t.next bs.toNat f.chunk).bytes < 2 ^ 32
    · obtain ⟨st1, hread, h1⟩ := h.step hbs hhdr hx hc hfile hr1 hok.1 hok.2
      obtain ⟨-, hpos, -, -⟩ := h.loose.step hbs hx hc hfile (h.curBlock.symm ▸ hr1) hread
      have hih := Follows.run_iff hbs hhdr fs h1 hfs (hpos ▸ drop_add_of_drop hfile rfl) (hsplit ▸ hr)
      rw [length_cons, readChunks_succ fd hread, hsplit, hih, map_cons]
      exact ⟨fun hd => ⟨hok.1, hok.2, hd⟩, fun hd => hd.2.2⟩
    · refine iff_of_false ?_ (fun hd => hok ⟨hd.1, hd.2.1⟩)
      rintro ⟨st', hread, hdec⟩
      obtain ⟨st1, hread1, hread2⟩ := readChunks_succ_inv fd hread
      obtain ⟨hl1, hpos, hcur, -⟩ :=
        h.loose.step hbs hx hc hfile (h.curBlock.symm ▸ hr1) hread1
      obtain ⟨n, v, hf, hno⟩ := h.wrong hbs hhdr hx hc hfile
        (fun hs => not_lt.mp fun hb => hok ⟨hs, hb⟩) hread1
      have hn : 0 < n.toNat := by
        rw [hf] at hc
        exact toNat_pos_of_ne hc.1
      have hblocks : f.chunk.blocks = n := by rw [hf]; rfl
      rw [hblocks] at hcur
      have hrun := (Loose.run hbs fs hl1 hfs (hpos ▸ drop_add_of_drop hfile rfl) (by
          rw [hcur, h.curBlock]
          rw [hsplit, totalBlocks_append, totalBlocks_append] at hr
          have : totalBlocks [f.chunk] = n.toNat := by simp [totalBlocks, hblocks]
          omega) hread2).2.2
      obtain ⟨w, hw, hdata⟩ := hdec.carried (st.curBlock.toNat + n.toNat - 1) (.fill v) (by
        rw [blockAt_of_le _ (by rw [h.curBlock]; omega), map_cons, blockAt, hblocks,
          if_pos (by rw [h.curBlock]; omega), hf]
        rfl)
      have hlen : w.len = bs.toNat := by
        by_contra hne
        rw [dataOf, if_pos hne] at hdata
        cases hdata
      exact hno (hrun _ (by omega) (whole_of_describes (toNat_pos_of_ne hbs) hw hlen))

end Streams

/-! ## Importing -/

section Import

variable {h : SparseHeader} {extra : List UInt8} {fs : List Framed}

theorem InFormat.accepted (hs : InFormat h extra fs) : h.accepted = true := by
  have h1 := hs.fileHdrSz
  have h2 := hs.chunkHdrSz
  simp only [SparseHeader.accepted, hs.magic, hs.majorVersion, sparseHeaderLen, chunkHeaderLen,
    beq_self_eq_true, Bool.true_and, Bool.and_eq_true]
  exact ⟨decide_eq_true (by omega), decide_eq_true h2⟩

/-- Before the first chunk nothing is decoded. -/
theorem firstChunk_follows (h : SparseHeader) (n : Nat) (file : List UInt8) (fd : Int)
    (crc : Bool) : Follows file fd h.blkSz [] ⟨none, false⟩ (firstChunk h n crc) := by
  constructor
  case blockSize => rfl
  case curBlock => rfl
  case decoded =>
    constructor
    · intro k d hk
      cases hk
    · intro k v hv
      exact absurd hv (describes_nil _ k v)
  case tracks =>
    have hno : ∀ {P : BackedBlock → Prop}, ∀ m ∈ (firstChunk h n crc).reader.s.list.dataBlocks, P m := by
      intro P m hm
      cases hm
    constructor
    case ordered => exact ⟨.nil, hno, hno⟩
    case addrs => exact hno
    case below => exact hno
    case dvd => exact hno
    case behind => exact hno
    case valid => exact iff_of_true rfl (fun a ha => by cases ha)
    case empty => exact fun _ => rfl
    case ends => intro last hl; cases hl

/-- A stream in the documented format is imported, and every block of the file is what
the format says, exactly if no run of equal fills that meet comes to `2^32` bytes and,
where a read of freed memory traps, no raw or fill chunk follows a merged one. -/
theorem import_decodes_iff (freed : FreedRead) (fd : Int) (crc : Bool)
    (hs : InFormat h extra fs) :
    (∃ s, sparseFileImport freed (streamBytes h extra fs) fd 0 crc = .ok (some s) ∧
        s.blockSize = h.blkSz ∧
        Decoded (streamBytes h extra fs) fd h.blkSz (fs.map Framed.chunk) s.list.dataBlocks) ↔
      Decodable freed h.blkSz.toNat ⟨none, false⟩ (fs.map Framed.chunk) := by
  have hfile : (streamBytes h extra fs).drop (firstChunk h extra.length crc).reader.pos =
      fs.flatMap (Framed.bytes h.chunkHdrSz) := by
    rw [streamBytes, firstChunk, ← drop_drop, drop_left' (SparseHeader.bytes_length h),
      drop_left' rfl]
  have hbound : (firstChunk h extra.length crc).curBlock.toNat + totalBlocks (fs.map Framed.chunk) < 2 ^ 32 := by
    rw [← hs.totalBlks]
    exact (Nat.zero_add _).symm ▸ h.totalBlks.toNat_lt
  have hfollows := firstChunk_follows h extra.length (streamBytes h extra fs) fd crc
  have hfs := fun f hf => And.intro (hs.extras f hf) (hs.chunks f hf)
  have hiff := @Follows.run_iff freed _ _ _ _ hs.blkSz_ne hs.chunkHdrSz fs _ _ _ hfollows hfs
    hfile (by rw [nil_append, ← hs.totalBlks]; exact h.totalBlks.toNat_lt)
  rw [← hiff, streamBytes, sparseFileImport_eq freed hs.accepted hs.fileHdrSz, hs.totalChunks,
    ← streamBytes]
  cases hread : readChunks freed (streamBytes h extra fs) fd h.chunkHdrSz fs.length
      (firstChunk h extra.length crc) with
  | error e =>
    refine iff_of_false ?_ ?_
    · rintro ⟨s, hs, -⟩
      cases e <;> cases hs
    · rintro ⟨st', hst, -⟩
      cases hst
  | ok st =>
    obtain ⟨hloose, hcur, -⟩ :=
      Loose.run hs.blkSz_ne fs hfollows.loose hfs hfile hbound hread
    have htotal : h.totalBlks = st.curBlock := by
      apply UInt32.toNat_inj.mp
      rw [hcur, hs.totalBlks]
      exact (Nat.zero_add _).symm
    simp only [htotal, ne_eq, not_true_eq_false, if_false, nullOnErr]
    constructor
    · rintro ⟨s, hs, -, hdec⟩
      obtain rfl := Option.some.inj (Except.ok.inj hs)
      exact ⟨st, rfl, hdec⟩
    · rintro ⟨st', hst, hdec⟩
      obtain rfl := Except.ok.inj hst
      exact ⟨_, rfl, hloose.blockSize, hdec⟩

end Import

/-- The header of a stream of the first revision of the format. -/
def firstRevision (blkSz totalBlks totalChunks : UInt32) : SparseHeader :=
  ⟨sparseHeaderMagic, sparseHeaderMajorVer, 0, 28, 12, blkSz, totalBlks, totalChunks, 0⟩

theorem inFormat_firstRevision {blkSz totalBlks totalChunks : UInt32} {cs : List Chunk}
    (hne : blkSz ≠ 0) (hdvd : 4 ∣ blkSz.toNat) (hchunks : totalChunks.toNat = cs.length)
    (hblks : totalBlks.toNat = totalBlocks cs) (hcs : ∀ c ∈ cs, Documented 12 blkSz c) :
    InFormat (firstRevision blkSz totalBlks totalChunks) [] (cs.map (⟨·, 0, []⟩)) := by
  have hback : (cs.map (⟨·, 0, []⟩)).map Framed.chunk = cs := by
    rw [map_map]
    exact map_id cs
  constructor
  case magic => rfl
  case majorVersion => rfl
  case fileHdrSz => rfl
  case chunkHdrSz => exact Nat.le_refl 12
  case blkSz_ne => exact hne
  case blkSz_dvd => exact hdvd
  case totalChunks => rw [length_map]; exact hchunks
  case totalBlks => rw [hback]; exact hblks
  case extras =>
    intro f hf
    obtain ⟨c, -, rfl⟩ := mem_map.mp hf
    rfl
  case chunks =>
    intro f hf
    obtain ⟨c, hc, rfl⟩ := mem_map.mp hf
    exact hcs c hc

/-- A raw block, two blocks of fills that are merged, and a block that is left out. -/
theorem import_decodes_four_chunks :
    InFormat (firstRevision 4 4 4) []
      ([Chunk.raw 1 [1, 2, 3, 4], .fill 1 7, .fill 1 7, .dontCare 1].map (⟨·, 0, []⟩)) ∧
    ∃ s, sparseFileImport .trap (streamBytes (firstRevision 4 4 4) []
        ([Chunk.raw 1 [1, 2, 3, 4], .fill 1 7, .fill 1 7, .dontCare 1].map (⟨·, 0, []⟩))) 3 0 true =
          .ok (some s) ∧ s.blockSize = 4 ∧
      Decoded (streamBytes (firstRevision 4 4 4) []
        ([Chunk.raw 1 [1, 2, 3, 4], .fill 1 7, .fill 1 7, .dontCare 1].map (⟨·, 0, []⟩))) 3 4
        [Chunk.raw 1 [1, 2, 3, 4], .fill 1 7, .fill 1 7, .dontCare 1] s.list.dataBlocks := by
  have hs : InFormat (firstRevision 4 4 4) []
      ([Chunk.raw 1 [1, 2, 3, 4], .fill 1 7, .fill 1 7, .dontCare 1].map (⟨·, 0, []⟩)) := by
    refine inFormat_firstRevision (by decide) (by decide) rfl (by decide) ?_
    intro c hc
    simp only [mem_cons, not_mem_nil, or_false] at hc
    rcases hc with rfl | rfl | rfl | rfl
    · exact ⟨by decide, by decide, rfl, by decide⟩
    · exact ⟨by decide, by decide⟩
    · exact ⟨by decide, by decide⟩
    · exact (by decide : (1 : UInt32).toNat < 2 ^ 31)
  refine ⟨hs, (import_decodes_iff .trap 3 true hs).mpr ?_⟩
  refine ⟨fun _ _ => rfl, by decide, ?_⟩
  refine ⟨fun _ _ => rfl, by decide, ?_⟩
  refine ⟨fun _ _ => rfl, by decide, ?_⟩
  exact ⟨fun ha => Bool.noConfusion ha, by decide, trivial⟩

/-- A fill of `2^20` blocks of 4096 bytes leaves a node without any. -/
theorem import_loses_long_fill :
    ¬ ∀ (freed : FreedRead) (fd : Int) (crc : Bool) (h : SparseHeader) (extra : List UInt8)
      (fs : List Framed), InFormat h extra fs →
      ∃ s, sparseFileImport freed (streamBytes h extra fs) fd 0 crc = .ok (some s) ∧
        s.blockSize = h.blkSz ∧
        Decoded (streamBytes h extra fs) fd h.blkSz (fs.map Framed.chunk) s.list.dataBlocks := by
  intro hall
  have hs : InFormat (firstRevision 4096 1048576 1) [] ([Chunk.fill 1048576 7].map (⟨·, 0, []⟩)) := by
    refine inFormat_firstRevision (by decide) (by decide) rfl (by decide) ?_
    intro c hc
    obtain rfl := mem_singleton.mp hc
    exact ⟨by decide, by decide⟩
  obtain ⟨s, hs, -, hdec⟩ := hall .trap 3 false _ _ _ hs
  have hnodes : s.list.dataBlocks = [⟨0, 0, 0, .fill 7⟩] := by
    have heval : sparseFileImport .trap (streamBytes (firstRevision 4096 1048576 1) []
        ([Chunk.fill 1048576 7].map (⟨·, 0, []⟩))) 3 0 false =
          .ok (some ⟨4294967296, [⟨0, 0, 0, .fill 7⟩], none, 4096⟩) := by decide +kernel
    rw [heval] at hs
    obtain rfl := Option.some.inj (Except.ok.inj hs)
    rfl
  obtain ⟨v, hv, -⟩ := hdec.carried 0 (.fill 7) (by decide +kernel)
  rw [hnodes] at hv
  simp only [describes_cons, describes_nil, or_false] at hv
  obtain ⟨⟨-, hlt⟩, -⟩ := hv
  revert hlt
  decide +kernel

end SystemCore.Libsparse.Decoding
