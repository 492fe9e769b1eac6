import SystemCore.Libsparse.Emission
import SystemCore.Libsparse.LastUsed

/-!
# What the reader makes of a chunk

One lemma for each kind of chunk says how `read_chunk` goes on when the bytes of that
chunk lie at the position of the reader: which node it adds, how far it moves, and what
it takes into the checksum. Chunks come in the order of their blocks, so a node is added
behind all the others.
-/
namespace SystemCore.Libsparse

open Lib.LittleEndian List Chunk

/-! ## Reading from a position -/

variable {file a rest : List UInt8}

theorem readAll_of_drop {pos : Nat} (h : file.drop pos = a ++ rest) :
    readAll file pos a.length = .ok (a, pos + a.length) := by
  unfold readAll
  rw [if_pos, h, take_left' rfl]
  have hl := congrArg List.length h
  rw [length_drop, length_append] at hl
  omega

theorem drop_add_of_drop {pos n : Nat} (h : file.drop pos = a ++ rest) (hn : a.length = n) :
    file.drop (pos + n) = rest := by
  rw [← drop_drop, h, drop_left' hn]

theorem readBytes_add (f : Nat → UInt8) (a b : Nat) :
    readBytes f (a + b) = readBytes f a ++ readBytes (fun i => f (a + i)) b := by
  simp only [readBytes, range_add, map_append, map_map]
  rfl

/-! ## The checksum loops -/

theorem copyBufSize_eq : copyBufSize = 1048576 := rfl

theorem rawCrcLoop_eq (fuel : Nat) :
    ∀ {data rest : List UInt8} {pos : Nat} (crc : UInt32), file.drop pos = data ++ rest →
      data.length ≤ fuel * copyBufSize →
      rawCrcLoop file fuel data.length pos crc =
        .ok (sparseCrc32 crc data, pos + data.length) := by
  induction fuel with
  | zero =>
    intro data rest pos crc _ hf
    rw [Nat.zero_mul, Nat.le_zero, length_eq_zero_iff] at hf
    rw [hf]
    simp [rawCrcLoop]
  | succ fuel ih =>
    intro data rest pos crc h hf
    unfold rawCrcLoop
    by_cases h0 : data.length = 0
    · rw [if_pos h0, h0, length_eq_zero_iff.mp h0]
      simp
    rw [if_neg h0]
    set k := min data.length copyBufSize with hk
    have hkl : (data.take k).length = k := by rw [length_take]; omega
    have hdl : (data.drop k).length = data.length - k := length_drop
    have hsplit : file.drop pos = data.take k ++ (data.drop k ++ rest) := by
      rw [h, ← append_assoc, take_append_drop]
    have hread := readAll_of_drop hsplit
    rw [hkl] at hread
    have hfuel : (data.drop k).length ≤ fuel * copyBufSize := by
      rw [copyBufSize_eq] at hk hf ⊢
      omega
    simp only [hread]
    rw [← hdl, ih _ (drop_add_of_drop hsplit hkl) hfuel, sparseCrc32_append,
      take_append_drop, hdl]
    congr 2
    omega

/-- The pieces of `copybuf` make up one run of its bytes when they repeat with it. -/
theorem copyCrcLoop_eq {copybuf : Nat → UInt8} (hper : ∀ i, copybuf (copyBufSize + i) = copybuf i)
    (fuel : Nat) : ∀ (n : Nat) (crc : UInt32), n ≤ fuel * copyBufSize →
      copyCrcLoop copybuf fuel n crc = .ok (sparseCrc32 crc (readBytes copybuf n)) := by
  induction fuel with
  | zero =>
    intro n crc hf
    rw [Nat.zero_mul, Nat.le_zero] at hf
    rw [hf]
    simp [copyCrcLoop, readBytes]
  | succ fuel ih =>
    intro n crc hf
    unfold copyCrcLoop
    by_cases h0 : n = 0
    · rw [h0]
      simp [readBytes]
    rw [if_neg (by omega), if_neg (by omega)]
    rcases Nat.lt_or_ge n copyBufSize with hlt | hge
    · have hmin : min (n : Int) copyBufSize = n := by omega
      simp only [hmin, Int.toNat_natCast]
      have := ih 0 (sparseCrc32 crc (readBytes copybuf n)) (Nat.zero_le _)
      simpa [readBytes] using this
    · have hmin : min (n : Int) copyBufSize = copyBufSize := by omega
      have hsub : (n : Int) - copyBufSize = ((n - copyBufSize : Nat) : Int) := by omega
      have hn : n = copyBufSize + (n - copyBufSize) := by omega
      have hper' : (fun i => copybuf (copyBufSize + i)) = copybuf := funext hper
      have hfuel : n - copyBufSize ≤ fuel * copyBufSize := by
        rw [copyBufSize_eq] at hf ⊢
        omega
      simp only [hmin, Int.toNat_natCast, hsub]
      rw [ih _ _ hfuel, sparseCrc32_append]
      conv_rhs => rw [hn, readBytes_add, hper']

theorem fillCopybuf_periodic (v : UInt32) (i : Nat) :
    fillCopybuf v (copyBufSize + i) = fillCopybuf v i := by
  unfold fillCopybuf
  rw [copyBufSize_eq, show (1048576 + i) % 4 = i % 4 by omega]

theorem toInt64_of_lt {n : Nat} (h : n < 2 ^ 63) : toInt64 n = n := by
  apply Int.bmod_eq_of_le
  · omega
  · push_cast
    omega

theorem sumCopybuf_eq (r : Reader) {copybuf : Nat → UInt8}
    (hper : ∀ i, copybuf (copyBufSize + i) = copybuf i) (n : Nat) :
    r.sumCopybuf copybuf n =
      .ok { r with crc := r.crc.map (sparseCrc32 · (readBytes copybuf n)) } := by
  unfold Reader.sumCopybuf
  cases hc : r.crc with
  | none =>
    simp only [Option.map_none]
    rw [← hc]
  | some crc =>
    have hfuel : n ≤ (((n : Int) / copyBufSize).toNat + 1) * copyBufSize := by
      rw [copyBufSize_eq]
      omega
    simp only [copyCrcLoop_eq hper _ n crc hfuel, Option.map_some]

/-! ## Adding behind all nodes -/

/-- The nodes after `new_bb` was queued behind all of them. -/
def snocBb (bs : UInt32) (nodes : List BackedBlock) (newBb : BackedBlock) : List BackedBlock :=
  match nodes.getLast? with
  | none => [newBb]
  | some last =>
    if mergeable bs last newBb then nodes.dropLast ++ [last.absorb newBb] else nodes ++ [newBb]

theorem snocBb_append (bs : UInt32) (before : List BackedBlock) (last newBb : BackedBlock) :
    snocBb bs (before ++ [last]) newBb = before ++ joinPrev bs last (newBb, []) := by
  simp only [snocBb, List.getLast?_append, List.getLast?_singleton, Option.some_or,
    dropLast_concat, joinPrev]
  split <;> simp

/-- A new node is merged into the last one, or it comes behind all of them. -/
theorem snocBb_cases (bs : UInt32) (nodes : List BackedBlock) (newBb : BackedBlock) :
    (∃ before last, nodes = before ++ [last] ∧ mergeable bs last newBb = true ∧
      snocBb bs nodes newBb = before ++ [last.absorb newBb]) ∨
    (∀ last ∈ nodes.getLast?, mergeable bs last newBb = false) ∧
      snocBb bs nodes newBb = nodes ++ [newBb] := by
  rcases eq_nil_or_concat' nodes with rfl | ⟨before, last, rfl⟩
  · exact .inr ⟨by simp, rfl⟩
  rw [snocBb_append, joinPrev]
  cases hm : mergeable bs last newBb with
  | true => exact .inl ⟨before, last, rfl, hm, rfl⟩
  | false => exact .inr ⟨by simpa using hm, by simp⟩

variable {newBb : BackedBlock} {freed : FreedRead} {bbl : BackedBlockList} {st : ChunkLoop}
  {c : Chunk} {nodes : List BackedBlock} {r : Reader} {bs : UInt32} {fd : Int}

/-- What holds of the nodes, of the new one and of what it is merged into. -/
theorem forall_snocBb {P : BackedBlock → Prop} (hn : ∀ bb ∈ nodes, P bb) (hnew : P newBb)
    (hmerge : ∀ last ∈ nodes.getLast?, mergeable bs last newBb = true → P (last.absorb newBb)) :
    ∀ bb ∈ snocBb bs nodes newBb, P bb := by
  rcases snocBb_cases bs nodes newBb with ⟨before, last, rfl, hm, h⟩ | ⟨-, h⟩
  · rw [h, forall_mem_append, forall_mem_singleton]
    exact ⟨fun bb hb => hn bb (mem_append_left _ hb), hmerge last (by simp) hm⟩
  · rw [h, forall_mem_append, forall_mem_singleton]
    exact ⟨hn, hnew⟩

/-- Adding keeps every block number but that of the new node. -/
theorem mem_snocBb {n : BackedBlock} (h : n ∈ snocBb bs nodes newBb) :
    n.block = newBb.block ∨ ∃ m ∈ nodes, m.block = n.block :=
  forall_snocBb (P := fun n => n.block = newBb.block ∨ ∃ m ∈ nodes, m.block = n.block)
    (fun m hm => .inr ⟨m, hm, rfl⟩) (.inl rfl)
    (fun m hm _ => .inr ⟨m, mem_of_getLast? hm, rfl⟩) n h

/-- A search ends at the last node when the new one is higher than all of them. -/
theorem searchStop_last (hlt : ∀ n ∈ bbl.dataBlocks, n.block < newBb.block) {c : Cursor}
    (h : searchStop freed bbl newBb = .ok (some c)) : bbl.dataBlocks = c.before ++ [c.bb] ∧
      c.next = [] := by
  obtain ⟨hn, hnext, -⟩ := searchStop_spec h
  have hnil : c.next = [] := by
    cases hl : c.next with
    | nil => rfl
    | cons n l =>
      rw [hl] at hnext
      exact absurd (hlt n (by rw [← hn, Cursor.nodes, hl]; simp)) (hnext n rfl)
  exact ⟨by rw [← hn, Cursor.nodes, hnil], hnil⟩

theorem searchStop_nil (hlt : ∀ n ∈ bbl.dataBlocks, n.block < newBb.block)
    (h : searchStop freed bbl newBb = .ok none) : bbl.dataBlocks = [] := by
  cases hl : bbl.dataBlocks with
  | nil => rfl
  | cons n l =>
    have hn : n ∈ bbl.dataBlocks := by rw [hl]; exact mem_cons_self
    exact absurd (searchStop_none h n (by rw [hl]; rfl)) (UInt32.lt_asymm (hlt n hn))

/-- Queueing from a live node adds behind all nodes when the new one is higher. -/
theorem queueBb_last (hlive : freed = .trap → LastUsed.Valid bbl) (hbs : bbl.blockSize ≠ 0) (hlt : ∀ n ∈ bbl.dataBlocks, n.block < newBb.block) :
    queueBb freed bbl newBb = .ok { bbl with
      dataBlocks := snocBb bbl.blockSize bbl.dataBlocks newBb
      lastUsed := if bbl.dataBlocks = [] then bbl.lastUsed else some newBb.addr } := by
  obtain ⟨o, ho⟩ := searchStop_ok newBb (.inr hlive)
  cases o with
  | none =>
    have hnil := searchStop_nil hlt ho
    rw [queueBb_front ho, if_pos hnil, hnil]
    rfl
  | some c =>
    obtain ⟨hn, hnil⟩ := searchStop_last hlt ho
    have hbb : c.bb.block < newBb.block := hlt c.bb (by rw [hn]; simp)
    rw [queueBb_behind ho hbs hbb (by rw [hnil]; simp), if_neg (by rw [hn]; simp), hn, hnil,
      snocBb_append]
    rfl

def Reader.snoc (r : Reader) (c : AddCall) (lastUsed : Option Nat) : Reader :=
  { r with
    s := { r.s with list := { r.s.list with
      dataBlocks := snocBb r.s.blockSize r.s.list.dataBlocks (c.bb r.fresh)
      lastUsed := lastUsed } }
    fresh := r.fresh + 1 }

theorem add_last {c : AddCall} (hlive : freed = .trap → LastUsed.Valid r.s.list) (hbs : r.s.blockSize ≠ 0) (hlt : ∀ n ∈ r.s.list.dataBlocks, n.block < (c.bb r.fresh).block) :
    r.add freed c = .ok (r.snoc c
      (if r.s.list.dataBlocks = [] then r.s.list.lastUsed else some r.fresh)) := by
  simp only [Reader.add, SparseFile.add, AddCall.run_eq, queueBb_last hlive hbs hlt,
    AddCall.bb_addr]
  rfl

theorem add_snoc (pick : List BackedBlock → BackedBlock → Nat) {c : AddCall}
    (hbs : r.s.blockSize ≠ 0) (hlt : ∀ n ∈ r.s.list.dataBlocks, n.block < (c.bb r.fresh).block) :
    ∃ lastUsed, r.add (.live pick) c = .ok (r.snoc c lastUsed) :=
  ⟨_, add_last (by simp) hbs hlt⟩

/-! ## One chunk -/

/-- The call that the reader makes for a chunk whose payload lies at `pos`. -/
def Chunk.call (fd : Int) (bs : UInt32) (pos : Nat) (curBlock : UInt32) : Chunk → Option AddCall
  | .raw n _ => some (.fd fd pos (n * bs) curBlock)
  | .fill n v => some (.fill v (n * bs) curBlock)
  | .dontCare _ => none
  | .crc32 _ => none

def Chunk.adds : Chunk → Bool
  | .raw _ _ => true
  | .fill _ _ => true
  | .dontCare _ => false
  | .crc32 _ => false

theorem Chunk.call_isSome (fd : Int) (bs : UInt32) (pos : Nat) (curBlock : UInt32) (c : Chunk) :
    (c.call fd bs pos curBlock).isSome = c.adds := by
  cases c <;> rfl

/-- The node that the reader queues for chunk `c` at address `addr`. -/
structure NodeOf (fd : Int) (bs : UInt32) (offset addr : Nat) (cur : UInt32) (c : Chunk)
    (bb : BackedBlock) : Prop where
  addr : bb.addr = addr
  block : bb.block = cur
  len : bb.len = c.blocks * bs
  backing : (∃ n data, c = .raw n data ∧ bb.backing = .fd fd offset) ∨
    ∃ n v, c = .fill n v ∧ bb.backing = .fill v

theorem NodeOf.adds {offset addr : Nat} {cur : UInt32} {bb : BackedBlock}
    (h : NodeOf fd bs offset addr cur c bb) : c.adds = true := by
  rcases h.backing with ⟨_, _, rfl, -⟩ | ⟨_, _, rfl, -⟩ <;> rfl

theorem nodeOf_call {offset : Nat} {cur : UInt32} {call : AddCall}
    (h : c.call fd bs offset cur = some call) (addr : Nat) :
    NodeOf fd bs offset addr cur c (call.bb addr) := by
  cases c with
  | raw n data =>
    obtain rfl := Option.some.inj h
    exact ⟨rfl, rfl, rfl, Or.inl ⟨n, data, rfl, rfl⟩⟩
  | fill n v =>
    obtain rfl := Option.some.inj h
    exact ⟨rfl, rfl, rfl, Or.inr ⟨n, v, rfl, rfl⟩⟩
  | dontCare n => cases h
  | crc32 w => cases h

/-- The node goes together with an older one only if both are fills of one value: data that was
read before ends in front of it. -/
theorem NodeOf.fill_of_compatible {offset addr : Nat} {cur : UInt32} {bb last : BackedBlock}
    (h : NodeOf fd bs offset addr cur c bb)
    (hlast : ∀ d o, last.backing = .fd d o → o + last.len.toNat < offset)
    (hc : compatible last bb = true) : ∃ n v, c = .fill n v ∧ last.backing = .fill v := by
  unfold compatible at hc
  rcases h.backing with ⟨n, data, -, hb⟩ | ⟨n, v, rfl, hb⟩
  · rw [hb] at hc
    cases hl : last.backing with
    | fd d o =>
      have := hlast d o hl
      simp only [hl, Bool.and_eq_true, beq_iff_eq] at hc
      omega
    | data p => simp [hl] at hc
    | file p path o => simp [hl] at hc
    | fill v => simp [hl] at hc
  · rw [hb] at hc
    cases hl : last.backing with
    | fill w =>
      simp only [hl, beq_iff_eq] at hc
      exact ⟨n, v, rfl, by rw [hc]⟩
    | data p => simp [hl] at hc
    | file p path o => simp [hl] at hc
    | fd d o => simp [hl] at hc

/-- The step of the reader over a chunk of the image. -/
structure ReadsChunk (fd : Int) (c : Chunk) (st st' : ChunkLoop) : Prop where
  nodes : st'.reader.s.list.dataBlocks =
    match c.call fd st.reader.s.blockSize (st.reader.pos + 12) st.curBlock with
    | none => st.reader.s.list.dataBlocks
    | some call => snocBb st.reader.s.blockSize st.reader.s.list.dataBlocks
        (call.bb st.reader.fresh)
  lastUsed : st'.reader.s.list.lastUsed = if c.adds ∧ st.reader.s.list.dataBlocks ≠ [] then
    some st.reader.fresh else st.reader.s.list.lastUsed
  blockSize : st'.reader.s.blockSize = st.reader.s.blockSize
  len : st'.reader.s.len = st.reader.s.len
  pos : st'.reader.pos = st.reader.pos + c.bytes.length
  crc : st'.reader.crc =
    st.reader.crc.map (sparseCrc32 · (c.expand st.reader.s.blockSize.toNat))
  curBlock : st'.curBlock = st.curBlock + c.blocks

theorem ReadsChunk.node {st' : ChunkLoop} (h : ReadsChunk fd c st st') (hadds : c.adds = true) :
    ∃ bb, NodeOf fd st.reader.s.blockSize (st.reader.pos + 12) st.reader.fresh st.curBlock c bb ∧
      st'.reader.s.list.dataBlocks =
        snocBb st.reader.s.blockSize st.reader.s.list.dataBlocks bb := by
  have hnodes := h.nodes
  rw [← c.call_isSome fd st.reader.s.blockSize (st.reader.pos + 12) st.curBlock] at hadds
  obtain ⟨call, hcall⟩ := Option.isSome_iff_exists.mp hadds
  rw [hcall] at hnodes
  exact ⟨_, nodeOf_call hcall _, hnodes⟩

theorem ReadsChunk.same {st' : ChunkLoop} (h : ReadsChunk fd c st st') (hadds : c.adds = false) :
    st'.reader.s.list.dataBlocks = st.reader.s.list.dataBlocks := by
  have hnodes := h.nodes
  rw [← c.call_isSome fd st.reader.s.blockSize (st.reader.pos + 12) st.curBlock,
    Option.isSome_eq_false_iff, Option.isNone_iff_eq_none] at hadds
  rwa [hadds] at hnodes

theorem payloadSize (n : Nat) : (12 + UInt32.ofNat n) - (12 : UInt16).toUInt32 = UInt32.ofNat n := by
  change 12 + UInt32.ofNat n - 12 = UInt32.ofNat n
  rw [UInt32.add_comm, UInt32.add_sub_cancel]

/-- One turn of the loop with the header of `c` at the position of the reader. -/
theorem readChunk_eq (h : file.drop st.reader.pos = c.bytes ++ rest) :
    readChunk freed file fd 12 st =
      match processChunk freed file fd { st.reader with pos := st.reader.pos + 12 }
          (st.reader.pos + 12 : Nat) 12 c.header st.curBlock with
      | .error e => .error e
      | .ok (ret, r) =>
        if ret < 0 then .error (.err ret) else .ok ⟨r, st.curBlock + lowWord ret⟩ := by
  rw [bytes, append_assoc] at h
  have hread := readAll_of_drop h
  rw [ChunkHeader.bytes_length] at hread
  simp only [readChunk, chunkHeaderLen, hread, ChunkHeader.ofBytes_bytes]
  rfl

theorem toInt64_mul {n : UInt32} (hn : n.toNat < 2 ^ 31) :
    toInt64 (n.toNat * bs.toNat) = ((n.toNat * bs.toNat : Nat) : Int) := by
  have hlt : n.toNat * bs.toNat < 2 ^ 31 * 2 ^ 32 := Nat.mul_lt_mul'' hn bs.toNat_lt
  rw [← toInt64_of_lt (n := n.toNat * bs.toNat) (by omega)]
  push_cast
  rfl

theorem lowWord_mul (n bs : UInt32) : lowWord ((n.toNat * bs.toNat : Nat) : Int) = n * bs := by
  apply UInt32.toNat_inj.mp
  rw [lowWord_natCast, UInt32.toNat_mul]

/-- The branch of `process_chunk` that a chunk of the image takes. -/
theorem processChunk_header (freed : FreedRead) (file : List UInt8) (fd : Int) (r : Reader)
    (offset : Int) (c : Chunk) (curBlock : UInt32) :
    processChunk freed file fd r offset 12 c.header curBlock =
      match c with
      | .raw n data => returnBlocks c.blocks
          (processRawChunk freed file fd r (UInt32.ofNat data.length) offset n curBlock)
      | .fill n _ => returnBlocks c.blocks (processFillChunk freed file r 4 n curBlock)
      | .dontCare n => returnBlocks c.blocks (processSkipChunk r 0 n)
      | .crc32 _ =>
        match r.crc with
        | none => .error (.fault .nullDeref)
        | some crc =>
          match processCrc32Chunk file r 4 crc with
          | .error e => .error e
          | .ok r => .ok (0, r) := by
  cases c with
  | raw n data =>
    simp only [processChunk, header, type, payload, payloadSize]
    rw [if_pos trivial]
    rfl
  | fill n v =>
    simp only [processChunk, header, type, payload, payloadSize,
      wordBytes_length]
    rw [if_neg (by decide), if_pos trivial]
    rfl
  | dontCare n =>
    simp only [processChunk, header, type, payload, payloadSize]
    rw [if_neg (by decide), if_neg (by decide), if_pos trivial]
    rfl
  | crc32 w =>
    simp only [processChunk, header, type, payload, payloadSize,
      wordBytes_length]
    rw [if_neg (by decide), if_neg (by decide), if_neg (by decide), if_pos trivial]
    rfl

section OneChunk

variable {file rest : List UInt8} (fd : Int) {r : Reader} {n : UInt32}

theorem processChunk_dontCare (freed : FreedRead) (r : Reader) (offset : Int)
    (hn : n.toNat < 2 ^ 31) (curBlock : UInt32) :
    processChunk freed file fd r offset 12 (Chunk.dontCare n).header curBlock =
      .ok (toInt n, { r with
        crc := r.crc.map (sparseCrc32 · ((Chunk.dontCare n).expand r.s.blockSize.toNat)) }) := by
  have hs := @sumCopybuf_eq r (fun _ => 0) (fun _ => rfl) (n.toNat * r.s.blockSize.toNat)
  rw [← toInt64_mul hn, readBytes_const] at hs
  have hp : processSkipChunk r 0 n = .ok { r with
      crc := r.crc.map (sparseCrc32 · ((dontCare n).expand r.s.blockSize.toNat)) } := hs
  rw [processChunk_header]
  simp only [hp]
  rfl

theorem processChunk_fill (freed : FreedRead) {v : UInt32} (offset : Int) (hn : n.toNat < 2 ^ 31)
    (curBlock : UInt32) (h : file.drop r.pos = wordBytes v ++ rest) :
    processChunk freed file fd r offset 12 (Chunk.fill n v).header curBlock =
      match r.add freed (.fill v (n * r.s.blockSize) curBlock) with
      | .error e => .error e
      | .ok r' => .ok (toInt n, { r' with
          pos := r.pos + 4
          crc := r.crc.map (sparseCrc32 · ((Chunk.fill n v).expand r.s.blockSize.toNat)) }) := by
  have hread := readAll_of_drop h
  rw [wordBytes_length] at hread
  rw [processChunk_header]
  simp only [processFillChunk, hread, ofNat_ofBytes_wordBytes, toInt64_mul hn, lowWord_mul]
  simp only [Reader.add]
  cases hs : r.s.add freed r.fresh (.fill v (n * r.s.blockSize) curBlock) with
  | error e => rfl
  | ok s =>
    simp only [sumCopybuf_eq _ (fillCopybuf_periodic v)]
    rfl

theorem processChunk_raw (freed : FreedRead) {data : List UInt8} (hbs : r.s.blockSize ≠ 0)
    (offset : Int) (hdata : data.length = n.toNat * r.s.blockSize.toNat)
    (hsize : data.length < 2 ^ 32) (curBlock : UInt32) (h : file.drop r.pos = data ++ rest) :
    processChunk freed file fd r offset 12 (Chunk.raw n data).header curBlock =
      match r.add freed (.fd fd offset (n * r.s.blockSize) curBlock) with
      | .error e => .error e
      | .ok r' => .ok (toInt n, { r' with
          pos := r.pos + data.length
          crc := r.crc.map (sparseCrc32 · data) }) := by
  have hpos := toNat_pos_of_ne hbs
  have hlen : (n * r.s.blockSize).toNat = data.length := by
    rw [UInt32.toNat_mul, hdata]
    exact Nat.mod_eq_of_lt (hdata ▸ hsize)
  have hsz : UInt32.ofNat data.length = n * r.s.blockSize := by
    apply UInt32.toNat_inj.mp
    rw [hlen, UInt32.toNat_ofNat', Nat.mod_eq_of_lt hsize]
  have hmod : n * r.s.blockSize % r.s.blockSize = 0 := by
    apply UInt32.toNat_inj.mp
    rw [UInt32.toNat_mod, hlen, hdata, Nat.mul_mod_left]
    rfl
  have hdiv : n * r.s.blockSize / r.s.blockSize = n := by
    apply UInt32.toNat_inj.mp
    rw [UInt32.toNat_div, hlen, hdata, Nat.mul_div_cancel _ hpos]
  have hproc : processRawChunk freed file fd r (n * r.s.blockSize) offset n curBlock =
      match r.add freed (.fd fd offset (n * r.s.blockSize) curBlock) with
      | .error e => .error e
      | .ok r' => .ok { r' with
          pos := r.pos + data.length
          crc := r.crc.map (sparseCrc32 · data) } := by
    simp only [processRawChunk]
    rw [if_neg hbs, if_neg (not_not.mpr hmod), if_neg (not_not.mpr hdiv)]
    simp only [Reader.add]
    cases r.s.add freed r.fresh (.fd fd offset (n * r.s.blockSize) curBlock) with
    | error e => rfl
    | ok s =>
      cases hc : r.crc with
      | none => simp [hlen]
      | some crc =>
        have hloop := rawCrcLoop_eq (data.length / copyBufSize + 1) crc h (by
          rw [copyBufSize_eq]; omega)
        simp only [hlen, hloop, Option.map_some]
  rw [processChunk_header]
  simp only [hsz, hproc]
  cases r.add freed (.fd fd offset (n * r.s.blockSize) curBlock) with
  | error e => rfl
  | ok r' => rfl

/-- A chunk of the image, with as much raw data as its header says. -/
def Chunk.Image (bs : UInt32) : Chunk → Prop
  | .raw n data => data.length = n.toNat * bs.toNat ∧ data.length < 2 ^ 32
  | .fill _ _ => True
  | .dontCare _ => True
  | .crc32 _ => False

end OneChunk

namespace Decoding

/-- A chunk in a stream: its reserved field, and the bytes by which the chunk headers of
the stream are longer than `chunk_header_t`. -/
structure Framed where
  chunk : Chunk
  reserved1 : UInt16
  extra : List UInt8

def Framed.header (hdrSz : UInt16) (f : Framed) : ChunkHeader :=
  ⟨f.chunk.type, f.reserved1, f.chunk.blocks,
    hdrSz.toUInt32 + UInt32.ofNat f.chunk.payload.length⟩

def Framed.bytes (hdrSz : UInt16) (f : Framed) : List UInt8 :=
  (f.header hdrSz).bytes ++ (f.extra ++ f.chunk.payload)

variable {hdrSz : UInt16}

theorem framed_length (f : Framed) (hx : 12 + f.extra.length = hdrSz.toNat) :
    (f.bytes hdrSz).length = hdrSz.toNat + f.chunk.payload.length := by
  simp only [Framed.bytes, length_append, ChunkHeader.bytes_length]
  omega

/-- Only the size of the data that a header gives matters. -/
theorem processChunk_framed (r : Reader) (offset : Int) (f : Framed) (cur : UInt32) :
    processChunk freed file fd r offset hdrSz (f.header hdrSz) cur =
      processChunk freed file fd r offset 12 f.chunk.header cur := by
  have hsize : (f.header hdrSz).totalSz - hdrSz.toUInt32 =
      f.chunk.header.totalSz - (12 : UInt16).toUInt32 := by
    simp only [Framed.header, Chunk.header, payloadSize]
    rw [UInt32.add_comm, UInt32.add_sub_cancel]
  simp only [processChunk, hsize]
  rfl

/-- The loop behind a chunk, from the reader that has added its node. -/
def goOn (hdrSz : UInt16) (f : Framed) (st : ChunkLoop) (r : Reader) : ChunkLoop :=
  ⟨{ r with
      pos := st.reader.pos + (f.bytes hdrSz).length
      crc := st.reader.crc.map (sparseCrc32 · (f.chunk.expand st.reader.s.blockSize.toNat)) },
    st.curBlock + f.chunk.blocks⟩

def callFor (fd : Int) (hdrSz : UInt16) (f : Framed) (st : ChunkLoop) : Option AddCall :=
  f.chunk.call fd st.reader.s.blockSize (st.reader.pos + hdrSz.toNat) st.curBlock

/-- One turn of the loop: make the call, if the chunk needs one. -/
theorem readChunk_framed {f : Framed} {st : ChunkLoop} (hbs : st.reader.s.blockSize ≠ 0)
    (hx : 12 + f.extra.length = hdrSz.toNat)
    (hc : f.chunk.Image st.reader.s.blockSize) (hn : f.chunk.blocks.toNat < 2 ^ 31)
    (h : file.drop st.reader.pos = f.bytes hdrSz ++ rest) :
    readChunk freed file fd hdrSz st =
      match callFor fd hdrSz f st with
      | none => .ok (goOn hdrSz f st st.reader)
      | some call =>
        match st.reader.add freed call with
        | .error e => .error e
        | .ok r => .ok (goOn hdrSz f st r) := by
  obtain ⟨c, reserved1, extra⟩ := f
  have hlen : (Framed.bytes hdrSz _).length = _ := framed_length ⟨c, reserved1, extra⟩ hx
  rw [Framed.bytes, append_assoc, append_assoc] at h
  have hread := readAll_of_drop h
  rw [ChunkHeader.bytes_length] at hread
  have hpay : file.drop (st.reader.pos + hdrSz.toNat) = c.payload ++ rest := by
    rw [← hx, ← Nat.add_assoc]
    exact drop_add_of_drop (drop_add_of_drop h (ChunkHeader.bytes_length _)) rfl
  have hpos : st.reader.pos + 12 + (hdrSz.toNat - 12) = st.reader.pos + hdrSz.toNat := by omega
  simp only [readChunk, chunkHeaderLen, hread, ChunkHeader.ofBytes_bytes, hpos,
    processChunk_framed]
  have hblocks : ¬ toInt c.blocks < 0 ∧ lowWord (toInt c.blocks) = c.blocks := by
    rw [toInt_of_lt hn]
    exact ⟨by omega, lowWord_toNat_cast _⟩
  cases c with
  | raw n data =>
    have hp := processChunk_raw fd (r := { st.reader with pos := st.reader.pos + hdrSz.toNat })
      freed hbs (st.reader.pos + hdrSz.toNat : Nat) hc.1 hc.2 st.curBlock hpay
    simp only [Chunk.blocks] at hblocks
    simp only [hp, callFor, Chunk.call, Reader.add]
    cases st.reader.s.add freed st.reader.fresh _ with
    | error e => rfl
    | ok s =>
      simp only [hblocks.1, if_false, hblocks.2, goOn, hlen, Chunk.payload,
        Nat.add_assoc]
      rfl
  | fill n v =>
    have hp := processChunk_fill fd (r := { st.reader with pos := st.reader.pos + hdrSz.toNat })
      freed (n := n) (st.reader.pos + hdrSz.toNat : Nat) hn st.curBlock hpay
    simp only [Chunk.blocks] at hblocks
    simp only [hp, callFor, Chunk.call, Reader.add]
    cases st.reader.s.add freed st.reader.fresh _ with
    | error e => rfl
    | ok s =>
      simp only [hblocks.1, if_false, hblocks.2, goOn, hlen, Chunk.payload,
        wordBytes_length, Nat.add_assoc]
      rfl
  | dontCare n =>
    have hp := @processChunk_dontCare file fd n freed
      { st.reader with pos := st.reader.pos + hdrSz.toNat } (st.reader.pos + hdrSz.toNat : Nat)
      hn st.curBlock
    simp only [Chunk.blocks] at hblocks
    simp only [hp, hblocks.1, if_false, hblocks.2, callFor, Chunk.call, goOn, hlen,
      Chunk.payload, length_nil, Nat.add_zero]
    rfl
  | crc32 w => exact hc.elim

end Decoding

section OneChunk

variable {file rest : List UInt8} (fd : Int)

open Decoding in
/-- A chunk of less than `2^31` blocks is read, if it lies behind the nodes added so
far and the search for its place does not trap. -/
theorem readChunk_image (freed : FreedRead) (hbs : st.reader.s.blockSize ≠ 0)
    (hc : c.Image st.reader.s.blockSize) (hn : c.blocks.toNat < 2 ^ 31)
    (h : file.drop st.reader.pos = c.bytes ++ rest)
    (hlt : c.adds = true → ∀ bb ∈ st.reader.s.list.dataBlocks, bb.block < st.curBlock)
    (hlive : freed = .trap → LastUsed.Valid st.reader.s.list) :
    ∃ st', readChunk freed file fd 12 st = .ok st' ∧ ReadsChunk fd c st st' := by
  have hread : readChunk freed file fd 12 st = _ :=
    readChunk_framed (f := ⟨c, 0, []⟩) hbs rfl hc hn h
  have hadds := c.call_isSome fd st.reader.s.blockSize (st.reader.pos + 12) st.curBlock
  change _ = match c.call fd st.reader.s.blockSize (st.reader.pos + 12) st.curBlock with
    | none => _
    | some call => _ at hread
  cases hcall : c.call fd st.reader.s.blockSize (st.reader.pos + 12) st.curBlock with
  | none =>
    rw [hcall] at hread hadds
    refine ⟨_, hread, by rw [hcall]; rfl, ?_, rfl, rfl, rfl, rfl, rfl⟩
    rw [← hadds]
    rfl
  | some call =>
    rw [hcall] at hread hadds
    have hnode := nodeOf_call hcall st.reader.fresh
    have hadd := add_last (c := call) hlive hbs (hnode.block ▸ hlt hadds.symm)
    simp only [hadd] at hread
    refine ⟨_, hread, by rw [hcall]; rfl, ?_, rfl, rfl, rfl, rfl, rfl⟩
    rw [← hadds]
    by_cases hnil : st.reader.s.list.dataBlocks = [] <;> simp [hnil, goOn, Reader.snoc]

theorem readChunk_blocks_lt {st' : ChunkLoop} (h : file.drop st.reader.pos = c.bytes ++ rest)
    (hr : readChunk freed file fd 12 st = .ok st') : c.blocks.toNat < 2 ^ 31 := by
  by_contra hn
  have hneg : toInt c.blocks < 0 := toInt_neg_of_le (by omega)
  have hb : ∀ x : Except Stop Reader, (match returnBlocks c.blocks x with
      | .error e => .error e
      | .ok (ret, r) =>
          if ret < 0 then .error (.err ret) else .ok ⟨r, st.curBlock + lowWord ret⟩) ≠
        (.ok st' : Except Stop ChunkLoop) := by
    intro x
    cases x with
    | error e => simp [returnBlocks]
    | ok r => simp [returnBlocks, hneg]
  rw [readChunk_eq h, processChunk_header] at hr
  cases c with
  | raw n data => exact hb _ hr
  | fill n v => exact hb _ hr
  | dontCare n => exact hb _ hr
  | crc32 w =>
    apply hn
    change (0 : UInt32).toNat < 2 ^ 31
    decide

/-- The checksum chunk is accepted when it holds the checksum of the reader. -/
theorem readChunk_crc32 {freed : FreedRead} {st : ChunkLoop} {w crc : UInt32}
    (h : file.drop st.reader.pos = (Chunk.crc32 w).bytes ++ rest) (hcrc : st.reader.crc = some crc) :
    readChunk freed file fd 12 st = if w = crc then
        .ok ⟨{ st.reader with pos := st.reader.pos + 16 }, st.curBlock⟩
      else .error (.err (-einval)) := by
  have hpay : file.drop (st.reader.pos + 12) = wordBytes w ++ rest := by
    rw [bytes, append_assoc] at h
    exact drop_add_of_drop h (ChunkHeader.bytes_length _)
  have hread := readAll_of_drop hpay
  rw [wordBytes_length] at hread
  rw [readChunk_eq h, processChunk_header]
  simp only [hcrc, processCrc32Chunk, hread, ofNat_ofBytes_wordBytes]
  by_cases hw : w = crc
  · simp [hw, lowWord]
  · simp [hw]

end OneChunk

end SystemCore.Libsparse
