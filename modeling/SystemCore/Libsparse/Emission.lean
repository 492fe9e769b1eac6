import SystemCore.Libsparse.Content
import SystemCore.Libsparse.Stream

/-!
# What the sparse writer puts into a file

`chunksOf` lists the chunks of a sparse file in terms of its block list. A write that
reports no error leaves the header and the bytes of these chunks in the file, and the
checksum in the last of them is the one of `summedOf`.
-/
namespace SystemCore.Libsparse

open Lib.CeilDiv

/-! ## Appending to a file -/

def FileDev.AtEnd (f : FileDev) : Prop := f.pos = f.bytes.length

def FileDev.append (f : FileDev) (l : List UInt8) : FileDev := ⟨f.bytes ++ l, f.pos + l.length⟩

variable {skipLen : Int} {f : FileDev}

theorem FileDev.AtEnd.append (hf : f.AtEnd) (l : List UInt8) : (f.append l).AtEnd := by
  change f.pos + l.length = (f.bytes ++ l).length
  rw [hf, List.length_append]

@[simp] theorem FileDev.append_nil (f : FileDev) : f.append [] = f := by
  simp [FileDev.append]

theorem FileDev.append_append (f : FileDev) (a b : List UInt8) :
    (f.append a).append b = f.append (a ++ b) := by
  simp [FileDev.append, Nat.add_assoc]

@[simp] theorem readBytes_length (data : Nat → UInt8) (n : Nat) : (readBytes data n).length = n := by
  simp [readBytes]

theorem readBytes_bufOf (l : List UInt8) : readBytes (bufOf l) l.length = l := by
  apply List.ext_getElem
  · simp
  · intro i h1 h2
    simp [readBytes, bufOf, h2]

theorem readBytes_const (b : UInt8) (n : Nat) : readBytes (fun _ => b) n = List.replicate n b := by
  simp [readBytes, List.map_const']

/-- The device takes a write of at most `most` bytes as a whole, and a longer one not. -/
structure Takes (write : WriteCall) (most : Nat) : Prop where
  header : 28 ≤ most
  whole : ∀ f n, n ≤ most → write f n = some n
  short : ∀ f n, most < n → n < 2 ^ 31 → ∀ k ∈ write f n, k < n

variable {write : WriteCall} {most : Nat}

theorem takes_of_all (h : ∀ f n, write f n = some n) : Takes write (2 ^ 32) where
  header := by decide
  whole f n _ := h f n
  short f n hn hlt := by omega

theorem takes_linuxWrite : Takes linuxWrite maxRwCount where
  header := by decide
  whole f n hn := congrArg some (Nat.min_eq_left hn)
  short f n hn _ k hk := by
    obtain rfl := Option.some.inj hk
    rwa [Nat.min_eq_right hn.le]

variable (hwrite : Takes write most)

include hwrite in
theorem fileWrite_whole (f : FileDev) (data : Nat → UInt8) {len : Int} (hlen : 0 ≤ len)
    (hmost : len.toNat ≤ most) :
    fileWrite write f data len = (0, if len = 0 then f
      else ⟨overwrite f.bytes f.pos (readBytes data len.toNat), f.pos + len.toNat⟩) := by
  unfold fileWrite
  rw [if_neg (by omega), hwrite.whole f _ hmost]
  simp only [Nat.min_self, Int.toNat_of_nonneg hlen, lt_irrefl, if_false]
  congr 2
  exact propext (by omega)

include hwrite in
/-- A negative length is refused, and a length above `most` is not written as a whole. -/
theorem fileWrite_fails (f : FileDev) (data : Nat → UInt8) {len : Int}
    (h : len < 0 ∨ most < len ∧ len < 2 ^ 31) : (fileWrite write f data len).1 = -1 := by
  unfold fileWrite
  split
  · rfl
  split
  · rfl
  · rename_i ret hret
    have := hwrite.short f len.toNat (by omega) (by omega) ret hret
    exact if_pos (by omega)

include hwrite in
theorem fileWrite_append (hf : f.AtEnd) (data : Nat → UInt8) {len : Int} (hlen : 0 ≤ len)
    (hmost : len.toNat ≤ most) :
    fileWrite write f data len = (0, f.append (readBytes data len.toNat)) := by
  rw [fileWrite_whole hwrite f data hlen hmost]
  split
  · rename_i h0
    simp [h0, readBytes]
  · have ho : overwrite f.bytes f.pos (readBytes data len.toNat) =
        f.bytes ++ readBytes data len.toNat := by
      unfold overwrite
      rw [hf, List.take_length, Nat.sub_self, List.drop_eq_nil_of_le (by omega)]
      simp
    rw [ho, FileDev.append, readBytes_length]

/-- The step from `out` to `out'` appends `written` to the file and takes `summed` into
the checksum. -/
structure Emits (out out' : OutputFile FileDev) (written summed : List UInt8) : Prop where
  dev : out'.dev = out.dev.append written
  crc : out'.crc32 = if out.useCrc then sparseCrc32 out.crc32 summed else out.crc32
  useCrc : out'.useCrc = out.useCrc
  blockSize : out'.blockSize = out.blockSize
  len : out'.len = out.len
  sparse : out'.sparse = out.sparse

theorem Emits.refl (out : OutputFile FileDev) : Emits out out [] [] where
  dev := (FileDev.append_nil _).symm
  crc := by simp
  useCrc := rfl
  blockSize := rfl
  len := rfl
  sparse := rfl

variable {a b out : OutputFile FileDev} {w s : List UInt8} {len : UInt32}

theorem Emits.trans {c : OutputFile FileDev} {w' s' : List UInt8} (h : Emits a b w s)
    (h' : Emits b c w' s') : Emits a c (w ++ w') (s ++ s') where
  dev := by rw [h'.dev, h.dev, FileDev.append_append]
  crc := by
    rw [h'.crc, h.crc, h.useCrc, ← sparseCrc32_append]
    cases a.useCrc <;> simp
  useCrc := h'.useCrc.trans h.useCrc
  blockSize := h'.blockSize.trans h.blockSize
  len := h'.len.trans h.len
  sparse := h'.sparse.trans h.sparse

theorem Emits.atEnd (h : Emits a b w s) (ha : a.dev.AtEnd) :
    b.dev.AtEnd := h.dev ▸ ha.append w

/-- A sparse file of the block size is open at its end. -/
structure Ready (out : OutputFile FileDev) (bs : UInt32) : Prop where
  sparse : out.sparse = true
  atEnd : out.dev.AtEnd
  blockSize : out.blockSize = bs

theorem Emits.ready {bs : UInt32} (h : Emits a b w s) (ha : Ready a bs) : Ready b bs :=
  ⟨h.sparse.trans ha.sparse, h.atEnd ha.atEnd, h.blockSize.trans ha.blockSize⟩

include hwrite in
/-- A write to the back end alone. -/
theorem write_emits (hf : out.dev.AtEnd) (data : Nat → UInt8) (len : Int) (hlen : 0 ≤ len)
    (hmost : len.toNat ≤ most) :
    ∃ out', out.write (fileOps write) data len = (0, out') ∧
      Emits out out' (readBytes data len.toNat) [] := by
  refine ⟨{ out with dev := out.dev.append (readBytes data len.toNat) }, ?_, ?_⟩
  · simp [OutputFile.write, fileOps, fileWrite_append hwrite hf data hlen hmost]
  · exact ⟨rfl, by simp, rfl, rfl, rfl, rfl⟩

include hwrite in
/-- No header is longer than that of the file. -/
theorem writeBuf_emits (hf : out.dev.AtEnd) (buf : List UInt8) (hbuf : buf.length ≤ 28) :
    ∃ out', out.writeBuf (fileOps write) buf = (0, out') ∧ Emits out out' buf [] := by
  have hmost := hbuf.trans hwrite.header
  obtain ⟨out', h, he⟩ := write_emits hwrite hf (bufOf buf) buf.length (Int.natCast_nonneg _) hmost
  rw [Int.toNat_natCast, readBytes_bufOf] at he
  exact ⟨out', h, he⟩

theorem chunkHeader_length_le (h : ChunkHeader) : h.bytes.length ≤ 28 := by
  rw [ChunkHeader.bytes_length]
  decide

theorem wordBytes_length_le (w : UInt32) : (wordBytes w).length ≤ 28 := by
  rw [wordBytes_length]
  decide

/-- Counters that no writer reads may take any value. -/
theorem Emits.counters (h : Emits a b w s) (p : Int) (k : UInt32) :
    Emits a { b with curOutPtr := p, chunkCnt := k } w s :=
  ⟨h.dev, h.crc, h.useCrc, h.blockSize, h.len, h.sparse⟩

/-- The same step with `summed` in the checksum. -/
theorem Emits.sum (h : Emits a b w s) (more : List UInt8) (p : Int) (k : UInt32) :
    Emits a { b with
      crc32 := if b.useCrc then sparseCrc32 b.crc32 more else b.crc32
      curOutPtr := p
      chunkCnt := k } w (s ++ more) := by
  refine ⟨h.dev, ?_, h.useCrc, h.blockSize, h.len, h.sparse⟩
  rw [h.crc, h.useCrc, ← sparseCrc32_append]
  cases a.useCrc <;> simp

/-! ## The chunk writers -/

theorem crcFill_eq (v : UInt32) (n : Nat) (crc : UInt32) :
    crcFill v n crc = sparseCrc32 crc (List.replicate n (wordBytes v)).flatten := by
  induction n generalizing crc with
  | zero => simp [crcFill]
  | succ n ih =>
    rw [crcFill, ih, sparseCrc32_append, List.replicate_succ, List.flatten_cons]

/-- The bytes a fill chunk adds to the checksum of the writer, those of one block. -/
def fillSummed (bs fillVal : UInt32) : List UInt8 :=
  (List.replicate (bs.toNat / 4) (wordBytes fillVal)).flatten

/-- The data of a node as it is written, up to the next block. -/
def padded (bs len : UInt32) (data : Nat → UInt8) : List UInt8 :=
  readBytes data len.toNat ++ List.replicate (align len bs - len).toNat 0

theorem writeSparseSkipChunk_refused (h : skipLen.tmod out.blockSize.toNat ≠ 0) :
    writeSparseSkipChunk (fileOps write) out skipLen = (-1, out) := if_pos h

section Chunks

include hwrite

theorem writeSparseSkipChunk_emits (hf : out.dev.AtEnd) (h : skipLen.tmod out.blockSize.toNat = 0) :
    ∃ out', writeSparseSkipChunk (fileOps write) out skipLen = (0, out') ∧
      Emits out out' (Chunk.dontCare (lowWord (skipLen.tdiv out.blockSize.toNat))).bytes [] := by
  set n := lowWord (skipLen.tdiv out.blockSize.toNat) with hn
  obtain ⟨o, ho, he⟩ := writeBuf_emits hwrite hf (Chunk.dontCare n).header.bytes
    (chunkHeader_length_le _)
  have ho : out.writeBuf (fileOps write) (⟨chunkTypeDontCare, 0, n, 12⟩ : ChunkHeader).bytes = (0, o) := ho
  refine ⟨{ o with curOutPtr := o.curOutPtr + skipLen, chunkCnt := o.chunkCnt + 1 }, ?_, ?_⟩
  · unfold writeSparseSkipChunk
    rw [if_neg (not_not.mpr h)]
    simp only [← hn, ho]
    rfl
  · rw [Chunk.bytes, Chunk.payload, List.append_nil]
    exact he.counters _ _

theorem writeSparseFillChunk_emits (hf : out.dev.AtEnd) (hbs : 0 < out.blockSize.toNat)
    (len v : UInt32) :
    ∃ out', writeSparseFillChunk (fileOps write) out len v = (0, out') ∧
      Emits out out' (Chunk.fill (divRoundUp len out.blockSize) v).bytes
        (fillSummed out.blockSize v) := by
  obtain ⟨o, ho, he⟩ := writeBuf_emits hwrite hf
    (Chunk.fill (divRoundUp len out.blockSize) v).header.bytes (chunkHeader_length_le _)
  have ho : out.writeBuf (fileOps write)
    (⟨chunkTypeFill, 0, divRoundUp len out.blockSize, 16⟩ : ChunkHeader).bytes = (0, o) := ho
  obtain ⟨o', ho', he'⟩ := writeBuf_emits hwrite (he.atEnd hf) (wordBytes v)
    (wordBytes_length_le v)
  refine ⟨_, ?_, (he.trans he').sum (fillSummed out.blockSize v)
    (o'.curOutPtr + toInt (align len out.blockSize)) (o'.chunkCnt + 1)⟩
  simp only [writeSparseFillChunk, align_div hbs, ho, ho', crcFill_eq, (he.trans he').blockSize,
    fillSummed]
  rfl

/-- The zeros behind the data of a node, if there are any. -/
theorem writePad_emits (hf : out.dev.AtEnd) {n : UInt32} (hn : n.toNat < 2 ^ 31)
    (hmost : n.toNat ≤ most) :
    ∃ out', (if n ≠ 0 then out.write (fileOps write) (fun _ => 0) (toInt n) else (0, out)) =
        (0, out') ∧ Emits out out' (List.replicate n.toNat 0) [] := by
  by_cases h : n = 0
  · refine ⟨out, if_neg (not_not.mpr h), ?_⟩
    rw [h]
    exact Emits.refl out
  · obtain ⟨o, ho, he⟩ := write_emits hwrite hf (fun _ => 0) (toInt n)
      (by rw [toInt_of_lt hn]; omega) (by rw [toInt_of_lt hn]; exact hmost)
    rw [toInt_of_lt hn, Int.toNat_natCast, readBytes_const] at he
    exact ⟨o, by rw [if_pos h, ho], he⟩

omit hwrite in
theorem crc_padded (bs len crc : UInt32) (data : Nat → UInt8) :
    (if align len bs - len ≠ 0 then
        sparseCrc32 (sparseCrc32 crc (readBytes data len.toNat))
          (List.replicate (align len bs - len).toNat 0)
      else sparseCrc32 crc (readBytes data len.toNat)) = sparseCrc32 crc (padded bs len data) := by
  rw [padded, ← sparseCrc32_append]
  split
  · rfl
  · rename_i h
    rw [not_not.mp h]
    simp

/-- Data that goes into a file has less than `2^31` bytes. -/
theorem writeSparseDataChunk_emits (hf : out.dev.AtEnd) (hbs : 0 < out.blockSize.toNat)
    (hbs' : out.blockSize.toNat < 2 ^ 31) (hlen : len.toNat < 2 ^ 31) (hmost : len.toNat ≤ most)
    (hzero : (align len out.blockSize - len).toNat ≤ most) (data : Nat → UInt8) :
    ∃ out', writeSparseDataChunk (fileOps write) out len data = (0, out') ∧
      Emits out out' (Chunk.raw (divRoundUp len out.blockSize) (padded out.blockSize len data)).bytes
        (padded out.blockSize len data) := by
  set bs := out.blockSize with hb
  obtain ⟨hpad, hpad'⟩ := align_sub_toNat (x := len) hbs (by omega)
  have hsz : UInt32.ofNat (padded bs len data).length = align len bs := by
    apply UInt32.toNat_inj.mp
    rw [UInt32.toNat_ofNat', padded, List.length_append, readBytes_length, List.length_replicate,
      Nat.add_comm, hpad]
    exact Nat.mod_eq_of_lt (UInt32.toNat_lt _)
  obtain ⟨o, ho, he⟩ := writeBuf_emits hwrite hf
    (Chunk.raw (divRoundUp len bs) (padded bs len data)).header.bytes (chunkHeader_length_le _)
  have ho : out.writeBuf (fileOps write)
      (⟨chunkTypeRaw, 0, divRoundUp len bs, 12 + align len bs⟩ : ChunkHeader).bytes = (0, o) := by
    rw [← hsz]
    exact ho
  obtain ⟨o1, ho1, he1⟩ := write_emits hwrite (he.atEnd hf) data (toInt len)
    (by rw [toInt_of_lt hlen]; omega) (by rw [toInt_of_lt hlen]; exact hmost)
  rw [toInt_of_lt hlen, Int.toNat_natCast] at he1
  obtain ⟨o2, ho2, he2⟩ := writePad_emits hwrite (n := align len bs - len)
    (he1.atEnd (he.atEnd hf)) (by omega) hzero
  have he3 := ((he.trans he1).trans he2).sum (padded bs len data)
    (o2.curOutPtr + toInt (align len bs)) (o2.chunkCnt + 1)
  refine ⟨_, ?_, he3⟩
  simp only [writeSparseDataChunk, ← hb, align_div hbs, ho, ho1, ho2, crc_padded]
  rfl

end Chunks

/-! ## Writing the nodes -/

def Content.chunk (bs len : UInt32) : Content → Chunk
  | .data bytes => .raw (divRoundUp len bs) (padded bs len bytes)
  | .fill v => .fill (divRoundUp len bs) v

def Content.summed (bs len : UInt32) : Content → List UInt8
  | .data bytes => padded bs len bytes
  | .fill v => fillSummed bs v

def nodeChunk (env : Env) (bs : UInt32) (bb : BackedBlock) : Chunk :=
  (content env bb).chunk bs bb.len

def nodeSummed (env : Env) (bs : UInt32) (bb : BackedBlock) : List UInt8 :=
  (content env bb).summed bs bb.len

/-- Data of `2^31` bytes or more has a negative length for `write`, which takes at most
`most` bytes. -/
def Content.storable (most : Nat) (len : UInt32) : Content → Bool
  | .data _ => decide (len.toNat < 2 ^ 31 ∧ len.toNat ≤ most)
  | .fill _ => true

/-- The data of the node can be read and written. -/
def writable (most : Nat) (env : Env) (bb : BackedBlock) : Bool :=
  readable env bb && (content env bb).storable most bb.len

section Nodes

variable {env : Env} {bs : UInt32} {bb : BackedBlock} (ready : Ready out bs)
  (hbs : 0 < bs.toNat) (hbs' : bs.toNat < 2 ^ 31)

include hwrite ready hbs hbs' in
theorem writeContent_emits {c : Content} (hc : c.storable most len = true)
    (hzero : (align len bs - len).toNat ≤ most) :
    ∃ out', writeContent (fileOps write) out len c = (0, out') ∧
      Emits out out' (c.chunk bs len).bytes (c.summed bs len) := by
  obtain ⟨hs, hf, rfl⟩ := ready
  cases c with
  | data bytes =>
    simp only [writeContent, writeDataChunk, hs, if_true]
    obtain ⟨hlen, hmost⟩ := of_decide_eq_true hc
    exact writeSparseDataChunk_emits hwrite hf hbs hbs' hlen hmost hzero bytes
  | fill v =>
    simp only [writeContent, writeFillChunk, hs, if_true]
    exact writeSparseFillChunk_emits hwrite hf hbs len v

include hwrite ready hbs hbs' in
theorem writeBlock_emits (hw : writable most env bb = true)
    (hzero : (align bb.len bs - bb.len).toNat ≤ most) :
    ∃ out', sparseFileWriteBlock env (fileOps write) out bb = (0, out') ∧
      Emits out out' (nodeChunk env bs bb).bytes (nodeSummed env bs bb) := by
  rw [writable, Bool.and_eq_true] at hw
  rw [sparseFileWriteBlock_of_readable (fileOps write) out hw.1]
  exact writeContent_emits hwrite ready hbs hbs' hw.2 hzero

include hwrite in
theorem write_fails (out : OutputFile FileDev) (data : Nat → UInt8)
    (h : ¬ (len.toNat < 2 ^ 31 ∧ len.toNat ≤ most)) :
    (out.write (fileOps write) data (toInt len)).1 = -1 := by
  refine fileWrite_fails hwrite out.dev data ?_
  have := len.toNat_lt
  unfold toInt
  split <;> omega

include hwrite in
theorem writeDataChunk_fails (out : OutputFile FileDev)
    (hlen : ¬ (len.toNat < 2 ^ 31 ∧ len.toNat ≤ most)) (data : Nat → UInt8) :
    (writeDataChunk (fileOps write) out len data).1 = -1 := by
  unfold writeDataChunk
  split
  · unfold writeSparseDataChunk
    dsimp only
    split
    · rfl
    · rw [write_fails hwrite _ data hlen]
      rfl
  · unfold writeNormalDataChunk
    dsimp only
    rw [write_fails hwrite out data hlen]
    rfl

include hwrite in
/-- A node that is not writable is reported. -/
theorem writeBlock_fails (out : OutputFile FileDev) (hw : writable most env bb = false) :
    (sparseFileWriteBlock env (fileOps write) out bb).1 ≠ 0 := by
  cases hr : readable env bb with
  | false =>
    obtain ⟨ret, hret, h⟩ := sparseFileWriteBlock_refused (fileOps write) out hr
    rw [h]
    exact hret.ne
  | true =>
    rw [writable, hr, Bool.true_and] at hw
    rw [sparseFileWriteBlock_of_readable (fileOps write) out hr]
    cases hc : content env bb with
    | fill v => rw [hc] at hw; cases hw
    | data bytes =>
      rw [hc] at hw
      change (writeDataChunk (fileOps write) out bb.len bytes).1 ≠ 0
      rw [writeDataChunk_fails hwrite out (of_decide_eq_false hw) bytes]
      decide

/-- The skip chunk in front of a node. -/
def gapChunks (lastBlock block : UInt32) : List Chunk :=
  if lastBlock < block then [.dontCare (block - lastBlock)] else []

/-- The chunks of the nodes behind `last_block`. -/
def blockChunks (env : Env) (bs : UInt32) : List BackedBlock → UInt32 → List Chunk
  | [], _ => []
  | bb :: rest, lastBlock =>
    gapChunks lastBlock bb.block ++ nodeChunk env bs bb :: blockChunks env bs rest (nextBlock bs bb)

/-- `last_block` behind the nodes. -/
def lastBlockOf (bs : UInt32) : List BackedBlock → UInt32 → UInt32
  | [], lastBlock => lastBlock
  | bb :: rest, _ => lastBlockOf bs rest (nextBlock bs bb)

theorem natCast_mul_tmod (a b : Nat) : ((a * b : Nat) : Int).tmod b = 0 := by
  rw [← Int.ofNat_tmod, Nat.mul_mod_left]
  rfl

theorem natCast_mul_tdiv {b : Nat} (hb : 0 < b) (a : Nat) : ((a * b : Nat) : Int).tdiv b = a := by
  rw [← Int.ofNat_tdiv, Nat.mul_div_cancel _ hb]

include hwrite ready hbs in
theorem writeGap_emits (lastBlock block : UInt32) :
    Emits out (if lastBlock < block then (writeSkipChunk (fileOps write) out
        ((block - lastBlock).toNat * bs.toNat)).2 else out)
      ((gapChunks lastBlock block).flatMap Chunk.bytes) [] := by
  obtain ⟨hs, hf, rfl⟩ := ready
  unfold gapChunks
  split
  · have hm := natCast_mul_tmod (block - lastBlock).toNat out.blockSize.toNat
    have hd := natCast_mul_tdiv hbs (block - lastBlock).toNat
    push_cast at hm hd
    obtain ⟨o, ho, he⟩ := writeSparseSkipChunk_emits hwrite hf hm
    rw [hd, lowWord_toNat_cast] at he
    rw [writeSkipChunk, if_pos hs, ho]
    simpa using he
  · simpa using Emits.refl out

include hwrite hbs hbs' in
/-- The loop of `write_all_blocks` in sparse mode. -/
theorem writeBlocks_emits (nodes : List BackedBlock)
    (hw : ∀ bb ∈ nodes, writable most env bb = true)
    (hzero : ∀ bb ∈ nodes, (align bb.len bs - bb.len).toNat ≤ most) :
    ∀ (lastBlock : UInt32) (out : OutputFile FileDev), Ready out bs →
      ∃ out', writeBlocks env (fileOps write) bs nodes lastBlock out =
          (0, lastBlockOf bs nodes lastBlock, out') ∧
        Emits out out' ((blockChunks env bs nodes lastBlock).flatMap Chunk.bytes)
          (nodes.flatMap (nodeSummed env bs)) := by
  induction nodes with
  | nil =>
    intro lastBlock out _
    exact ⟨out, rfl, Emits.refl out⟩
  | cons bb rest ih =>
    intro lastBlock out ready
    have hgap := writeGap_emits hwrite ready hbs lastBlock bb.block
    obtain ⟨o1, ho1, he1⟩ := writeBlock_emits hwrite (hgap.ready ready) hbs hbs' (hw bb (by simp))
      (hzero bb (by simp))
    have he2 := hgap.trans he1
    obtain ⟨o2, ho2, he3⟩ := ih (fun n hn => hw n (by simp [hn]))
      (fun n hn => hzero n (by simp [hn])) (nextBlock bs bb) o1 (he2.ready ready)
    refine ⟨o2, ?_, ?_⟩
    · simp only [writeBlocks, ho1, ho2]
      rfl
    · have he4 := he2.trans he3
      simpa [blockChunks] using he4

include hwrite in
theorem writeBlocks_fails (bs : UInt32) (nodes : List BackedBlock)
    (hw : ∃ bb ∈ nodes, writable most env bb = false) :
    ∀ (lastBlock : UInt32) (out : OutputFile FileDev),
      (writeBlocks env (fileOps write) bs nodes lastBlock out).1 ≠ 0 := by
  induction nodes with
  | nil => simp at hw
  | cons bb rest ih =>
    intro lastBlock out
    unfold writeBlocks
    dsimp only
    generalize (if lastBlock < bb.block then _ else out) = o
    split
    · rename_i h
      exact h
    · rename_i h
      rw [not_not] at h
      cases hb : writable most env bb with
      | false => exact absurd h (writeBlock_fails hwrite _ hb)
      | true =>
        apply ih
        obtain ⟨n, hn, hnw⟩ := hw
        rcases List.mem_cons.mp hn with rfl | hn
        · rw [hb] at hnw; cases hnw
        · exact ⟨n, hn, hnw⟩

end Nodes

/-! ## Writing a file -/

/-- `last_block` behind all nodes of a file. -/
def SparseFile.lastBlock (s : SparseFile) : UInt32 := lastBlockOf s.blockSize s.list.dataBlocks 0

/-- `pad` of `write_all_blocks`. -/
def SparseFile.pad (s : SparseFile) : Int := s.len - s.lastBlock.toNat * s.blockSize.toNat

/-- The skip chunk behind the last node, which the writer refuses to make when the rest
of the file is not made of whole blocks. -/
def endChunks (s : SparseFile) : List Chunk :=
  if 0 < s.pad ∧ s.pad.tmod s.blockSize.toNat = 0 then
    [.dontCare (lowWord (s.pad.tdiv s.blockSize.toNat))]
  else []

def summedOf (env : Env) (s : SparseFile) : List UInt8 :=
  s.list.dataBlocks.flatMap (nodeSummed env s.blockSize)

/-- The chunks that hold the image. -/
def imageChunks (env : Env) (s : SparseFile) : List Chunk :=
  blockChunks env s.blockSize s.list.dataBlocks 0 ++ endChunks s

def crcChunks (env : Env) (s : SparseFile) (crc : Bool) : List Chunk :=
  if crc then [.crc32 (sparseCrc32 0 (summedOf env s))] else []

def chunksOf (env : Env) (s : SparseFile) (crc : Bool) : List Chunk :=
  imageChunks env s ++ crcChunks env s crc

def countedChunks (s : SparseFile) : UInt32 :=
  let (lastBlock, chunks) := countLoop s.blockSize s.list.dataBlocks 0 0
  let total := (s.len + s.blockSize.toNat - 1).tdiv s.blockSize.toNat
  if lastBlock.toNat < total then chunks + 1 else chunks

def headerOf (s : SparseFile) (crc : Bool) : SparseHeader :=
  ⟨sparseHeaderMagic, sparseHeaderMajorVer, sparseHeaderMinorVer, 28, 12, s.blockSize,
    lowWord (s.len.tdiv s.blockSize.toNat),
    if crc then countedChunks s + 1 else countedChunks s, 0⟩

/-- The bytes that a write without errors leaves in the file. -/
def streamOf (env : Env) (s : SparseFile) (crc : Bool) : List UInt8 :=
  (headerOf s crc).bytes ++ (chunksOf env s crc).flatMap Chunk.bytes

include hwrite in
theorem writeEnd_emits {s : SparseFile} (ready : Ready out s.blockSize) :
    Emits out (if s.pad > 0 then (writeSkipChunk (fileOps write) out s.pad).2 else out)
      ((endChunks s).flatMap Chunk.bytes) [] := by
  obtain ⟨hs, hf, hb⟩ := ready
  unfold endChunks
  rw [← hb]
  by_cases hp : 0 < s.pad
  · rw [if_pos hp, writeSkipChunk, if_pos hs]
    by_cases hm : s.pad.tmod out.blockSize.toNat = 0
    · obtain ⟨o, ho, he⟩ := writeSparseSkipChunk_emits hwrite hf hm
      rw [ho, if_pos ⟨hp, hm⟩]
      simpa using he
    · rw [writeSparseSkipChunk_refused hm, if_neg (fun h => hm h.2)]
      simpa using Emits.refl out
  · rw [if_neg hp, if_neg (fun h => hp h.1)]
    simpa using Emits.refl out

/-- `write_all_blocks` once its loop has gone through all nodes. -/
theorem writeAllBlocks_eq {σ : Type} {ops : OutputFileOps σ} {env : Env} {s : SparseFile}
    {out o : OutputFile σ}
    (h : writeBlocks env ops s.blockSize s.list.dataBlocks 0 out = (0, s.lastBlock, o)) :
    writeAllBlocks env ops s out = if s.pad < 0 then .error .assertion
      else .ok (0, if s.pad > 0 then (writeSkipChunk ops o s.pad).2 else o) := by
  simp only [writeAllBlocks, h]
  rw [if_neg (by simp)]
  unfold SparseFile.pad
  split
  · rfl
  · split <;> rfl

theorem zeros_le_of_all (s : SparseFile) :
    ∀ bb ∈ s.list.dataBlocks, (align bb.len s.blockSize - bb.len).toNat ≤ 2 ^ 32 :=
  fun _ _ => (UInt32.toNat_lt _).le

section FileWrite

variable {env : Env} {s : SparseFile} (crc : Bool)
  (hbs : 0 < s.blockSize.toNat) (hbs' : s.blockSize.toNat < 2 ^ 31)
  (hw : ∀ bb ∈ s.list.dataBlocks, writable most env bb = true)
  (hzero : ∀ bb ∈ s.list.dataBlocks, (align bb.len s.blockSize - bb.len).toNat ≤ most)

include hwrite hbs hbs' hw hzero in
theorem writeAllBlocks_emits (hpad : 0 ≤ s.pad) (ready : Ready out s.blockSize) :
    ∃ out', writeAllBlocks env (fileOps write) s out = .ok (0, out') ∧
      Emits out out' ((imageChunks env s).flatMap Chunk.bytes) (summedOf env s) := by
  obtain ⟨o, ho, he⟩ := writeBlocks_emits hwrite hbs hbs' _ hw hzero 0 out ready
  have hend := writeEnd_emits hwrite (he.ready ready)
  have he' := he.trans hend
  rw [← List.flatMap_append, List.append_nil] at he'
  refine ⟨_, ?_, he'⟩
  rw [writeAllBlocks_eq ho, if_neg (by omega)]

include hwrite in
theorem outputFileClose_emits (hs : out.sparse = true) (hf : out.dev.AtEnd)
    (hcrc : out.useCrc = true → out.crc32 = sparseCrc32 0 (summedOf env s)) :
    (outputFileClose (fileOps write) out).dev =
      out.dev.append ((crcChunks env s out.useCrc).flatMap Chunk.bytes) := by
  rw [outputFileClose, if_pos hs]
  unfold writeSparseEndChunk crcChunks
  cases hu : out.useCrc with
  | false => simp
  | true =>
    rw [← hcrc hu]
    obtain ⟨o, ho, he⟩ := writeBuf_emits hwrite hf (Chunk.crc32 out.crc32).header.bytes
      (chunkHeader_length_le _)
    have ho : out.writeBuf (fileOps write) (⟨chunkTypeCrc32, 0, 0, 16⟩ : ChunkHeader).bytes =
      (0, o) := ho
    obtain ⟨o', ho', he'⟩ := writeBuf_emits hwrite (he.atEnd hf) (wordBytes o.crc32)
      (wordBytes_length_le _)
    have hc : o.crc32 = out.crc32 := by rw [he.crc]; simp
    simp only [ho, ho', if_true]
    rw [if_neg (by simp)]
    rw [(he.trans he').dev, hc]
    simp [Chunk.bytes, Chunk.payload]

include hbs in
theorem sparseCountChunks_eq : sparseCountChunks s = .ok (countedChunks s) := by
  apply if_neg
  intro h
  rw [h] at hbs
  exact absurd hbs (by decide)

include hwrite hbs hbs' in
/-- Opening a sparse file writes the header. -/
theorem outputFileInit_emits :
    ∃ out, outputFileInit (fileOps write) ⟨[], 0⟩ s.blockSize s.len true (countedChunks s) crc =
        .ok (some out) ∧
      Emits ⟨0, 0, 0, crc, s.blockSize, s.len, true, ⟨[], 0⟩⟩ out (headerOf s crc).bytes [] := by
  have hne : s.blockSize ≠ 0 := by
    intro h
    rw [h] at hbs
    exact absurd hbs (by decide)
  obtain ⟨o, ho, he⟩ := @writeBuf_emits _ _ hwrite
    ⟨0, 0, 0, crc, s.blockSize, s.len, true, ⟨[], 0⟩⟩ rfl (headerOf s crc).bytes
    (SparseHeader.bytes_length _).le
  refine ⟨o, ?_, he⟩
  unfold outputFileInit
  rw [if_neg (by rw [toInt_of_lt hbs']; omega), if_pos rfl, if_neg hne]
  simp only [headerOf] at ho
  simp only [ho]
  rfl

include hwrite hbs hbs' hw hzero in
/-- A write that finds every node writable leaves the stream in the file. -/
theorem sparseFileWrite_stream (hpad : 0 ≤ s.pad) :
    ∃ dev, sparseFileWrite env write s true crc = .ok (0, dev) ∧
      dev.bytes = streamOf env s crc := by
  obtain ⟨o, ho, he⟩ := outputFileInit_emits hwrite crc hbs hbs'
  obtain ⟨o', ho', he'⟩ := writeAllBlocks_emits hwrite hbs hbs' hw hzero hpad
    (he.ready ⟨rfl, rfl, rfl⟩)
  have hall := he.trans he'
  have hclose := @outputFileClose_emits _ _ hwrite _ env s hall.sparse (hall.atEnd rfl) (by
    intro hu
    rw [hall.useCrc] at hu
    rw [hall.crc, if_pos hu]
    rfl)
  refine ⟨(outputFileClose (fileOps write) o').dev, ?_, ?_⟩
  · simp only [sparseFileWrite, writeTo, sparseCountChunks_eq hbs, ho, ho']
  · rw [hclose, hall.dev, hall.useCrc]
    simp [FileDev.append, streamOf, chunksOf]

include hwrite hbs hbs' hw hzero in
/-- A file that ends before its last block stops the write. -/
theorem sparseFileWrite_assertion (hpad : s.pad < 0) :
    sparseFileWrite env write s true crc = .error .assertion := by
  obtain ⟨o, ho, he⟩ := outputFileInit_emits hwrite crc hbs hbs'
  obtain ⟨o', ho', -⟩ := writeBlocks_emits hwrite hbs hbs' _ hw hzero 0 o
    (he.ready ⟨rfl, rfl, rfl⟩)
  have hall : writeAllBlocks env (fileOps write) s o = .error .assertion := by
    rw [writeAllBlocks_eq ho', if_pos hpad]
  simp only [sparseFileWrite, writeTo, sparseCountChunks_eq hbs, ho, hall]

include hwrite in
/-- Otherwise an error is returned, in either mode. -/
theorem sparseFileWrite_fails (sparse : Bool) (hbs : 0 < s.blockSize.toNat)
    (h : 2 ^ 31 ≤ s.blockSize.toNat ∨ ∃ bb ∈ s.list.dataBlocks, writable most env bb = false) :
    ∃ ret dev, ret ≠ 0 ∧ sparseFileWrite env write s sparse crc = .ok (ret, dev) := by
  by_cases hbs' : s.blockSize.toNat < 2 ^ 31
  · have hw := h.resolve_left (by omega)
    obtain ⟨o, ho⟩ : ∃ o, outputFileInit (fileOps write) ⟨[], 0⟩ s.blockSize s.len sparse
        (countedChunks s) crc = .ok (some o) := by
      cases sparse with
      | true =>
        obtain ⟨o, ho, -⟩ := outputFileInit_emits hwrite crc hbs hbs'
        exact ⟨o, ho⟩
      | false => exact ⟨_, if_neg (by rw [toInt_of_lt hbs']; omega)⟩
    have hne := writeBlocks_fails hwrite s.blockSize s.list.dataBlocks hw 0 o
    refine ⟨_, (outputFileClose (fileOps write)
      (writeBlocks env (fileOps write) s.blockSize s.list.dataBlocks 0 o).2.2).dev, hne, ?_⟩
    simp only [sparseFileWrite, writeTo, sparseCountChunks_eq hbs, ho, writeAllBlocks]
    rw [if_pos hne]
  · refine ⟨-enomem, ⟨[], 0⟩, by decide, ?_⟩
    have ho : outputFileInit (fileOps write) ⟨[], 0⟩ s.blockSize s.len sparse (countedChunks s)
        crc = .ok none := by
      apply if_pos
      exact toInt_neg_of_le (by omega)
    simp only [sparseFileWrite, writeTo, sparseCountChunks_eq hbs, ho]

include hwrite hbs hzero in
/-- What a write that returns zero says about the file. -/
theorem sparseFileWrite_inv {dev : FileDev}
    (h : sparseFileWrite env write s true crc = .ok (0, dev)) :
    s.blockSize.toNat < 2 ^ 31 ∧ (∀ bb ∈ s.list.dataBlocks, writable most env bb = true) ∧
      0 ≤ s.pad ∧ dev.bytes = streamOf env s crc := by
  by_cases hok : s.blockSize.toNat < 2 ^ 31 ∧
      ∀ bb ∈ s.list.dataBlocks, writable most env bb = true
  · obtain ⟨hbs', hw⟩ := hok
    rcases Int.lt_or_le s.pad 0 with hpad | hpad
    · rw [sparseFileWrite_assertion hwrite crc hbs hbs' hw hzero hpad] at h
      cases h
    · obtain ⟨dev', h', hd⟩ := sparseFileWrite_stream hwrite crc hbs hbs' hw hzero hpad
      rw [h'] at h
      cases h
      exact ⟨hbs', hw, hpad, hd⟩
  · obtain ⟨ret, dev', hne, h'⟩ := sparseFileWrite_fails hwrite crc true hbs (by
      by_contra hc
      push Not at hc
      exact hok ⟨hc.1, fun bb hb => by simpa using hc.2 bb hb⟩)
    rw [h'] at h
    cases h
    exact absurd rfl hne

end FileWrite

end SystemCore.Libsparse
