import SystemCore.Libsparse.Emission

/-!
# What the counting back end counts

Writing to `out_counter_write` adds up lengths. A node that can be read counts its chunk
header and its payload, and `sparse_file_len` comes to the header, the gaps, the nodes,
the skip chunk at the end and the checksum chunk.
-/
namespace SystemCore.Libsparse

abbrev counterOps : OutputFileOps Int := callbackOps outCounterWrite

/-- The step from `out` to `out'` adds `n` to the counter. -/
structure Counts (out out' : OutputFile Int) (n : Int) : Prop where
  dev : out'.dev = out.dev + n
  useCrc : out'.useCrc = out.useCrc
  blockSize : out'.blockSize = out.blockSize
  sparse : out'.sparse = out.sparse

theorem Counts.refl (out : OutputFile Int) : Counts out out 0 :=
  ⟨(Int.add_zero _).symm, rfl, rfl, rfl⟩

theorem Counts.trans {a b c : OutputFile Int} {m n : Int} (h : Counts a b m) (h' : Counts b c n) :
    Counts a c (m + n) where
  dev := by rw [h'.dev, h.dev, Int.add_assoc]
  useCrc := h'.useCrc.trans h.useCrc
  blockSize := h'.blockSize.trans h.blockSize
  sparse := h'.sparse.trans h.sparse

/-- Fields that no count depends on may take any value. -/
theorem Counts.counters {a b : OutputFile Int} {n : Int} (h : Counts a b n) (p : Int)
    (k crc : UInt32) : Counts a { b with curOutPtr := p, chunkCnt := k, crc32 := crc } n :=
  ⟨h.dev, h.useCrc, h.blockSize, h.sparse⟩

theorem write_counts (out : OutputFile Int) (data : Nat → UInt8) (len : Int) :
    ∃ out', out.write counterOps data len = (0, out') ∧ Counts out out' len :=
  ⟨{ out with dev := out.dev + len }, rfl, rfl, rfl, rfl, rfl⟩

theorem writeBuf_counts (out : OutputFile Int) (buf : List UInt8) :
    ∃ out', out.writeBuf counterOps buf = (0, out') ∧ Counts out out' buf.length :=
  write_counts out (bufOf buf) buf.length

/-! ## Chunks -/

/-- What a chunk of `len` bytes counts. Payloads are counted as an `int`. -/
def Content.count (bs len : UInt32) : Content → Int
  | .data _ => 12 + (toInt len + toInt (align len bs - len))
  | .fill _ => 16

def nodeCount (env : Env) (bs : UInt32) (bb : BackedBlock) : Int := (content env bb).count bs bb.len

/-- The skip header in front of a node. -/
def gapCount (lastBlock block : UInt32) : Int := if lastBlock < block then 12 else 0

variable {out : OutputFile Int} {bs : UInt32} {env : Env} (nodes : List BackedBlock)

theorem writeSparseSkipChunk_counts {skipLen : Int} (h : skipLen.tmod out.blockSize.toNat = 0) :
    ∃ out', writeSparseSkipChunk counterOps out skipLen = (0, out') ∧ Counts out out' 12 := by
  obtain ⟨o, ho, hc⟩ := writeBuf_counts out
    (⟨chunkTypeDontCare, 0, lowWord (skipLen.tdiv out.blockSize.toNat), 12⟩ : ChunkHeader).bytes
  refine ⟨_, ?_, hc.counters (o.curOutPtr + skipLen) (o.chunkCnt + 1) o.crc32⟩
  simp only [writeSparseSkipChunk, h, ho]
  rfl

theorem writeSparseFillChunk_counts (out : OutputFile Int) (len v : UInt32) :
    ∃ out', writeSparseFillChunk counterOps out len v = (0, out') ∧ Counts out out' 16 := by
  obtain ⟨o, ho, hc⟩ := writeBuf_counts out
    (⟨chunkTypeFill, 0, align len out.blockSize / out.blockSize, 16⟩ : ChunkHeader).bytes
  obtain ⟨o', ho', hc'⟩ := writeBuf_counts o (wordBytes v)
  refine ⟨_, ?_, (hc.trans hc').counters (o'.curOutPtr + toInt (align len out.blockSize))
    (o'.chunkCnt + 1) (if o'.useCrc then crcFill v (o'.blockSize.toNat / 4) o'.crc32 else o'.crc32)⟩
  simp only [writeSparseFillChunk, ho, ho']
  rfl

/-- No bytes are counted where there is no padding to write. -/
theorem writePad_counts (out : OutputFile Int) (n : UInt32) :
    ∃ out', (if n ≠ 0 then out.write counterOps (fun _ => 0) (toInt n) else (0, out)) = (0, out') ∧
      Counts out out' (toInt n) := by
  by_cases h : n = 0
  · subst h
    exact ⟨out, rfl, Counts.refl out⟩
  · rw [if_pos h]
    exact write_counts out _ _

theorem writeSparseDataChunk_counts (out : OutputFile Int) (len : UInt32) (data : Nat → UInt8) :
    ∃ out', writeSparseDataChunk counterOps out len data = (0, out') ∧
      Counts out out' (12 + (toInt len + toInt (align len out.blockSize - len))) := by
  obtain ⟨o, ho, hc⟩ := writeBuf_counts out
    (⟨chunkTypeRaw, 0, align len out.blockSize / out.blockSize, 12 + align len out.blockSize⟩ :
      ChunkHeader).bytes
  obtain ⟨o', ho', hc'⟩ := write_counts o data (toInt len)
  obtain ⟨o2, ho2, hc2⟩ := writePad_counts o' (align len out.blockSize - len)
  refine ⟨_, ?_, (hc.trans (hc'.trans hc2)).counters
    (o2.curOutPtr + toInt (align len out.blockSize)) (o2.chunkCnt + 1)
    (if o2.useCrc then
      if align len out.blockSize - len ≠ 0 then
        sparseCrc32 (sparseCrc32 o2.crc32 (readBytes data len.toNat))
          (List.replicate (align len out.blockSize - len).toNat 0)
      else sparseCrc32 o2.crc32 (readBytes data len.toNat)
    else o2.crc32)⟩
  simp only [writeSparseDataChunk, ho, ho', ho2]
  rfl

section Node

variable {env : Env} {out : OutputFile Int} {bb : BackedBlock}

theorem writeBlock_counts (hs : out.sparse = true) (hr : readable env bb = true) :
    ∃ out', sparseFileWriteBlock env counterOps out bb = (0, out') ∧
      Counts out out' (nodeCount env out.blockSize bb) := by
  rw [sparseFileWriteBlock_of_readable counterOps out hr, nodeCount]
  cases content env bb with
  | data bytes =>
    simp only [writeContent, writeDataChunk, hs, if_true]
    exact writeSparseDataChunk_counts out bb.len bytes
  | fill v =>
    simp only [writeContent, writeFillChunk, hs, if_true]
    exact writeSparseFillChunk_counts out bb.len v

theorem writeGap_counts (hs : out.sparse = true) (lastBlock block : UInt32) :
    Counts out (if lastBlock < block then (writeSkipChunk counterOps out
        ((block - lastBlock).toNat * out.blockSize.toNat)).2 else out)
      (gapCount lastBlock block) := by
  unfold gapCount
  split
  · have hm := natCast_mul_tmod (block - lastBlock).toNat out.blockSize.toNat
    push_cast at hm
    obtain ⟨o, ho, hc⟩ := writeSparseSkipChunk_counts hm
    rw [writeSkipChunk, if_pos hs, ho]
    exact hc
  · exact Counts.refl out

end Node

/-! ## Lists and files -/

/-- What the nodes behind `last_block` count. -/
def countOf (env : Env) (bs : UInt32) : List BackedBlock → UInt32 → Int
  | [], _ => 0
  | bb :: rest, lastBlock =>
    gapCount lastBlock bb.block + nodeCount env bs bb + countOf env bs rest (nextBlock bs bb)

theorem lastBlockOf_append (bs : UInt32) (l l' : List BackedBlock) (lastBlock : UInt32) :
    lastBlockOf bs (l ++ l') lastBlock = lastBlockOf bs l' (lastBlockOf bs l lastBlock) := by
  induction l generalizing lastBlock with
  | nil => rfl
  | cons bb l ih => exact ih _

theorem countOf_append (env : Env) (bs : UInt32) (l l' : List BackedBlock) (lastBlock : UInt32) :
    countOf env bs (l ++ l') lastBlock =
      countOf env bs l lastBlock + countOf env bs l' (lastBlockOf bs l lastBlock) := by
  induction l generalizing lastBlock with
  | nil => simp [countOf, lastBlockOf]
  | cons bb l ih => simp only [List.cons_append, countOf, lastBlockOf, ih, Int.add_assoc]

theorem countOf_snoc (env : Env) (bs : UInt32) (l : List BackedBlock) (bb : BackedBlock)
    (lastBlock : UInt32) : countOf env bs (l ++ [bb]) lastBlock = countOf env bs l lastBlock +
      (gapCount (lastBlockOf bs l lastBlock) bb.block + nodeCount env bs bb) := by
  simp [countOf_append, countOf]

theorem writeBlocks_counts (hr : ∀ bb ∈ nodes, readable env bb = true) :
    ∀ (lastBlock : UInt32) (out : OutputFile Int), out.sparse = true → out.blockSize = bs →
      ∃ out', writeBlocks env counterOps bs nodes lastBlock out =
          (0, lastBlockOf bs nodes lastBlock, out') ∧
        Counts out out' (countOf env bs nodes lastBlock) := by
  induction nodes with
  | nil =>
    intro lastBlock out hs hb
    exact ⟨out, rfl, Counts.refl out⟩
  | cons bb rest ih =>
    intro lastBlock out hs hb
    have hgap := writeGap_counts hs lastBlock bb.block
    rw [hb] at hgap
    obtain ⟨o1, ho1, hc1⟩ := writeBlock_counts (hgap.sparse.trans hs) (hr bb (by simp))
    rw [hgap.blockSize, hb] at hc1
    have hc2 := hgap.trans hc1
    obtain ⟨o2, ho2, hc3⟩ := ih (fun n hn => hr n (by simp [hn])) (nextBlock bs bb) o1
      (hc2.sparse.trans hs) (hc2.blockSize.trans hb)
    refine ⟨o2, ?_, hc2.trans hc3⟩
    simp only [writeBlocks, ho1, ho2]
    rfl

/-- A node that cannot be read stops the loop with a negative result. -/
theorem writeBlocks_refused {env : Env} {bs : UInt32} (hr : ∃ bb ∈ nodes, readable env bb = false) :
    ∀ (lastBlock : UInt32) (out : OutputFile Int), out.sparse = true → out.blockSize = bs →
      (writeBlocks env counterOps bs nodes lastBlock out).1 < 0 := by
  induction nodes with
  | nil => simp at hr
  | cons bb rest ih =>
    intro lastBlock out hs hb
    have hgap := writeGap_counts hs lastBlock bb.block
    rw [hb] at hgap
    simp only [writeBlocks]
    generalize (if lastBlock < bb.block then _ else out) = o at hgap ⊢
    cases hrb : readable env bb with
    | false =>
      obtain ⟨ret, hret, h⟩ := sparseFileWriteBlock_refused counterOps o hrb
      rw [h, if_pos hret.ne]
      exact hret
    | true =>
      obtain ⟨o', ho', hc⟩ := writeBlock_counts (hgap.sparse.trans hs) hrb
      have hc' := hgap.trans hc
      rw [ho', if_neg (by simp)]
      obtain ⟨n, hn, hnr⟩ := hr
      rcases List.mem_cons.mp hn with rfl | hn
      · rw [hrb] at hnr
        cases hnr
      · exact ih ⟨n, hn, hnr⟩ _ o' (hc'.sparse.trans hs) (hc'.blockSize.trans hb)

def SparseFile.endCount (s : SparseFile) : Int :=
  if 0 < s.pad ∧ s.pad.tmod s.blockSize.toNat = 0 then 12 else 0

def lengthOf (env : Env) (s : SparseFile) (crc : Bool) : Int :=
  28 + countOf env s.blockSize s.list.dataBlocks 0 + s.endCount + (if crc then 16 else 0)

theorem writePadChunk_counts {s : SparseFile} (hs : out.sparse = true)
    (hb : out.blockSize = s.blockSize) :
    Counts out (if s.pad > 0 then (writeSkipChunk counterOps out s.pad).2 else out) s.endCount := by
  unfold SparseFile.endCount
  by_cases hp : 0 < s.pad
  · rw [if_pos hp, writeSkipChunk, if_pos hs]
    by_cases hm : s.pad.tmod s.blockSize.toNat = 0
    · rw [if_pos ⟨hp, hm⟩]
      obtain ⟨o, ho, hc⟩ := writeSparseSkipChunk_counts (hb ▸ hm)
      rw [ho]
      exact hc
    · rw [if_neg (fun h => hm h.2), writeSparseSkipChunk, if_pos (hb ▸ hm)]
      exact Counts.refl out
  · rw [if_neg hp, if_neg (fun h => hp h.1)]
    exact Counts.refl out

theorem outputFileClose_counts (hs : out.sparse = true) :
    Counts out (outputFileClose counterOps out) (if out.useCrc then 16 else 0) := by
  unfold outputFileClose writeSparseEndChunk
  rw [if_pos hs]
  split
  · obtain ⟨o, ho, hc⟩ := writeBuf_counts out (⟨chunkTypeCrc32, 0, 0, 16⟩ : ChunkHeader).bytes
    obtain ⟨o', ho', hc'⟩ := writeBuf_counts o (wordBytes o.crc32)
    simp only [ho, ho']
    exact (hc.trans hc').counters o'.curOutPtr (o'.chunkCnt + 1) o'.crc32
  · exact Counts.refl out

section Open

variable {bs : UInt32} (len : Int) (chunks : UInt32) (crc : Bool)

/-- The counter opens and takes up the header. -/
theorem outputFileInit_counter (hbs : 0 < bs.toNat) (hbs' : bs.toNat < 2 ^ 31) :
    ∃ out, outputFileInit counterOps 0 bs len true chunks crc = .ok (some out) ∧ out.dev = 28 ∧
      out.useCrc = crc ∧ out.blockSize = bs ∧ out.sparse = true := by
  have hne : bs ≠ 0 := fun h => by simp [h] at hbs
  obtain ⟨o, ho, hc⟩ := writeBuf_counts (⟨0, 0, 0, crc, bs, len, true, 0⟩ : OutputFile Int)
    (⟨sparseHeaderMagic, sparseHeaderMajorVer, sparseHeaderMinorVer, 28, 12, bs,
      lowWord (len.tdiv bs.toNat), if crc then chunks + 1 else chunks, 0⟩ : SparseHeader).bytes
  refine ⟨o, ?_, by rw [hc.dev]; rfl, hc.useCrc, hc.blockSize, hc.sparse⟩
  rw [outputFileInit, if_neg (by rw [toInt_of_lt hbs']; omega), if_pos rfl, if_neg hne]
  simp only [ho]
  rfl

/-- A block size that is negative as an `int` cannot be allocated. -/
theorem outputFileInit_refused {σ : Type} (ops : OutputFileOps σ) (dev : σ) (sparse : Bool)
    (hbs : 2 ^ 31 ≤ bs.toNat) : outputFileInit ops dev bs len sparse chunks crc = .ok none :=
  if_pos (toInt_neg_of_le hbs)

end Open

section Len

variable {env : Env} {s : SparseFile} (crc : Bool)

/-- `sparse_file_len` of a file with nodes that can be read. -/
theorem sparseFileLen_of_readable (hbs : 0 < s.blockSize.toNat) (hbs' : s.blockSize.toNat < 2 ^ 31)
    (hr : ∀ bb ∈ s.list.dataBlocks, readable env bb = true) :
    sparseFileLen env s true crc =
      if s.pad < 0 then .error .assertion else .ok (lengthOf env s crc) := by
  obtain ⟨o, ho, hd, hu, hb, hs⟩ := outputFileInit_counter s.len (countedChunks s) crc hbs hbs'
  obtain ⟨o1, ho1, hc1⟩ := writeBlocks_counts s.list.dataBlocks hr 0 o hs hb
  have hc2 := writePadChunk_counts (hc1.sparse.trans hs) (hc1.blockSize.trans hb)
  have hc3 := hc1.trans hc2
  have hc4 := outputFileClose_counts (hc3.sparse.trans hs)
  rw [hc3.useCrc, hu] at hc4
  have hlen := (hc3.trans hc4).dev
  have hw := writeAllBlocks_eq ho1
  by_cases hpad : s.pad < 0
  · rw [if_pos hpad] at hw
    simp only [sparseFileLen, writeTo, sparseCountChunks_eq hbs, ho, hw, if_pos hpad]
  · rw [if_neg hpad] at hw
    simp only [sparseFileLen, writeTo, sparseCountChunks_eq hbs, ho, hw, if_neg hpad, hlen, hd,
      lengthOf]
    simp [Int.add_assoc]

theorem sparseFileLen_of_refused (hbs : 0 < s.blockSize.toNat) (hbs' : s.blockSize.toNat < 2 ^ 31)
    (hr : ∃ bb ∈ s.list.dataBlocks, readable env bb = false) :
    sparseFileLen env s true crc = .ok (-1) := by
  obtain ⟨o, ho, hd, hu, hb, hs⟩ := outputFileInit_counter s.len (countedChunks s) crc hbs hbs'
  have hw := writeBlocks_refused s.list.dataBlocks hr 0 o hs hb
  simp only [sparseFileLen, writeTo, sparseCountChunks_eq hbs, ho, writeAllBlocks, if_pos hw.ne,
    if_pos hw]

theorem sparseFileLen_of_long (hbs : 2 ^ 31 ≤ s.blockSize.toNat) :
    sparseFileLen env s true crc = .ok (-1) := by
  have hpos : 0 < s.blockSize.toNat := by omega
  simp only [sparseFileLen, writeTo, sparseCountChunks_eq hpos, outputFileInit_refused _ _ _ _ _ _ hbs]

end Len

/-! ## Counting and writing -/

section Written

variable {most : Nat} {env : Env} {bs : UInt32} (hbs : 0 < bs.toNat) (hbs' : bs.toNat < 2 ^ 31)

include hbs hbs'

theorem nodeCount_eq_length {bb : BackedBlock} (hw : writable most env bb = true) :
    nodeCount env bs bb = (nodeChunk env bs bb).bytes.length := by
  rw [nodeCount, nodeChunk, Chunk.bytes_length]
  have hs := (Bool.and_eq_true_iff.mp hw).2
  cases hc : content env bb with
  | fill v => rfl
  | data bytes =>
    rw [hc] at hs
    have hlen : bb.len.toNat < 2 ^ 31 := (of_decide_eq_true hs).1
    have hpad := (align_sub_toNat (x := bb.len) hbs (by omega)).2
    simp only [Content.count, Content.chunk, Chunk.payload, padded, List.length_append,
      readBytes_length, List.length_replicate, toInt_of_lt hlen, toInt_of_lt (hpad.trans hbs')]
    push_cast
    rfl

theorem countOf_eq_length (nodes : List BackedBlock)
    (hw : ∀ bb ∈ nodes, writable most env bb = true) (lastBlock : UInt32) : countOf env bs nodes lastBlock =
      ((blockChunks env bs nodes lastBlock).flatMap Chunk.bytes).length := by
  induction nodes generalizing lastBlock with
  | nil => rfl
  | cons bb rest ih =>
    have hgap : gapCount lastBlock bb.block =
        ((gapChunks lastBlock bb.block).flatMap Chunk.bytes).length := by
      unfold gapCount gapChunks
      split <;> rfl
    rw [countOf, blockChunks, hgap, nodeCount_eq_length hbs hbs' (hw bb (by simp)),
      ih (fun n hn => hw n (by simp [hn]))]
    simp [Int.add_assoc]

end Written

/-- `sparse_file_len` is the number of bytes that `sparse_file_write` writes to a device
that takes every write. -/
theorem sparse_file_len_written (env : Env) (write : WriteCall)
    (hwrite : ∀ f n, write f n = some n) (s : SparseFile) (crc : Bool) (dev : FileDev)
    (hbs : 0 < s.blockSize.toNat) (h : sparseFileWrite env write s true crc = .ok (0, dev)) :
    sparseFileLen env s true crc = .ok dev.bytes.length := by
  obtain ⟨hbs', hw, hpad, hdev⟩ :=
    sparseFileWrite_inv (takes_of_all hwrite) crc hbs (zeros_le_of_all s) h
  have hend : s.endCount = ((endChunks s).flatMap Chunk.bytes).length := by
    unfold SparseFile.endCount endChunks
    split <;> rfl
  have hcrc : (if crc then 16 else 0 : Int) = ((crcChunks env s crc).flatMap Chunk.bytes).length := by
    cases crc <;> rfl
  have hlen : lengthOf env s crc = dev.bytes.length := by
    rw [lengthOf, hend, hcrc, countOf_eq_length hbs hbs' _ hw, hdev, streamOf, chunksOf, imageChunks]
    simp [Int.add_assoc]
  rw [sparseFileLen_of_readable crc hbs hbs' fun bb hb => (Bool.and_eq_true_iff.mp (hw bb hb)).1,
    if_neg (by omega), hlen]

theorem sparse_file_len_written_data :
    ∃ dev, sparseFileWrite zeroEnv takesAll ⟨12, ⟨[⟨0, 1, 3, .data 0⟩], none, 4⟩⟩ true true =
        .ok (0, dev) ∧
      sparseFileLen zeroEnv ⟨12, ⟨[⟨0, 1, 3, .data 0⟩], none, 4⟩⟩ true true = .ok dev.bytes.length :=
  ⟨_, rfl, sparse_file_len_written zeroEnv takesAll (fun _ _ => rfl)
    ⟨12, ⟨[⟨0, 1, 3, .data 0⟩], none, 4⟩⟩ true _ (by decide) rfl⟩

end SystemCore.Libsparse
