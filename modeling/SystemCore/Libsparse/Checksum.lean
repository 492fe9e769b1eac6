import SystemCore.Libsparse.HeaderCount

/-!
# The checksum of the writer and of the reader

The writer takes the data of every node into its checksum, and one block for every fill
chunk; the reader takes the whole expanded image. The two are the checksums of one byte
string when there are no gaps and every fill node has one block of whole words. In any other
layout they are checksums of different strings, which may be equal all the same.
-/
namespace SystemCore.Libsparse

def imageOf (env : Env) (s : SparseFile) : List UInt8 :=
  (imageChunks env s).flatMap (Chunk.expand s.blockSize.toNat)

/-- No part of the image is skipped, and every fill has one block of whole words. -/
structure Dense (env : Env) (s : SparseFile) : Prop where
  gaps : ∀ n, .dontCare n ∉ imageChunks env s
  fills : ∀ n v, .fill n v ∈ imageChunks env s → n = 1 ∧ 4 ∣ s.blockSize.toNat

theorem fillWords_eq (v : UInt32) (n : Nat) :
    (List.replicate n (wordBytes v)).flatten = readBytes (fillCopybuf v) (4 * n) := by
  induction n with
  | zero => rfl
  | succ n ih =>
    have hper : (fun i => fillCopybuf v (4 + i)) = fillCopybuf v := by
      funext i
      unfold fillCopybuf
      rw [Nat.add_mod_left]
    have hword : readBytes (fillCopybuf v) 4 = wordBytes v := by
      have h := readBytes_bufOf (wordBytes v)
      refine Eq.trans (List.map_congr_left ?_) h
      intro i hi
      unfold fillCopybuf bufOf
      rw [Nat.mod_eq_of_lt (List.mem_range.mp hi)]
    rw [List.replicate_succ, List.flatten_cons, ih, Nat.mul_succ, Nat.add_comm, readBytes_add,
      hper, hword]

variable {s : SparseFile} {bs : UInt32}

/-- A node that leaves no gap adds to the checksum what its chunk expands to. -/
theorem summed_eq_expand {len : UInt32} {c : Content}
    (hf : ∀ n v, c.chunk bs len = .fill n v → n = 1 ∧ 4 ∣ bs.toNat) :
    c.summed bs len = (c.chunk bs len).expand bs.toNat := by
  cases c with
  | data bytes => rfl
  | fill v =>
    obtain ⟨hn, hw⟩ := hf _ v rfl
    simp only [Content.summed, Content.chunk, Chunk.expand, fillSummed, fillWords_eq, hn,
      Nat.mul_div_cancel' hw]
    simp

variable {env : Env}

theorem blockChunks_summed {nodes : List BackedBlock} :
    ∀ {lastBlock : UInt32}, (∀ n, .dontCare n ∉ blockChunks env bs nodes lastBlock) →
      (∀ n v, .fill n v ∈ blockChunks env bs nodes lastBlock → n = 1 ∧ 4 ∣ bs.toNat) →
      nodes.flatMap (nodeSummed env bs) =
        (blockChunks env bs nodes lastBlock).flatMap (Chunk.expand bs.toNat) := by
  induction nodes with
  | nil => intro lastBlock _ _; rfl
  | cons bb rest ih =>
    intro lastBlock hg hf
    have hgap : gapChunks lastBlock bb.block = [] := by
      unfold gapChunks
      split
      · rename_i hlt
        exact absurd (by simp [blockChunks, gapChunks, hlt]) (hg (bb.block - lastBlock))
      · rfl
    rw [blockChunks, hgap, List.nil_append] at hg hf ⊢
    have hnode := @summed_eq_expand bs bb.len (content env bb)
      (fun n v h => hf n v (by rw [nodeChunk, h]; simp))
    rw [List.flatMap_cons, List.flatMap_cons, ← ih (fun n h => hg n (by simp [h]))
      (fun n v h => hf n v (by simp [h]))]
    exact congrArg (· ++ _) hnode

theorem Dense.summedOf_eq (h : Dense env s) : summedOf env s = imageOf env s := by
  have hend : endChunks s = [] := by
    unfold endChunks
    split
    · rename_i hp
      exact absurd (by simp [imageChunks, endChunks, hp])
        (h.gaps (lowWord (s.pad.tdiv s.blockSize.toNat)))
    · rfl
  rw [imageOf, imageChunks, hend, List.append_nil]
  have hg := h.gaps
  have hf := h.fills
  rw [imageChunks, hend, List.append_nil] at hg hf
  exact blockChunks_summed hg hf

/-- The image of the stream that a write leaves behind. -/
theorem streamImage_streamOf (hbs : 0 < s.blockSize.toNat) (hbs' : s.blockSize.toNat < 2 ^ 31)
    {most : Nat} (hw : ∀ bb ∈ s.list.dataBlocks, writable most env bb = true) (crc : Bool) :
    streamImage (streamOf env s crc) = some (imageOf env s) := by
  rw [streamOf, streamImage_bytes _ _ (chunksOf_payload hbs hbs' hw crc), chunksOf,
    List.flatMap_append]
  cases crc <;> simp [crcChunks, Chunk.expand, imageOf, headerOf]

/-- The reader can count the blocks of every chunk. -/
theorem Dense.blocks_lt (h : Dense env s) (hbs : 0 < s.blockSize.toNat) {most : Nat}
    (hw : ∀ bb ∈ s.list.dataBlocks, writable most env bb = true) :
    ∀ c ∈ imageChunks env s, c.blocks.toNat < 2 ^ 31 := by
  intro c hc
  rcases mem_imageChunks hc with ⟨n, rfl⟩ | ⟨bb, hb, rfl⟩
  · exact absurd hc (h.gaps n)
  have hstore := (Bool.and_eq_true_iff.mp (hw bb hb)).2
  unfold nodeChunk at hc ⊢
  cases hcon : content env bb with
  | data bytes =>
    rw [hcon] at hstore
    have hlen := (of_decide_eq_true hstore).1
    have hle : bb.len.toNat ⌈/⌉ s.blockSize.toNat ≤ bb.len.toNat :=
      ceilDiv_le_iff_le_mul hbs |>.mpr (Nat.le_mul_of_pos_left _ hbs)
    exact ((divRoundUp_le hbs).trans hle).trans_lt hlen
  | fill v =>
    rw [hcon] at hc
    change (divRoundUp bb.len s.blockSize).toNat < 2 ^ 31
    rw [(h.fills _ v hc).1]
    decide

/-- A file that is written with a checksum, to a device that takes every write, is imported
if nothing in it is skipped and every fill has one block of whole words. Where a read of
freed memory traps, no chunk may come behind a merged fill. -/
theorem import_accepts_crc (env : Env) (write : WriteCall) (hwrite : ∀ f n, write f n = some n)
    (freed : FreedRead) (s : SparseFile) (dev : FileDev) (fd : Int) (hbs : 0 < s.blockSize.toNat)
    (hs : Sorted s.blockSize s.list.dataBlocks) (hd : (s.blockSize.toNat : Int) ∣ s.len)
    (hwr : sparseFileWrite env write s true true = .ok (0, dev))
    (hcount : (chunksOf env s true).length < 2 ^ 32) (hdense : Dense env s)
    (hmerge : freed = .trap → MergesLast (imageChunks env s)) :
    streamImage dev.bytes = some (summedOf env s) ∧ Imported freed dev.bytes fd true := by
  obtain ⟨hbs', hw, hpad, hdev⟩ :=
    sparseFileWrite_inv (takes_of_all hwrite) true hbs (zeros_le_of_all s) hwr
  obtain ⟨hlen, hle⟩ := of_pad_nonneg hbs hpad
  have ha := headerOf_agrees hbs hbs' hlen hs hle hw hd hcount
  have hstream : dev.bytes = (headerOf s true).bytes ++
      (imageChunks env s ++ [Chunk.crc32 (sparseCrc32 0 (imageOf env s))]).flatMap Chunk.bytes := by
    rw [← hdense.summedOf_eq]
    exact hdev
  constructor
  · rw [hdev, streamImage_streamOf hbs hbs' hw, hdense.summedOf_eq]
  · rw [hstream]
    exact imported_crc fd freed ha (hdense.blocks_lt hbs hw) hmerge

/-- A block of data and two fills of one value, the second of which is merged. -/
theorem import_accepts_crc_merged :
    ∃ dev, sparseFileWrite zeroEnv takesAll
        ⟨12, ⟨[⟨0, 0, 4, .data 0⟩, ⟨1, 1, 4, .fill 1⟩, ⟨2, 2, 4, .fill 1⟩], none, 4⟩⟩ true true =
        .ok (0, dev) ∧ Imported .trap dev.bytes 3 true := by
  have hcs : imageChunks zeroEnv
      ⟨12, ⟨[⟨0, 0, 4, .data 0⟩, ⟨1, 1, 4, .fill 1⟩, ⟨2, 2, 4, .fill 1⟩], none, 4⟩⟩ =
      [.raw 1 [0, 0, 0, 0], .fill 1 1, .fill 1 1] := by decide
  refine ⟨_, rfl, (import_accepts_crc zeroEnv takesAll (fun _ _ => rfl) .trap
    ⟨12, ⟨[⟨0, 0, 4, .data 0⟩, ⟨1, 1, 4, .fill 1⟩, ⟨2, 2, 4, .fill 1⟩], none, 4⟩⟩ _ 3 (by decide)
    (by decide) (by decide) rfl (by decide) ⟨?_, ?_⟩ ?_).2⟩
  · intro n hn
    rw [hcs] at hn
    simp at hn
  · intro n v hn
    rw [hcs] at hn
    simp only [List.mem_cons, reduceCtorEq, Chunk.fill.injEq, List.not_mem_nil, or_false, or_self,
      false_or] at hn
    exact ⟨hn.1, by decide⟩
  · intro _
    rw [hcs]
    exact ⟨by decide, by decide⟩

/-- A fill of two blocks: the writer sums up one of them, and the reader rejects the
checksum. -/
theorem import_rejects_fill_crc :
    ∃ dev, sparseFileWrite zeroEnv takesAll ⟨8, ⟨[⟨0, 0, 8, .fill 1⟩], none, 4⟩⟩ true true =
        .ok (0, dev) ∧
      sparseFileImport (.live fun _ _ => 0) dev.bytes 3 0 true = .ok none := by
  exact ⟨_, rfl, by decide +kernel⟩

end SystemCore.Libsparse
