import SystemCore.Libsparse.Layout
import SystemCore.Libsparse.ReadStream

/-!
# The header against the chunks behind it

`sparse_count_chunks` and a division fill in the header before the chunks are written by
another loop. For a sorted list within its file the two agree exactly when the length of
the file is a multiple of the block size, up to a count that does not fit 32 bits.
-/
namespace SystemCore.Libsparse

open Lib.CeilDiv List SparseFile

section Blocks

variable {env : Env} {bs lastBlock block : UInt32} {cs : List Chunk}

theorem countLoop_eq (env : Env) (bs : UInt32) (nodes : List BackedBlock) (lastBlock chunks : UInt32) :
    countLoop bs nodes lastBlock chunks = (lastBlockOf bs nodes lastBlock,
      chunks + UInt32.ofNat (blockChunks env bs nodes lastBlock).length) := by
  induction nodes generalizing lastBlock chunks with
  | nil => simp [countLoop, lastBlockOf, blockChunks]
  | cons bb rest ih =>
    rw [countLoop, ih, lastBlockOf, blockChunks, gapChunks]
    congr 1
    split
    · simp only [length_append, length_cons, length_nil, UInt32.ofNat_add]
      grind
    · simp only [length_append, length_cons, length_nil, UInt32.ofNat_add]
      grind

@[simp] theorem Content.chunk_blocks (bs len : UInt32) (c : Content) :
    (c.chunk bs len).blocks = divRoundUp len bs := by
  cases c <;> rfl

@[simp] theorem Content.chunk_adds (bs len : UInt32) (c : Content) :
    (c.chunk bs len).adds = true := by
  cases c <;> rfl

theorem gapChunks_sum (h : lastBlock ≤ block) :
    lastBlock + ((gapChunks lastBlock block).map Chunk.blocks).sum = block := by
  unfold gapChunks
  split
  · simp only [map_cons, map_nil, sum_cons, sum_nil, Chunk.blocks]
    grind
  · rename_i hlt
    have : lastBlock = block := UInt32.le_antisymm h (UInt32.not_lt.mp hlt)
    simpa using this

/-- The chunks of the nodes cover all blocks up to `last_block`. -/
theorem blockChunks_sum (hbs : 0 < bs.toNat) {nodes : List BackedBlock} :
    ∀ {lastBlock : UInt32}, Sorted bs nodes → (∀ bb ∈ nodes, lastBlock ≤ bb.block) →
      lastBlock + ((blockChunks env bs nodes lastBlock).map Chunk.blocks).sum =
        lastBlockOf bs nodes lastBlock := by
  induction nodes with
  | nil => intro lastBlock _ _; simp [blockChunks, lastBlockOf]
  | cons bb rest ih =>
    intro lastBlock hs hl
    have hgap := gapChunks_sum (hl bb (by simp))
    have hrec := ih hs.tail (hs.nextBlock_le hbs)
    rw [blockChunks, lastBlockOf, ← hrec, map_append, sum_append, ← UInt32.add_assoc,
      hgap, map_cons, sum_cons, nodeChunk, Content.chunk_blocks, ← UInt32.add_assoc]
    rfl

theorem inOrder_of_skips (h : ∀ c ∈ cs, c.adds = false) :
    ∀ (top : Option UInt32) (cur : UInt32), InOrder top cur cs := by
  induction cs with
  | nil => intro top cur; exact True.intro
  | cons c cs ih =>
    intro top cur
    exact ⟨by simp [h c (by simp)], ih (fun d hd => h d (by simp [hd])) _ _⟩

theorem inOrder_gap (hle : lastBlock ≤ block) {top : Option UInt32} (h : InOrder top block cs) :
    InOrder top lastBlock (gapChunks lastBlock block ++ cs) := by
  unfold gapChunks
  split
  · refine ⟨by simp [Chunk.adds], ?_⟩
    have hb : lastBlock + (block - lastBlock) = block := by grind
    simpa [Chunk.adds, Chunk.blocks, hb] using h
  · rename_i hlt
    rw [UInt32.le_antisymm hle (UInt32.not_lt.mp hlt)]
    exact h

/-- The nodes of a sorted list are written at rising block numbers. -/
theorem inOrder_blockChunks (hbs : 0 < bs.toNat) {nodes : List BackedBlock} {skips : List Chunk}
    (hsk : ∀ c ∈ skips, c.adds = false) :
    ∀ {top : Option UInt32} {lastBlock : UInt32}, Sorted bs nodes →
      (∀ bb ∈ nodes, lastBlock ≤ bb.block) → (∀ t ∈ top, ∀ bb ∈ nodes, t < bb.block) →
      InOrder top lastBlock (blockChunks env bs nodes lastBlock ++ skips) := by
  induction nodes with
  | nil => intro top lastBlock _ _ _; exact inOrder_of_skips hsk _ _
  | cons bb rest ih =>
    intro top lastBlock hs hl ht
    rw [blockChunks, append_assoc]
    apply inOrder_gap (hl bb (by simp))
    refine ⟨fun _ t htop => ht t htop bb (by simp), ?_⟩
    rw [nodeChunk, Content.chunk_adds, Content.chunk_blocks, if_pos rfl]
    exact ih hs.tail (hs.nextBlock_le hbs) (by
      intro t htop b hb
      obtain rfl := Option.mem_some.mp htop
      exact hs.head_lt b hb)

theorem lastBlockOf_le (hbs : 0 < bs.toNat) {nodes : List BackedBlock} {n : Nat} :
    ∀ {lastBlock : UInt32}, (∀ bb ∈ nodes, endBlock bs bb ≤ n) → lastBlock.toNat ≤ n →
      (lastBlockOf bs nodes lastBlock).toNat ≤ n := by
  induction nodes with
  | nil => intro lastBlock _ h; exact h
  | cons bb rest ih =>
    intro lastBlock hr _
    exact ih (fun b hb => hr b (by simp [hb])) ((nextBlock_le hbs bb).trans (hr bb (by simp)))

theorem padded_length (hbs : 0 < bs.toNat) (hbs' : bs.toNat < 2 ^ 31) {len : UInt32}
    (hlen : len.toNat < 2 ^ 31) (data : Nat → UInt8) :
    (padded bs len data).length = (align len bs).toNat := by
  have h := (align_sub_toNat (x := len) hbs (by omega)).1
  rw [padded, length_append, readBytes_length, length_replicate]
  omega

/-- The chunk of a writable node holds as much data as its header says. -/
theorem nodeChunk_image (hbs : 0 < bs.toNat) (hbs' : bs.toNat < 2 ^ 31) {bb : BackedBlock}
    {most : Nat} (hw : writable most env bb = true) : (nodeChunk env bs bb).Image bs := by
  rw [writable, Bool.and_eq_true] at hw
  unfold nodeChunk
  cases hc : content env bb with
  | fill v => exact True.intro
  | data bytes =>
    rw [hc] at hw
    have hl := padded_length hbs hbs' (of_decide_eq_true hw.2).1 bytes
    refine ⟨?_, ?_⟩
    · rw [hl, align_toNat, Nat.mul_comm]
    · rw [hl]
      exact UInt32.toNat_lt _

end Blocks

section File

variable {most : Nat} {env : Env} {s : SparseFile}
  (hbs : 0 < s.blockSize.toNat) (hbs' : s.blockSize.toNat < 2 ^ 31) (hlen : 0 ≤ s.len)
  (hs : Sorted s.blockSize s.list.dataBlocks) (hle : s.lastBlock.toNat ≤ s.blocks)
  (hw : ∀ bb ∈ s.list.dataBlocks, writable most env bb = true) (hd : (s.blockSize.toNat : Int) ∣ s.len)

include hbs hlen in
theorem total_eq : (s.len + s.blockSize.toNat - 1).tdiv s.blockSize.toNat = s.blocks := by
  have h : s.len + s.blockSize.toNat - 1 = ((s.len.toNat + s.blockSize.toNat - 1 : Nat) : Int) := by
    omega
  rw [h, ← Int.ofNat_tdiv, blocks, Nat.ceilDiv_eq_add_pred_div]

include hbs hlen in
theorem countedChunks_eq (env : Env) :
    countedChunks s = UInt32.ofNat ((blockChunks env s.blockSize s.list.dataBlocks 0).length +
      if s.lastBlock.toNat < s.blocks then 1 else 0) := by
  unfold countedChunks
  rw [countLoop_eq env]
  simp only [total_eq hbs hlen, Int.ofNat_lt, ← lastBlock.eq_1]
  split <;> simp

include hbs in
theorem lastBlock_le (hr : s.InRange) : s.lastBlock.toNat ≤ s.blocks :=
  lastBlockOf_le hbs hr (Nat.zero_le _)

include hbs in
/-- A file that does not end before its last node. -/
theorem of_pad_nonneg (hpad : 0 ≤ s.pad) : 0 ≤ s.len ∧ s.lastBlock.toNat ≤ s.blocks := by
  have h : ((s.lastBlock.toNat * s.blockSize.toNat : Nat) : Int) ≤ s.len := by
    rw [pad] at hpad
    omega
  refine ⟨(Int.natCast_nonneg _).trans h, ?_⟩
  have hn : s.lastBlock.toNat * s.blockSize.toNat ≤ s.len.toNat := by omega
  have hc := hn.trans (le_mul_ceilDiv hbs s.len.toNat)
  rw [Nat.mul_comm] at hc
  exact Nat.le_of_mul_le_mul_left hc hbs

include hlen hd in
theorem dvd_toNat : s.blockSize.toNat ∣ s.len.toNat := by
  rw [← Int.natCast_dvd_natCast, Int.toNat_of_nonneg hlen]
  exact hd

include hbs hlen hle hd in
/-- Behind the nodes of an aligned file lie whole blocks. -/
theorem pad_of_dvd : s.pad = ((s.blocks - s.lastBlock.toNat) * s.blockSize.toNat : Nat) := by
  have hT := mul_ceilDiv_of_dvd hbs (dvd_toNat hlen hd)
  have hm := Nat.mul_le_mul_left s.blockSize.toNat hle
  have hsub := Nat.mul_sub_right_distrib s.blocks s.lastBlock.toNat s.blockSize.toNat
  rw [hsub, Int.ofNat_sub (by rw [Nat.mul_comm, Nat.mul_comm s.blocks]; exact hm), pad]
  rw [← blocks] at hT
  have : s.len = ((s.blocks * s.blockSize.toNat : Nat) : Int) := by
    rw [Nat.mul_comm, hT]
    omega
  rw [this]
  push_cast
  ring

include hbs hlen hle hd in
theorem endChunks_of_dvd :
    endChunks s = if s.lastBlock.toNat < s.blocks then
        [.dontCare (lowWord ((s.blocks - s.lastBlock.toNat : Nat) : Int))]
      else [] := by
  unfold endChunks
  rw [pad_of_dvd hbs hlen hle hd, natCast_mul_tmod, natCast_mul_tdiv hbs]
  by_cases h : s.lastBlock.toNat < s.blocks
  · have hp := Nat.mul_pos (Nat.sub_pos_of_lt h) hbs
    rw [if_pos h, if_pos ⟨by omega, rfl⟩]
  · rw [if_neg h, if_neg]
    rintro ⟨hp, -⟩
    rw [Nat.sub_eq_zero_of_le (by omega), Nat.zero_mul] at hp
    exact absurd hp (by decide)

/-- The rest of a file that is not aligned gets no skip chunk. -/
theorem endChunks_of_not_dvd (hd : ¬ (s.blockSize.toNat : Int) ∣ s.len) : endChunks s = [] := by
  unfold endChunks
  rw [if_neg]
  rintro ⟨-, hm⟩
  apply hd
  have h := Int.dvd_of_tmod_eq_zero hm
  rw [pad] at h
  have h' := Int.dvd_add h (Dvd.intro_left (s.lastBlock.toNat : Int) rfl)
  rwa [Int.sub_add_cancel] at h'

include hbs hlen in
theorem lastBlock_lt_of_not_dvd (hd : ¬ (s.blockSize.toNat : Int) ∣ s.len) (hpad : 0 ≤ s.pad) :
    s.lastBlock.toNat < s.blocks := by
  rw [blocks, lt_ceilDiv_iff hbs]
  rw [pad] at hpad
  have hne : s.len ≠ s.lastBlock.toNat * s.blockSize.toNat := by
    intro h
    exact hd ⟨s.lastBlock.toNat, by rw [h]; ring⟩
  have : ((s.blockSize.toNat * s.lastBlock.toNat : Nat) : Int) < s.len.toNat := by
    push_cast
    rw [Int.mul_comm]
    omega
  exact_mod_cast this

include hbs hlen hs hle hd in
/-- The chunks of an aligned file cover all its blocks. -/
theorem imageChunks_sum (env : Env) :
    ((imageChunks env s).map Chunk.blocks).sum = lowWord (s.len.tdiv s.blockSize.toNat) := by
  have hsum := @blockChunks_sum env _ hbs _ 0 hs
    (fun bb _ => Nat.zero_le _)
  rw [UInt32.zero_add] at hsum
  have hq : s.len.tdiv s.blockSize.toNat = (s.blocks : Int) := by
    rw [blocks, ceilDiv_of_dvd hbs (dvd_toNat hlen hd), Int.ofNat_tdiv,
      Int.toNat_of_nonneg hlen]
  rw [imageChunks, map_append, sum_append, hsum, hq, endChunks_of_dvd hbs hlen hle hd,
    ← lastBlock]
  apply UInt32.toNat_inj.mp
  split
  · simp only [map_cons, map_nil, sum_cons, sum_nil, Chunk.blocks]
    rw [UInt32.add_zero, UInt32.toNat_add, lowWord_natCast, lowWord_natCast]
    omega
  · simp only [map_nil, sum_nil]
    rw [UInt32.add_zero, lowWord_natCast]
    have := s.lastBlock.toNat_lt
    have hB : s.lastBlock.toNat = s.blocks := by omega
    omega

theorem mem_blockChunks {bs : UInt32} {c : Chunk} {nodes : List BackedBlock} :
    ∀ {lastBlock : UInt32}, c ∈ blockChunks env bs nodes lastBlock →
      (∃ n, c = .dontCare n) ∨ ∃ bb ∈ nodes, c = nodeChunk env bs bb := by
  induction nodes with
  | nil => intro lastBlock hc; cases hc
  | cons bb rest ih =>
    intro lastBlock hc
    rw [blockChunks, mem_append, mem_cons] at hc
    rcases hc with hc | rfl | hc
    · unfold gapChunks at hc
      split at hc
      · exact .inl ⟨_, mem_singleton.mp hc⟩
      · cases hc
    · exact .inr ⟨bb, mem_cons_self, rfl⟩
    · rcases ih hc with h | ⟨n, hn, h⟩
      · exact .inl h
      · exact .inr ⟨n, mem_cons_of_mem bb hn, h⟩

/-- The chunks of an image are those of its nodes, and the gaps. -/
theorem mem_imageChunks {c : Chunk} (hc : c ∈ imageChunks env s) :
    (∃ n, c = .dontCare n) ∨ ∃ bb ∈ s.list.dataBlocks, c = nodeChunk env s.blockSize bb := by
  rcases mem_append.mp hc with hc | hc
  · exact mem_blockChunks hc
  · unfold endChunks at hc
    split at hc
    · exact .inl ⟨_, mem_singleton.mp hc⟩
    · cases hc

include hbs hbs' hw in
theorem imageChunks_image : ∀ c ∈ imageChunks env s, c.Image s.blockSize := by
  intro c hc
  rcases mem_imageChunks hc with ⟨n, rfl⟩ | ⟨bb, hb, rfl⟩
  · exact True.intro
  · exact nodeChunk_image hbs hbs' (hw bb hb)

include hbs hs in
theorem imageChunks_inOrder : InOrder none 0 (imageChunks env s) := by
  refine inOrder_blockChunks hbs ?_ hs (fun bb _ => Nat.zero_le _) (by simp)
  intro c hc
  unfold endChunks at hc
  split at hc
  · obtain rfl := mem_singleton.mp hc
    rfl
  · cases hc

/-- The chunks that a file with a checksum has behind those of the image. -/
def extraChunks (crc : Bool) : Nat := if crc then 1 else 0

theorem crcChunks_length (env : Env) (s : SparseFile) (crc : Bool) :
    (crcChunks env s crc).length = extraChunks crc := by
  cases crc <;> rfl

include hbs hlen hle hd in
theorem headerOf_totalChunks (env : Env) (crc : Bool) :
    (headerOf s crc).totalChunks = UInt32.ofNat (chunksOf env s crc).length := by
  have hc : countedChunks s = UInt32.ofNat (imageChunks env s).length := by
    rw [countedChunks_eq hbs hlen env, imageChunks, endChunks_of_dvd hbs hlen hle hd,
      length_append]
    split <;> rfl
  rw [chunksOf, length_append, crcChunks_length, UInt32.ofNat_add, ← hc]
  cases crc <;> simp [headerOf, extraChunks]

include hbs hlen in
/-- In the header of any other file the count is one too high. -/
theorem headerOf_totalChunks_of_not_dvd (hd : ¬ (s.blockSize.toNat : Int) ∣ s.len)
    (hpad : 0 ≤ s.pad) (env : Env) (crc : Bool) :
    (headerOf s crc).totalChunks = UInt32.ofNat ((chunksOf env s crc).length + 1) := by
  have hc : countedChunks s = UInt32.ofNat ((imageChunks env s).length + 1) := by
    rw [countedChunks_eq hbs hlen env, imageChunks, endChunks_of_not_dvd hd, append_nil,
      if_pos (lastBlock_lt_of_not_dvd hbs hlen hd hpad)]
  rw [chunksOf, length_append, crcChunks_length, Nat.add_right_comm, UInt32.ofNat_add, ← hc]
  cases crc <;> simp [headerOf, extraChunks]

include hbs hbs' hlen hs hle hw hd in
/-- The header of an aligned file agrees with the chunks behind it, as long as their
number fits. -/
theorem headerOf_agrees {crc : Bool} (hcount : (chunksOf env s crc).length < 2 ^ 32) :
    Agrees (headerOf s crc) (imageChunks env s) (extraChunks crc) where
  accepted := rfl
  fileHdrSz := rfl
  chunkHdrSz := rfl
  blkSz := by
    change s.blockSize ≠ 0
    intro h
    rw [h] at hbs
    exact absurd hbs (by decide)
  totalChunks := by
    rw [headerOf_totalChunks hbs hlen hle hd env, UInt32.toNat_ofNat', Nat.mod_eq_of_lt hcount,
      chunksOf, length_append, crcChunks_length]
  totalBlks := (imageChunks_sum hbs hlen hs hle hd env).symm
  order := imageChunks_inOrder hbs hs
  image := imageChunks_image hbs hbs' hw

include hbs hbs' hw in
theorem chunksOf_payload (crc : Bool) : ∀ c ∈ chunksOf env s crc, c.payload.length < 2 ^ 32 := by
  intro c hc
  cases c with
  | fill n v => simp [Chunk.payload]
  | dontCare n => simp [Chunk.payload]
  | crc32 w => simp [Chunk.payload]
  | raw n data =>
    rcases mem_append.mp hc with hc | hc
    · exact (imageChunks_image hbs hbs' hw _ hc).2
    · cases crc <;> simp [crcChunks] at hc

end File

/-- The header counts the chunk headers behind it, and their blocks as the reader adds
them up. -/
def HeaderConsistent (stream : List UInt8) : Prop :=
  ∃ cs, streamChunks stream = some cs ∧ (streamHeader stream).totalChunks.toNat = cs.length ∧
    (streamHeader stream).totalBlks = (cs.map Chunk.blocks).sum

/-- For a write that reports no error on a device that takes every write, the header is
consistent exactly for files of whole blocks with fewer than `2^32` chunks. A stream without
a checksum is then accepted by the reader exactly when no chunk has `2^31` blocks. -/
theorem write_headerConsistent_iff (env : Env) (write : WriteCall)
    (hwrite : ∀ f n, write f n = some n) (s : SparseFile) (crc : Bool)
    (pick : List BackedBlock → BackedBlock → Nat) (fd : Int) (hbs : 0 < s.blockSize.toNat)
    (hlen : 0 ≤ s.len) (hs : Sorted s.blockSize s.list.dataBlocks) (hr : s.InRange)
    (hret : ∀ ret dev, sparseFileWrite env write s true crc = .ok (ret, dev) → ret = 0) :
    (∃ dev, sparseFileWrite env write s true crc = .ok (0, dev) ∧ HeaderConsistent dev.bytes ∧
        (crc = false → Imported (.live pick) dev.bytes fd false)) ↔
      (s.blockSize.toNat : Int) ∣ s.len ∧ (chunksOf env s crc).length < 2 ^ 32 ∧
        (crc = false → ∀ c ∈ imageChunks env s, c.blocks.toNat < 2 ^ 31) := by
  have htakes := takes_of_all hwrite
  have hok : s.blockSize.toNat < 2 ^ 31 ∧
      ∀ bb ∈ s.list.dataBlocks, writable (2 ^ 32) env bb = true := by
    by_contra hc
    obtain ⟨ret, dev, hne, h⟩ := sparseFileWrite_fails htakes crc true hbs (by
      by_contra hn
      push Not at hn
      exact hc ⟨hn.1, fun bb hb => by simpa using hn.2 bb hb⟩)
    exact hne (hret ret dev h)
  obtain ⟨hbs', hw⟩ := hok
  have hle := lastBlock_le hbs hr
  have hpay := chunksOf_payload hbs hbs' hw crc
  constructor
  · rintro ⟨dev, hwr, ⟨cs, hcs, htc, -⟩, himp⟩
    obtain ⟨-, -, hpad, hdev⟩ := sparseFileWrite_inv htakes crc hbs (zeros_le_of_all s) hwr
    rw [hdev, streamOf, streamChunks_bytes _ _ hpay] at hcs
    obtain rfl := Option.some.inj hcs
    rw [hdev, streamOf, streamHeader_bytes] at htc
    have hd : (s.blockSize.toNat : Int) ∣ s.len := by
      by_contra hd
      rw [headerOf_totalChunks_of_not_dvd hbs hlen hd hpad env, UInt32.toNat_ofNat'] at htc
      omega
    have hcount : (chunksOf env s crc).length < 2 ^ 32 := htc ▸ UInt32.toNat_lt _
    refine ⟨hd, hcount, ?_⟩
    rintro rfl
    have ha := headerOf_agrees hbs hbs' hlen hs hle hw hd hcount
    have h := himp rfl
    rw [hdev, streamOf, chunksOf, crcChunks] at h
    simp only [Bool.false_eq_true, if_false, append_nil] at h
    exact (imported_iff pick fd ha).mp h
  · rintro ⟨hd, hcount, hn⟩
    have ha := headerOf_agrees hbs hbs' hlen hs hle hw hd hcount
    have hpad : 0 ≤ s.pad := by
      rw [pad_of_dvd hbs hlen hle hd]
      exact Int.natCast_nonneg _
    obtain ⟨dev, hwr, hdev⟩ := sparseFileWrite_stream htakes crc hbs hbs' hw
      (zeros_le_of_all s) hpad
    refine ⟨dev, hwr, ⟨chunksOf env s crc, ?_, ?_, ?_⟩, ?_⟩
    · rw [hdev, streamOf, streamChunks_bytes _ _ hpay]
    · rw [hdev, streamOf, streamHeader_bytes, ha.totalChunks, chunksOf, length_append,
        crcChunks_length]
    · rw [hdev, streamOf, streamHeader_bytes, ha.totalBlks, chunksOf, map_append,
        sum_append]
      cases crc <;> simp [crcChunks, Chunk.blocks]
    · rintro rfl
      rw [hdev, streamOf, chunksOf, crcChunks]
      simp only [Bool.false_eq_true, if_false, append_nil]
      exact (imported_iff pick fd ha).mpr (hn rfl)

theorem write_headerConsistent_fill :
    ∃ dev, sparseFileWrite zeroEnv takesAll ⟨12288, ⟨[⟨0, 1, 4096, .fill 7⟩], none, 4096⟩⟩
        true false = .ok (0, dev) ∧ HeaderConsistent dev.bytes ∧
      (false = false → Imported (.live fun _ _ => 0) dev.bytes 3 false) := by
  refine (write_headerConsistent_iff zeroEnv takesAll (fun _ _ => rfl)
    ⟨12288, ⟨[⟨0, 1, 4096, .fill 7⟩], none, 4096⟩⟩ false (fun _ _ => 0) 3 (by decide) (by decide)
    (by decide) ?_ ?_).mpr ⟨by decide, by decide, fun _ => by decide⟩
  · intro bb hb
    obtain rfl := mem_singleton.mp hb
    decide
  · intro ret dev h
    cases h
    rfl

/-- A file of 5000 bytes with one block of 4096 filled: the header promises a second
chunk, and no more than the first is written. -/
theorem write_header_counts_refused_chunk :
    ∃ dev, sparseFileWrite zeroEnv takesAll ⟨5000, ⟨[⟨0, 0, 4096, .fill 7⟩], none, 4096⟩⟩
        true false = .ok (0, dev) ∧
      (streamHeader dev.bytes).totalChunks = 2 ∧
      streamChunks dev.bytes = some [.fill 1 7] ∧ ¬ HeaderConsistent dev.bytes := by
  have hh : ∀ stream : List UInt8, (streamHeader stream).totalChunks = 2 →
      streamChunks stream = some [.fill 1 7] → ¬ HeaderConsistent stream := by
    rintro stream h1 h2 ⟨cs, hcs, htc, -⟩
    rw [h2] at hcs
    rw [h1, ← Option.some.inj hcs] at htc
    exact absurd htc (by decide)
  exact ⟨_, rfl, by decide, by decide, hh _ (by decide) (by decide)⟩

end SystemCore.Libsparse
