import SystemCore.Libsparse.NormalRead

/-!
# From an image to a sparse stream and back

An image is read, written as a sparse stream, imported and written as an image again.
The reader of the stream rebuilds the tiling of the image: its fd nodes are the raw
chunks, at the place of their data in the stream. The image comes back exactly when every
piece of it that goes to `write` in one call is taken as a whole.
-/
namespace SystemCore.Libsparse

open List

def fdEnv (fd : Int) (bytes : List UInt8) : Env :=
  ⟨fun _ => 0, fun d => if d = fd then some (bufOf bytes) else none, fun _ => none⟩

theorem fdEnv_fds (fd : Int) (bytes : List UInt8) : (fdEnv fd bytes).fds fd = some (bufOf bytes) :=
  if_pos rfl

structure Chunk.Block (bs : UInt32) (c : Chunk) : Prop where
  adds : c.adds = true
  image : c.Image bs
  pos : 0 < c.blocks.toNat

variable {nodes : List BackedBlock} {bs : UInt32} {img : List UInt8} {cs : List Chunk}
  (pick pick' : List BackedBlock → BackedBlock → Nat)

section Reading

variable {env : Env} {fd : Int} {bs : UInt32} {file : List UInt8} {newBb : BackedBlock}
  {st st' : ChunkLoop} {c : Chunk}

/-- The nodes of a reader of the stream: fills, and pieces of what it has read. -/
def FromStream (fd : Int) (pos : Nat) (bb : BackedBlock) : Prop :=
  (∃ o : Nat, bb.backing = .fd fd o ∧ o + bb.len.toNat ≤ pos ∧ bb.len.toNat ≤ maxRwCount) ∨
    ∃ v, bb.backing = .fill v

/-- The reader behind chunks that expand to `img`. -/
structure StreamRead (env : Env) (fd : Int) (bs : UInt32) (k : Nat) (img : List UInt8)
    (st : ChunkLoop) : Prop where
  blockSize : st.reader.s.blockSize = bs
  curBlock : st.curBlock.toNat = k
  tiles : Tiles bs 0 st.reader.s.list.dataBlocks k
  nodes : ∀ bb ∈ st.reader.s.list.dataBlocks, FromStream fd st.reader.pos bb
  image : st.reader.s.list.dataBlocks.flatMap (nodeImage env) = img

/-- The node that the reader queues for a chunk. -/
structure Queued (env : Env) (fd : Int) (bs : UInt32) (c : Chunk) (st st' : ChunkLoop)
    (newBb : BackedBlock) : Prop
    extends NodeOf fd bs (st.reader.pos + 12) st.reader.fresh st.curBlock c newBb where
  len_eq : newBb.len.toNat = c.blocks.toNat * bs.toNat
  nodes : st'.reader.s.list.dataBlocks = snocBb bs st.reader.s.list.dataBlocks newBb
  image : nodeImage env newBb = c.expand bs.toNat
  fromStream : FromStream fd st'.reader.pos newBb

theorem ReadsChunk.queued {rest : List UInt8} (hr : ReadsChunk fd c st st')
    (hb : st.reader.s.blockSize = bs) (hbs : 0 < bs.toNat)
    (hmul : (c.blocks * bs).toNat = c.blocks.toNat * bs.toNat)
    (hfd : env.fds fd = some (bufOf file)) (hc : c.Block bs) (hmost : c.payload.length ≤ maxRwCount)
    (hfile : file.drop st.reader.pos = c.bytes ++ rest) :
    ∃ newBb, Queued env fd bs c st st' newBb := by
  subst hb
  obtain ⟨bb, hnode, hnodes⟩ := hr.node hc.adds
  have hlen := (congrArg UInt32.toNat hnode.len).trans hmul
  suffices h : nodeImage env bb = c.expand st.reader.s.blockSize.toNat ∧
      FromStream fd st'.reader.pos bb from ⟨bb, hnode, hlen, hnodes, h.1, h.2⟩
  rcases hnode.backing with ⟨n, data, rfl, hback⟩ | ⟨n, v, rfl, hback⟩
  · have hpos := hr.pos
    rw [Chunk.bytes_length] at hpos
    have hdata : bb.len.toNat = data.length := hlen.trans hc.image.1.symm
    have hdrop : file.drop (st.reader.pos + 12) = data ++ rest :=
      drop_add_of_drop hfile (ChunkHeader.bytes_length _)
    have hle : st.reader.pos + 12 + data.length ≤ file.length := by
      have hpos : 0 < data.length := hc.image.1 ▸ Nat.mul_pos hc.pos hbs
      have := congrArg List.length hdrop
      rw [length_drop, length_append] at this
      omega
    refine ⟨?_, .inl ⟨st.reader.pos + 12, hback, ?_, hdata.trans_le hmost⟩⟩
    · simp only [nodeImage, content, hback, hfd, hdata, Chunk.expand]
      refine (readBytes_bufOf_drop hle).trans ?_
      rw [hdrop, take_left' rfl]
    · rw [hpos, hdata, Chunk.payload]
      omega
  · refine ⟨?_, .inr ⟨v, hback⟩⟩
    simp only [nodeImage, content, hback, hlen]
    rfl

/-- Only fills go together. -/
theorem Queued.mergeable {last : BackedBlock} (hq : Queued env fd bs c st st' newBb)
    (hl : FromStream fd st.reader.pos last) (hm : mergeable bs last newBb = true) :
    ∃ v, last.backing = .fill v := by
  rw [Libsparse.mergeable, Bool.and_eq_true] at hm
  obtain ⟨-, v, -, hv⟩ := hq.fill_of_compatible (fun d o hb => by
    rcases hl with ⟨o', ho, hle, -⟩ | ⟨v, hv⟩
    · rw [ho] at hb
      obtain ⟨-, rfl⟩ := Backing.fd.inj hb
      omega
    · rw [hv] at hb
      cases hb) hm.2
  exact ⟨v, hv⟩

theorem Queued.snoc (hq : Queued env fd bs c st st' newBb) (hle : st.reader.pos ≤ st'.reader.pos)
    (hl : ∀ bb ∈ st.reader.s.list.dataBlocks, FromStream fd st.reader.pos bb) :
    ∀ bb ∈ st'.reader.s.list.dataBlocks, FromStream fd st'.reader.pos bb := by
  rw [hq.nodes]
  refine forall_snocBb ?_ hq.fromStream ?_
  · intro bb hb
    rcases hl bb hb with ⟨o, ho, h, hmost⟩ | hv
    · exact .inl ⟨o, ho, h.trans hle, hmost⟩
    · exact .inr hv
  · intro last hlast hm
    obtain ⟨v, hv⟩ := hq.mergeable (hl last (mem_of_getLast? hlast)) hm
    exact .inr ⟨v, hv⟩

/-- The reader behind one more chunk, whose node is queued. -/
theorem StreamRead.queue (hbs : 0 < bs.toNat) (h4 : 4 ∣ bs.toNat) {k : Nat}
    (h : StreamRead env fd bs k img st) (hpos : 0 < c.blocks.toNat)
    (hsmall : (k + c.blocks.toNat) * bs.toNat < 2 ^ 31) (hr : ReadsChunk fd c st st')
    (hq : Queued env fd bs c st st' newBb) :
    StreamRead env fd bs (k + c.blocks.toNat) (img ++ c.expand bs.toNat) st' := by
  have hold : ∀ bb ∈ st.reader.s.list.dataBlocks,
      bb.backing.type ≠ .file ∧ 0 ≤ bb.backing.offset := by
    intro bb hb
    refine offset_nonneg ((h.nodes bb hb).imp_left ?_)
    rintro ⟨o, ho, -⟩
    exact ⟨fd, o, ho⟩
  have hsum : k * bs.toNat + newBb.len.toNat < 2 ^ 32 := by
    rw [hq.len_eq, ← Nat.add_mul]
    omega
  have hat : newBb.block.toNat = k := by
    rw [hq.block]
    exact h.curBlock
  have htiles := h.tiles.snoc hat (by rw [hq.len_eq]; exact Nat.mul_pos hpos hbs)
    (by rw [hq.len_eq]; exact Nat.dvd_mul_left _ _) hsum
  rw [hq.len_eq, Nat.mul_div_cancel _ hbs, ← hq.nodes] at htiles
  constructor
  case blockSize => exact hr.blockSize.trans h.blockSize
  case curBlock =>
    rw [hr.curBlock, UInt32.toNat_add, h.curBlock]
    have := Nat.le_mul_of_pos_right (k + c.blocks.toNat) hbs
    exact Nat.mod_eq_of_lt (by omega)
  case tiles => exact htiles
  case nodes => exact hq.snoc (by rw [hr.pos]; exact Nat.le_add_right _ _) h.nodes
  case image => rw [hq.nodes, nodesImage_snoc env h4 h.tiles hsum hold, h.image, hq.image]

theorem StreamRead.step (hfd : env.fds fd = some (bufOf file)) (hbs : 0 < bs.toNat)
    (h4 : 4 ∣ bs.toNat) {k : Nat} {rest : List UInt8} (h : StreamRead env fd bs k img st)
    (hc : c.Block bs) (hmost : c.payload.length ≤ maxRwCount)
    (hsmall : (k + c.blocks.toNat) * bs.toNat < 2 ^ 31)
    (hfile : file.drop st.reader.pos = c.bytes ++ rest) (hr : ReadsChunk fd c st st') :
    StreamRead env fd bs (k + c.blocks.toNat) (img ++ c.expand bs.toNat) st' := by
  have hmul : (c.blocks * bs).toNat = c.blocks.toNat * bs.toNat := by
    rw [UInt32.toNat_mul]
    rw [Nat.add_mul] at hsmall
    exact Nat.mod_eq_of_lt (by omega)
  obtain ⟨newBb, hq⟩ := hr.queued h.blockSize hbs hmul hfd hc hmost hfile
  exact h.queue hbs h4 hc.pos hsmall hr hq

def blocksIn (cs : List Chunk) : Nat := (cs.map fun c => c.blocks.toNat).sum

theorem StreamRead.reads (hfd : env.fds fd = some (bufOf file)) (hbs : 0 < bs.toNat)
    (h4 : 4 ∣ bs.toNat) (hr : Reads fd cs st st') :
    ∀ {k : Nat} {img rest : List UInt8}, StreamRead env fd bs k img st →
      (∀ c ∈ cs, c.Block bs) → (∀ c ∈ cs, c.payload.length ≤ maxRwCount) →
      (k + blocksIn cs) * bs.toNat < 2 ^ 31 →
      file.drop st.reader.pos = cs.flatMap Chunk.bytes ++ rest →
      StreamRead env fd bs (k + blocksIn cs) (img ++ cs.flatMap (Chunk.expand bs.toNat)) st' := by
  induction hr with
  | nil st =>
    intro k img rest h _ _ _ _
    simpa [blocksIn] using h
  | cons hc hr ih =>
    rename_i c cs st st1 st2
    intro k img rest h hcs hmost hsmall hfile
    have hb : blocksIn (c :: cs) = c.blocks.toNat + blocksIn cs := by simp [blocksIn]
    rw [hb, ← Nat.add_assoc] at hsmall ⊢
    rw [flatMap_cons, append_assoc] at hfile
    have h1 := h.step hfd hbs h4 (hcs c (by simp)) (hmost c (by simp))
      ((Nat.mul_le_mul_right _ (Nat.le_add_right _ _)).trans_lt hsmall) hfile hc
    rw [flatMap_cons, ← append_assoc]
    exact ih h1 (fun d hd => hcs d (by simp [hd])) (fun d hd => hmost d (by simp [hd])) hsmall
      (by rw [hc.pos]; exact drop_add_of_drop hfile rfl)

end Reading

/-! ## The whole way -/

/-- The image comes back over files of Linux: every step on the way returns without an
error. -/
def RoundTrip (pick pick' : List BackedBlock → BackedBlock → Nat) (fd fd' : Int) (bs : UInt32)
    (img : List UInt8) : Prop :=
  ∃ s fresh stream s' out,
    sparseFileReadNormal (.live pick) img fd (sparseFileNew bs img.length) 0 0 = .ok (s, fresh) ∧
    sparseFileWrite (fdEnv fd img) linuxWrite s true false = .ok (0, stream) ∧
    sparseFileImport (.live pick') stream.bytes fd' 0 false = .ok (some s') ∧
    sparseFileWrite (fdEnv fd' stream.bytes) linuxWrite s' false false = .ok (0, out) ∧
    out.bytes = img

theorem Tiles.sum {lo hi : Nat} (h : Tiles bs lo nodes hi) :
    lo + (nodes.map fun bb => bb.len.toNat / bs.toNat).sum = hi := by
  induction nodes generalizing lo with
  | nil => exact h.symm
  | cons bb rest ih =>
    rw [map_cons, sum_cons, ← Nat.add_assoc]
    exact ih h.2.2.2

namespace TiledFile

variable {env : Env} {s : SparseFile} {n : Nat} (h : TiledFile s n)

include h

/-- The length that a reader computes from the header of the file. -/
theorem header_len :
    toInt64 ((headerOf s false).totalBlks.toNat * (headerOf s false).blkSz.toNat) = s.len := by
  have hq : s.len.tdiv s.blockSize.toNat = (n : Int) := by rw [h.len, natCast_mul_tdiv h.pos]
  have hn := Nat.le_mul_of_pos_right n h.pos
  have hsmall := h.small
  have hlow : (headerOf s false).totalBlks.toNat = n := by
    change (lowWord (s.len.tdiv s.blockSize.toNat)).toNat = n
    rw [hq, lowWord_natCast]
    omega
  rw [hlow, h.len, ← Int.natCast_mul]
  exact toInt64_of_lt (by change n * s.blockSize.toNat < 2 ^ 63; omega)

variable (hbs' : s.blockSize.toNat < 2 ^ 31)

include hbs'

theorem chunk_blocks : ∀ bb ∈ s.list.dataBlocks,
    (nodeChunk env s.blockSize bb).blocks.toNat = bb.len.toNat / s.blockSize.toNat := by
  intro bb hb
  have := h.node_len bb hb
  rw [nodeChunk, Content.chunk_blocks]
  exact divRoundUp_of_dvd h.pos (by omega) (h.tiles.mem bb hb).2.2.2

theorem chunk_block {most : Nat} (hw : ∀ bb ∈ s.list.dataBlocks, writable most env bb = true) :
    ∀ c ∈ Libsparse.imageChunks env s, c.Block s.blockSize := by
  intro c hc
  have himage := imageChunks_image h.pos hbs' hw c hc
  rw [h.imageChunks hbs'] at hc
  obtain ⟨bb, hb, rfl⟩ := mem_map.mp hc
  obtain ⟨-, -, hpos, hd⟩ := h.tiles.mem bb hb
  refine ⟨Content.chunk_adds _ _ _, himage, ?_⟩
  rw [h.chunk_blocks hbs' bb hb]
  exact Nat.div_pos (Nat.le_of_dvd hpos hd) h.pos

theorem blocksIn_eq : blocksIn (Libsparse.imageChunks env s) = n := by
  rw [blocksIn, h.imageChunks hbs', map_map, ← h.tiles.sum, Nat.zero_add]
  congr 1
  exact map_congr_left fun bb hb => h.chunk_blocks hbs' bb hb

theorem blocks_lt : ∀ c ∈ Libsparse.imageChunks env s, c.blocks.toNat < 2 ^ 31 := by
  intro c hc
  rw [h.imageChunks hbs'] at hc
  obtain ⟨bb, hb, rfl⟩ := mem_map.mp hc
  rw [h.chunk_blocks hbs' bb hb]
  exact (Nat.div_le_self _ _).trans_lt (h.node_len bb hb)

end TiledFile

theorem length_le_blocksIn (h : ∀ c ∈ cs, c.Block bs) : cs.length ≤ blocksIn cs := by
  induction cs with
  | nil => exact Nat.zero_le _
  | cons c cs ih =>
    have hc := (h c (by simp)).pos
    have hrec := ih (fun d hd => h d (by simp [hd]))
    have hb : blocksIn (c :: cs) = c.blocks.toNat + blocksIn cs := by simp [blocksIn]
    rw [length_cons, hb]
    omega

/-- The first three steps succeed when the data of every chunk goes into one `write`, and the
file they end in stands for the image. -/
theorem roundTrip_imports (fd fd' : Int) (hbs : 0 < bs.toNat) (h4 : 4 ∣ bs.toNat)
    (hd : bs.toNat ∣ img.length) (hl : img.length < 2 ^ 31) (hbs' : bs.toNat < 2 ^ 31)
    (hmost : ∀ c ∈ encode bs.toNat img, c.payload.length ≤ maxRwCount) :
    ∃ s fresh stream s' pos,
      sparseFileReadNormal (.live pick) img fd (sparseFileNew bs img.length) 0 0 = .ok (s, fresh) ∧
      sparseFileWrite (fdEnv fd img) linuxWrite s true false = .ok (0, stream) ∧
      sparseFileImport (.live pick') stream.bytes fd' 0 false = .ok (some s') ∧
      s'.blockSize = bs ∧ TiledFile s' (img.length / bs.toNat) ∧
      s'.list.dataBlocks.flatMap (nodeImage (fdEnv fd' stream.bytes)) = img ∧
      ∀ bb ∈ s'.list.dataBlocks, FromStream fd' pos bb := by
  obtain ⟨r, hread, hr⟩ := sparseFileReadNormal_reads (fdEnv_fds fd img) hbs h4 hd hl pick
  have hmul := Nat.div_mul_cancel hd
  have ht := hr.tiledFile hbs h4 hd hl
  have hw := (hr.writable_iff (fdEnv_fds fd img) hbs (by rw [hmul]; exact hl)).mpr hmost
  have hbs1 : r.s.blockSize.toNat < 2 ^ 31 := by rw [hr.blockSize]; exact hbs'
  obtain ⟨stream, hwrite, hbytes⟩ := sparseFileWrite_stream takes_linuxWrite false ht.pos hbs1 hw
    (ht.zeros _) (by rw [ht.pad hbs1])
  have hcs : imageChunks (fdEnv fd img) r.s = encode bs.toNat img := by
    rw [ht.imageChunks hbs1, hr.blockSize]
    exact hr.chunks
  have hstream : stream.bytes = (headerOf r.s false).bytes ++
      (imageChunks (fdEnv fd img) r.s).flatMap Chunk.bytes := by
    rw [hbytes, streamOf, chunksOf, crcChunks]
    simp
  have hblock := ht.chunk_block hbs1 hw
  have hin := @TiledFile.blocksIn_eq (fdEnv fd img) _ _ ht hbs1
  -- the header agrees with the chunks, so the stream is imported
  have hcount : (chunksOf (fdEnv fd img) r.s false).length < 2 ^ 32 := by
    have h1 := length_le_blocksIn hblock
    have h2 := Nat.div_le_self img.length bs.toNat
    simp only [chunksOf, crcChunks, Bool.false_eq_true, if_false, append_nil]
    omega
  have ha : Agrees (headerOf r.s false) (imageChunks (fdEnv fd img) r.s) 0 :=
    headerOf_agrees ht.pos hbs1 ht.len_nonneg (ht.tiles.sorted ht.pos)
      (by rw [ht.lastBlock hbs1, ht.blocks]) hw ht.dvd hcount
  obtain ⟨st, himp, hreads⟩ := import_reads pick' fd' ha (ht.blocks_lt hbs1)
  rw [← hstream] at himp
  refine ⟨r.s, r.fresh, stream, st.reader.s, st.reader.pos, hread, hwrite, himp, ?_⟩
  have hstart : StreamRead (fdEnv fd' stream.bytes) fd' bs 0 []
      (firstChunk (headerOf r.s false) 0 false) :=
    ⟨(firstChunk_blockSize _ _ _).trans hr.blockSize, rfl, rfl,
      by simp [firstChunk, sparseFileNew, backedBlockListNew], rfl⟩
  have hst := StreamRead.reads (fdEnv_fds fd' stream.bytes) hbs h4 hreads hstart
    (fun c hc => hr.blockSize ▸ hblock c hc) (hcs ▸ hmost)
    (by rw [hin, Nat.zero_add, hmul]; exact hl)
    ((congrArg (List.drop 28) hstream).trans ((drop_left' (SparseHeader.bytes_length _)).trans
      (append_nil _).symm))
  rw [hin, Nat.zero_add] at hst
  refine ⟨hst.blockSize, ?_, ?_, hst.nodes⟩
  · exact {
      pos := hst.blockSize ▸ hbs
      words := hst.blockSize ▸ h4
      small := by rw [hst.blockSize, hmul]; exact hl
      tiles := hst.blockSize ▸ hst.tiles
      len := by
        rw [hreads.len, firstChunk_len, hst.blockSize, hmul, ← hr.len, ht.header_len] }
  · rw [hst.image, nil_append, ← hr.blockSize]
    exact (ht.imageOf hbs1 (fdEnv fd img)).trans (by rw [hr.image, hmul, take_length])

/-- The chunks of an image that comes back. -/
theorem payload_le_of_roundTrip {pick pick' : List BackedBlock → BackedBlock → Nat} {fd fd' : Int}
    (hbs : 0 < bs.toNat) (h4 : 4 ∣ bs.toNat) (hd : bs.toNat ∣ img.length) (hl : img.length < 2 ^ 31)
    (h : RoundTrip pick pick' fd fd' bs img) :
    bs.toNat < 2 ^ 31 ∧ ∀ c ∈ encode bs.toNat img, c.payload.length ≤ maxRwCount := by
  obtain ⟨s, fresh, stream, s', out, hread, hwrite, -⟩ := h
  obtain ⟨r, hread', hr⟩ := sparseFileReadNormal_reads (fdEnv_fds fd img) hbs h4 hd hl pick
  rw [hread] at hread'
  cases hread'
  have ht := hr.tiledFile hbs h4 hd hl
  obtain ⟨hbs', hw, -⟩ := sparseFileWrite_inv takes_linuxWrite false ht.pos (ht.zeros _) hwrite
  rw [hr.blockSize] at hbs'
  exact ⟨hbs', (hr.writable_iff (fdEnv_fds fd img) hbs
    (by rw [Nat.div_mul_cancel hd]; exact hl)).mp hw⟩

/-- The nodes of an image that is not empty. -/
theorem TiledFile.exists_head {s : SparseFile} {n : Nat} (h : TiledFile s n) (hn : 0 < n) :
    ∃ bb rest, s.list.dataBlocks = bb :: rest ∧ bb.block = 0 ∧
      s.blockSize.toNat ≤ bb.len.toNat := by
  have ht := h.tiles
  cases hl : s.list.dataBlocks with
  | nil =>
    rw [hl] at ht
    exact absurd ht hn.ne'
  | cons bb rest =>
    rw [hl] at ht
    obtain ⟨hb, hpos, hd, -⟩ := ht
    exact ⟨bb, rest, rfl, UInt32.toNat_inj.mp hb, Nat.le_of_dvd hpos hd⟩

/-- A fill in front of everything else is not written when the block does not go into one
`write`. -/
theorem sparseFileWrite_long_block {write : WriteCall} {most : Nat} (hwrite : Takes write most)
    {env : Env} {s : SparseFile} {bb : BackedBlock} {rest : List BackedBlock} {v : UInt32}
    (hbs : 0 < s.blockSize.toNat) (hbs' : s.blockSize.toNat < 2 ^ 31)
    (hmost : most < s.blockSize.toNat) (hnodes : s.list.dataBlocks = bb :: rest)
    (hblock : bb.block = 0) (hback : bb.backing = .fill v)
    (hlen : s.blockSize.toNat ≤ bb.len.toNat) (dev : FileDev) :
    sparseFileWrite env write s false false ≠ .ok (0, dev) := by
  set out : OutputFile FileDev := ⟨0, 0, 0, false, s.blockSize, s.len, false, ⟨[], 0⟩⟩ with hout
  have hinit : outputFileInit (fileOps write) ⟨[], 0⟩ s.blockSize s.len false (countedChunks s)
      false = .ok (some out) := by
    unfold outputFileInit
    rw [if_neg (by rw [toInt_of_lt hbs']; omega)]
    rfl
  -- the first turn of the loop over the fill
  have hfill : (sparseFileWriteBlock env (fileOps write) out bb).1 = -1 := by
    obtain ⟨fuel, hfuel⟩ : ∃ fuel, bb.len.toNat = fuel + 1 := ⟨bb.len.toNat - 1, by omega⟩
    have hne : bb.len ≠ 0 := by
      intro h0
      rw [h0] at hfuel
      cases hfuel
    have hge : ¬ bb.len < s.blockSize := Nat.not_lt.mpr hlen
    have hret : (out.write (fileOps write) (bufOf (fillBuf s.blockSize v))
        (toInt s.blockSize)).1 = -1 := write_fails hwrite out _ (by omega)
    simp only [sparseFileWriteBlock, hback, writeFillChunk, writeNormalFillChunk, hout,
      Bool.false_eq_true, if_false, hfuel, writeFillLoop, if_neg hne, if_neg hge]
    rw [← hout, hret]
    rfl
  have hall : (writeBlocks env (fileOps write) s.blockSize s.list.dataBlocks 0 out).1 = -1 := by
    rw [hnodes, writeBlocks, hblock, if_neg (by decide)]
    dsimp only
    rw [hfill]
    rfl
  intro h
  simp only [sparseFileWrite, writeTo, sparseCountChunks_eq hbs, hinit, writeAllBlocks, hall,
    if_pos (show (-1 : Int) ≠ 0 by decide)] at h
  cases h

/-- The image comes back exactly if the data of each of its chunks goes into one `write`, and
every block does that is filled. -/
theorem roundTrip_iff (pick pick' : List BackedBlock → BackedBlock → Nat) (fd fd' : Int)
    (bs : UInt32) (img : List UInt8) (hbs : 0 < bs.toNat) (h4 : 4 ∣ bs.toNat)
    (hd : bs.toNat ∣ img.length) (hl : img.length < 2 ^ 31) :
    RoundTrip pick pick' fd fd' bs img ↔
      bs.toNat < 2 ^ 31 ∧ (∀ c ∈ encode bs.toNat img, c.payload.length ≤ maxRwCount) ∧
        (img ≠ [] → bs.toNat ≤ maxRwCount) := by
  constructor
  · intro h
    obtain ⟨hbs', hmost⟩ := payload_le_of_roundTrip hbs h4 hd hl h
    refine ⟨hbs', hmost, fun hne => ?_⟩
    obtain ⟨s, fresh, stream, s', out, hread, hwrite, himp, hnormal, -⟩ := h
    obtain ⟨s1, fresh1, stream1, s1', pos, h1, h2, h3, hb, ht, -, hfrom⟩ :=
      roundTrip_imports pick pick' fd fd' hbs h4 hd hl hbs' hmost
    obtain ⟨rfl, rfl⟩ := Prod.mk.inj (Except.ok.inj (hread.symm.trans h1))
    obtain ⟨-, rfl⟩ := Prod.mk.inj (Except.ok.inj (hwrite.symm.trans h2))
    obtain rfl := Option.some.inj (Except.ok.inj (himp.symm.trans h3))
    obtain ⟨bb, rest, hnodes, hblock, hlen⟩ := ht.exists_head
      (Nat.div_pos (Nat.le_of_dvd (length_pos_of_ne_nil hne) hd) hbs)
    by_contra hlong
    rcases hfrom bb (by rw [hnodes]; exact mem_cons_self) with ⟨o, -, -, hshort⟩ | ⟨v, hback⟩
    · rw [hb] at hlen
      omega
    · exact sparseFileWrite_long_block takes_linuxWrite ht.pos (hb ▸ hbs') (by rw [hb]; omega)
        hnodes hblock hback hlen out hnormal
  · rintro ⟨hbs', hmost, hblock⟩
    obtain ⟨s, fresh, stream, s', pos, hread, hwrite, himp, hb, ht, himg, hfrom⟩ :=
      roundTrip_imports pick pick' fd fd' hbs h4 hd hl hbs' hmost
    have hw : ∀ bb ∈ s'.list.dataBlocks,
        writable maxRwCount (fdEnv fd' stream.bytes) bb = true := by
      intro bb hbb
      rcases hfrom bb hbb with ⟨o, hback, -, hle⟩ | ⟨v, hback⟩
      · rw [writable_fd hback (fdEnv_fds fd' stream.bytes) (ht.tiles.mem bb hbb).2.2.1]
        exact decide_eq_true hle
      · exact writable_fill _ _ hback
    have hfit : ∀ bb ∈ s'.list.dataBlocks, s'.blockSize.toNat ≤ maxRwCount := by
      intro bb hbb
      rw [hb]
      refine hblock ?_
      rintro rfl
      have := ht.tiles.mem bb hbb
      rw [length_nil, Nat.zero_div] at this
      have := Nat.div_pos (Nat.le_of_dvd this.2.2.1 this.2.2.2) ht.pos
      omega
    have hbs1 : s'.blockSize.toNat < 2 ^ 31 := by rw [hb]; exact hbs'
    obtain ⟨out, hout, hbytes⟩ := sparseFileWrite_normal takes_linuxWrite false ht.pos hbs1 hw hfit
      (by rw [ht.pad hbs1])
    refine ⟨s, fresh, stream, s', out, hread, hwrite, himp, hout, ?_⟩
    rw [hbytes, ht.normalOf hbs1 hw, himg]

theorem roundTrip_fill_raw : RoundTrip (fun _ _ => 0) (fun _ _ => 0) 3 4 8
    [1, 0, 0, 0, 1, 0, 0, 0, 1, 0, 0, 0, 2, 0, 0, 0] :=
  (roundTrip_iff (fun _ _ => 0) (fun _ _ => 0) 3 4 8
    [1, 0, 0, 0, 1, 0, 0, 0, 1, 0, 0, 0, 2, 0, 0, 0] (by decide) (by decide) (by decide)
    (by decide)).mpr (by decide +kernel)

/-- Blocks that repeat no word make up one raw chunk. -/
theorem encodeTo_replicate {bs n : Nat} {b : List UInt8} (hb : repeatedWord b = none)
    (hlen : b.length = bs) {k : Nat} (hk : k < n) :
    encodeTo bs (List.replicate n b).flatten (k + 1) =
      [.raw (UInt32.ofNat (k + 1)) (List.replicate (k + 1) b).flatten] := by
  have hlen' : ∀ m, (List.replicate m b).flatten.length = m * bs := by simp [hlen]
  have hblock : ∀ k < n, ((List.replicate n b).flatten.drop (k * bs)).take bs = b := by
    intro k hk
    obtain ⟨m, rfl⟩ : ∃ m, n = k + (m + 1) := ⟨n - k - 1, by omega⟩
    rw [← replicate_append_replicate, flatten_append, drop_left' (hlen' k),
      replicate_succ, flatten_cons, take_left' hlen]
  induction k with
  | zero =>
    rw [encodeTo, encodeTo, hblock 0 hk, pushBlock, hb]
    simp
  | succ k ih =>
    have hsnoc : (List.replicate (k + 1 + 1) b).flatten = (List.replicate (k + 1) b).flatten ++ b := by
      rw [replicate_succ', flatten_append, flatten_cons, flatten_nil,
        append_nil]
    rw [encodeTo, ih (by omega), hblock (k + 1) hk, pushBlock, hb, hsnoc]
    simp [UInt32.ofNat_add]

/-- An image of blocks that repeat no word does not come back when its one chunk of data does not
go into one `write`. -/
theorem not_roundTrip_of_long (fd fd' : Int) {n : Nat} (hlt : n * 8 < 2 ^ 31)
    (hle : maxRwCount < n * 8) :
    ¬ RoundTrip pick pick' fd fd' 8 (List.replicate n [0, 0, 0, 0, 1, 0, 0, 0]).flatten := by
  intro h
  have hlen : (List.replicate n ([0, 0, 0, 0, 1, 0, 0, 0] : List UInt8)).flatten.length = n * 8 := by
    simp
  obtain ⟨-, hfit⟩ := payload_le_of_roundTrip (by decide) (by decide)
    (hlen ▸ Nat.dvd_mul_left 8 n) (hlen ▸ hlt) h
  obtain ⟨k, rfl⟩ : ∃ k, n = k + 1 := ⟨n - 1, by omega⟩
  have henc := @encodeTo_replicate 8 (k + 1) [0, 0, 0, 0, 1, 0, 0, 0] (by decide +kernel) rfl k
    (Nat.lt_succ_self k)
  rw [encode, hlen, show (8 : UInt32).toNat = 8 from rfl, Nat.mul_div_cancel _ (by decide), henc] at hfit
  have := hfit _ mem_cons_self
  rw [Chunk.payload, hlen] at this
  omega

/-- The image has `2^31 - 8` bytes, in one raw chunk. -/
theorem roundTrip_fails_at_edge : ¬ RoundTrip (fun _ _ => 0) (fun _ _ => 0) 3 4 8
    (List.replicate 268435455 [0, 0, 0, 0, 1, 0, 0, 0]).flatten :=
  not_roundTrip_of_long _ _ 3 4 (by decide) (by decide)

end SystemCore.Libsparse
