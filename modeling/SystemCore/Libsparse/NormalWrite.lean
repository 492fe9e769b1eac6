import SystemCore.Libsparse.HeaderCount

/-!
# What the normal writer puts into a file

The normal writer moves the file position over gaps, and the file reads as zeros there.
`view` is the file up to its position with these zeros in place, so that every write
appends to it. A fill node is written with its length alone: nothing rounds the position
up to the next block behind it.
-/
namespace SystemCore.Libsparse

open Lib.CeilDiv List

/-! ## The file up to its position -/

def FileDev.Ahead (f : FileDev) : Prop := f.bytes.length ≤ f.pos

def FileDev.view (f : FileDev) : List UInt8 := f.bytes ++ List.replicate (f.pos - f.bytes.length) 0

variable {f : FileDev} {bs : UInt32} {write : WriteCall} {most : Nat} (hwrite : Takes write most)

include hwrite in
theorem fileWrite_view (hf : f.Ahead) (data : Nat → UInt8) {len : Int} (hlen : 0 ≤ len)
    (hmost : len.toNat ≤ most) :
    ∃ g, fileWrite write f data len = (0, g) ∧ g.Ahead ∧
      g.view = f.view ++ readBytes data len.toNat := by
  rw [fileWrite_whole hwrite f data hlen hmost]
  split
  · rename_i h0
    exact ⟨f, rfl, hf, by simp [h0, readBytes]⟩
  · refine ⟨_, rfl, ?_, ?_⟩
    all_goals
      have ho : overwrite f.bytes f.pos (readBytes data len.toNat) =
          f.view ++ readBytes data len.toNat := by
        unfold overwrite FileDev.view
        rw [take_of_length_le hf, drop_eq_nil_of_le (hf.trans (Nat.le_add_right _ _)),
          append_nil]
      have hl : (f.view ++ readBytes data len.toNat).length = f.pos + len.toNat := by
        unfold FileDev.view
        unfold FileDev.Ahead at hf
        simp only [length_append, length_replicate, readBytes_length]
        omega
    · unfold FileDev.Ahead
      rw [ho, hl]
    · rw [FileDev.view, ho, hl]
      simp

theorem fileSkip_view (hf : f.Ahead) (n : Nat) :
    ∃ g, fileSkip f n = (0, g) ∧ g.Ahead ∧ g.view = f.view ++ List.replicate n 0 := by
  unfold fileSkip
  unfold FileDev.Ahead at hf
  refine ⟨_, rfl, ?_, ?_⟩
  · unfold FileDev.Ahead
    dsimp only
    omega
  · unfold FileDev.view
    dsimp only
    rw [append_assoc, replicate_append_replicate]
    congr 2
    omega

/-- Truncating the file, or extending it, to a length. -/
theorem filePad_view (f : FileDev) (n : Nat) :
    (filePad f n).2.bytes = (f.view ++ List.replicate n 0).take n := by
  unfold filePad FileDev.view
  rw [if_neg (by omega), Int.toNat_natCast, append_assoc, replicate_append_replicate,
    take_append, take_replicate,
    show min (n - f.bytes.length) (f.pos - f.bytes.length + n) = n - f.bytes.length by omega]

/-- The step from `out` to `out'` appends `shown` to the file. -/
structure Shows (out out' : OutputFile FileDev) (shown : List UInt8) : Prop where
  view : out'.dev.view = out.dev.view ++ shown
  ahead : out'.dev.Ahead
  blockSize : out'.blockSize = out.blockSize
  len : out'.len = out.len
  sparse : out'.sparse = out.sparse

variable {out : OutputFile FileDev} {env : Env} {buf : List UInt8}

theorem Shows.refl (hf : out.dev.Ahead) : Shows out out [] :=
  ⟨(append_nil _).symm, hf, rfl, rfl, rfl⟩

theorem Shows.trans {a b c : OutputFile FileDev} {v w : List UInt8} (h : Shows a b v)
    (h' : Shows b c w) : Shows a c (v ++ w) where
  view := by rw [h'.view, h.view, append_assoc]
  ahead := h'.ahead
  blockSize := h'.blockSize.trans h.blockSize
  len := h'.len.trans h.len
  sparse := h'.sparse.trans h.sparse

include hwrite in
theorem write_shows (hf : out.dev.Ahead) (data : Nat → UInt8) {len : UInt32}
    (hlen : len.toNat < 2 ^ 31) (hmost : len.toNat ≤ most) :
    ∃ out', out.write (fileOps write) data (toInt len) = (0, out') ∧
      Shows out out' (readBytes data len.toNat) := by
  rw [toInt_of_lt hlen]
  obtain ⟨g, hg, ha, hv⟩ := fileWrite_view hwrite hf data (Int.natCast_nonneg len.toNat) hmost
  refine ⟨{ out with dev := g }, ?_, hv, ha, rfl, rfl, rfl⟩
  simp [OutputFile.write, fileOps, hg]

theorem skip_shows (hf : out.dev.Ahead) (n : Nat) :
    ∃ out', out.skip (fileOps write) n = (0, out') ∧ Shows out out' (List.replicate n 0) := by
  obtain ⟨g, hg, ha, hv⟩ := fileSkip_view hf n
  refine ⟨{ out with dev := g }, ?_, hv, ha, rfl, rfl, rfl⟩
  simp [OutputFile.skip, fileOps, hg]

/-! ## The chunk writers -/

/-- The bytes of a fill node: `fill_buf` again and again, cut off at the length. -/
def fillShown (bs v : UInt32) (n : Nat) : List UInt8 :=
  readBytes (fun i => (fillBuf bs v).getD (i % bs.toNat) 0) n

include hwrite in
theorem writeNormalDataChunk_shows (hf : out.dev.Ahead) (hbs : 0 < out.blockSize.toNat)
    (hbs' : out.blockSize.toNat < 2 ^ 31) {len : UInt32} (hlen : len.toNat < 2 ^ 31)
    (hmost : len.toNat ≤ most) (data : Nat → UInt8) :
    ∃ out', writeNormalDataChunk (fileOps write) out len data = (0, out') ∧
      Shows out out' (padded out.blockSize len data) := by
  obtain ⟨hpad, -⟩ := align_sub_toNat (x := len) hbs (by omega)
  obtain ⟨o, ho, hs⟩ := write_shows hwrite hf data hlen hmost
  unfold writeNormalDataChunk
  simp only [ho]
  rw [if_neg (by simp)]
  split
  · obtain ⟨o', ho', hs'⟩ := @skip_shows write _ hs.ahead (align len out.blockSize - len).toNat
    exact ⟨o', ho', hs.trans hs'⟩
  · rename_i hge
    have hz : (align len out.blockSize - len).toNat = 0 := by
      have : ¬ len.toNat < (align len out.blockSize).toNat := hge
      omega
    refine ⟨o, rfl, ?_⟩
    rw [padded, hz, replicate_zero, append_nil]
    exact hs

/-- The first `n` bytes of a buffer of `b` bytes that repeats, and the rest. -/
theorem readBytes_repeat {b n len : Nat} (hnb : n ≤ b) (hnl : n ≤ len) (hfull : n < len → n = b) :
    readBytes (fun i => buf.getD (i % b) 0) len =
      readBytes (bufOf buf) n ++ readBytes (fun i => buf.getD (i % b) 0) (len - n) := by
  have hfirst : readBytes (fun i => buf.getD (i % b) 0) n = readBytes (bufOf buf) n := by
    apply map_congr_left
    intro i hi
    have hi' := mem_range.mp hi
    rw [Nat.mod_eq_of_lt (by omega)]
    rfl
  conv_lhs => rw [← Nat.add_sub_cancel' hnl, readBytes_add, hfirst]
  rcases Nat.lt_or_eq_of_le hnl with h | h
  · rw [hfull h]
    simp only [Nat.add_mod_left]
  · rw [h, Nat.sub_self]
    rfl

include hwrite in
theorem writeFillLoop_shows (hbs : 0 < bs.toNat) (hbs' : bs.toNat < 2 ^ 31)
    (hmost : bs.toNat ≤ most) (fuel : Nat) :
    ∀ {len : UInt32} {out : OutputFile FileDev}, out.dev.Ahead → out.blockSize = bs →
      len.toNat ≤ fuel →
      ∃ out', writeFillLoop (fileOps write) buf fuel len out = (0, out') ∧
        Shows out out' (readBytes (fun i => buf.getD (i % bs.toNat) 0) len.toNat) := by
  induction fuel with
  | zero =>
    intro len out hf hb hl
    refine ⟨out, rfl, ?_⟩
    rw [Nat.le_zero.mp hl]
    exact Shows.refl hf
  | succ fuel ih =>
    intro len out hf hb hl
    unfold writeFillLoop
    by_cases h0 : len = 0
    · rw [if_pos h0, h0]
      exact ⟨out, rfl, Shows.refl hf⟩
    rw [if_neg h0, hb]
    have hpos := toNat_pos_of_ne h0
    -- one turn writes `n` bytes from the start of the buffer
    have hturn : ∀ n : UInt32, 0 < n.toNat → n.toNat ≤ bs.toNat → n.toNat ≤ len.toNat →
        (n.toNat < len.toNat → n.toNat = bs.toNat) →
        ∃ out', (match out.write (fileOps write) (bufOf buf) (toInt n) with
          | (ret, o) => if ret < 0 then (ret, o)
              else writeFillLoop (fileOps write) buf fuel (len - n) o) = (0, out') ∧
          Shows out out' (readBytes (fun i => buf.getD (i % bs.toNat) 0) len.toNat) := by
      intro n hn0 hnb hnl hfull
      obtain ⟨o, ho, hs⟩ := write_shows hwrite hf (bufOf buf) (hnb.trans_lt hbs') (hnb.trans hmost)
      have hsub : (len - n).toNat = len.toNat - n.toNat := UInt32.toNat_sub_of_le _ _ hnl
      obtain ⟨o', ho', hs'⟩ := @ih (len - n) _ hs.ahead (hs.blockSize.trans hb) (by omega)
      refine ⟨o', by simp only [ho]; exact ho', ?_⟩
      rw [readBytes_repeat hnb hnl hfull, ← hsub]
      exact hs.trans hs'
    split
    · rename_i hlt
      exact hturn len hpos (Nat.le_of_lt hlt) (Nat.le_refl _) (fun h => absurd h (by omega))
    · rename_i hge
      exact hturn bs hbs (Nat.le_refl _) (Nat.le_of_not_lt hge) (fun _ => rfl)

/-! ## Writing the nodes -/

def Content.shown (bs len : UInt32) : Content → List UInt8
  | .data bytes => padded bs len bytes
  | .fill v => fillShown bs v len.toNat

def nodeShown (env : Env) (bs : UInt32) (bb : BackedBlock) : List UInt8 :=
  (content env bb).shown bs bb.len

def gapShown (bs lastBlock block : UInt32) : List UInt8 :=
  if lastBlock < block then List.replicate ((block - lastBlock).toNat * bs.toNat) 0 else []

/-- What the nodes behind `last_block` add to the file. -/
def blockShown (env : Env) (bs : UInt32) : List BackedBlock → UInt32 → List UInt8
  | [], _ => []
  | bb :: rest, lastBlock =>
    gapShown bs lastBlock bb.block ++ (nodeShown env bs bb ++ blockShown env bs rest (nextBlock bs bb))

include hwrite in
theorem writeBlock_shows {out : OutputFile FileDev} {bb : BackedBlock} (hs : out.sparse = false)
    (hf : out.dev.Ahead) (hbs : 0 < out.blockSize.toNat) (hbs' : out.blockSize.toNat < 2 ^ 31)
    (hmost : out.blockSize.toNat ≤ most) (hw : writable most env bb = true) :
    ∃ out', sparseFileWriteBlock env (fileOps write) out bb = (0, out') ∧
      Shows out out' (nodeShown env out.blockSize bb) := by
  rw [writable, Bool.and_eq_true] at hw
  rw [sparseFileWriteBlock_of_readable (fileOps write) out hw.1]
  unfold nodeShown
  cases hc : content env bb with
  | data bytes =>
    rw [hc] at hw
    simp only [writeContent, writeDataChunk, hs, Bool.false_eq_true, if_false]
    obtain ⟨hlen, hlen'⟩ := of_decide_eq_true hw.2
    exact writeNormalDataChunk_shows hwrite hf hbs hbs' hlen hlen' bytes
  | fill v =>
    simp only [writeContent, writeFillChunk, hs, Bool.false_eq_true, if_false]
    exact writeFillLoop_shows hwrite hbs hbs' hmost _ hf rfl (Nat.le_refl _)

theorem writeGap_shows (hs : out.sparse = false) (hf : out.dev.Ahead) (lastBlock block : UInt32) :
    Shows out (if lastBlock < block then (writeSkipChunk (fileOps write) out
        ((block - lastBlock).toNat * out.blockSize.toNat)).2 else out)
      (gapShown out.blockSize lastBlock block) := by
  unfold gapShown
  split
  · obtain ⟨o, ho, hsh⟩ := @skip_shows write _ hf ((block - lastBlock).toNat * out.blockSize.toNat)
    push_cast at ho
    simp only [writeSkipChunk, writeNormalSkipChunk, hs, Bool.false_eq_true, if_false, ho]
    exact hsh
  · exact Shows.refl hf

include hwrite in
/-- The loop of `write_all_blocks` in normal mode. -/
theorem writeBlocks_shows (hbs : 0 < bs.toNat) (hbs' : bs.toNat < 2 ^ 31) (nodes : List BackedBlock)
    (hw : ∀ bb ∈ nodes, writable most env bb = true) (hmost : ∀ bb ∈ nodes, bs.toNat ≤ most) :
    ∀ (lastBlock : UInt32) (out : OutputFile FileDev), out.sparse = false → out.dev.Ahead →
      out.blockSize = bs →
      ∃ out', writeBlocks env (fileOps write) bs nodes lastBlock out =
          (0, lastBlockOf bs nodes lastBlock, out') ∧
        Shows out out' (blockShown env bs nodes lastBlock) := by
  induction nodes with
  | nil =>
    intro lastBlock out hs hf hb
    exact ⟨out, rfl, Shows.refl hf⟩
  | cons bb rest ih =>
    intro lastBlock out hs hf hb
    have hgap := @writeGap_shows write _ hs hf lastBlock bb.block
    rw [hb] at hgap
    obtain ⟨o1, ho1, he1⟩ := writeBlock_shows hwrite (hgap.sparse.trans hs)
      hgap.ahead (by rw [hgap.blockSize, hb]; exact hbs)
      (by rw [hgap.blockSize, hb]; exact hbs')
      (by rw [hgap.blockSize, hb]; exact hmost bb (by simp)) (hw bb (by simp))
    rw [hgap.blockSize, hb] at he1
    obtain ⟨o2, ho2, he2⟩ := ih (fun n hn => hw n (by simp [hn]))
      (fun n hn => hmost n (by simp [hn])) (nextBlock bs bb) o1 ((hgap.trans he1).sparse.trans hs) he1.ahead ((hgap.trans he1).blockSize.trans hb)
    refine ⟨o2, ?_, hgap.trans (he1.trans he2)⟩
    simp only [writeBlocks, ho1, ho2]
    rfl

/-! ## Writing a file -/

/-- The image that the normal writer leaves behind. -/
def normalOf (env : Env) (s : SparseFile) : List UInt8 :=
  (blockShown env s.blockSize s.list.dataBlocks 0 ++ List.replicate s.len.toNat 0).take s.len.toNat

theorem take_append_zeros (l : List UInt8) (k n : Nat) :
    (l ++ List.replicate k 0 ++ List.replicate n 0).take n = (l ++ List.replicate n 0).take n := by
  rw [append_assoc, replicate_append_replicate, take_append, take_append,
    take_replicate, take_replicate,
    show min (n - l.length) (k + n) = min (n - l.length) n by omega]

include hwrite in
/-- A write that finds every node writable leaves the image in the file. -/
theorem sparseFileWrite_normal {s : SparseFile} (crc : Bool) (hbs : 0 < s.blockSize.toNat)
    (hbs' : s.blockSize.toNat < 2 ^ 31)
    (hw : ∀ bb ∈ s.list.dataBlocks, writable most env bb = true)
    (hmost : ∀ bb ∈ s.list.dataBlocks, s.blockSize.toNat ≤ most) (hpad : 0 ≤ s.pad) :
    ∃ dev, sparseFileWrite env write s false crc = .ok (0, dev) ∧ dev.bytes = normalOf env s := by
  set out : OutputFile FileDev := ⟨0, 0, 0, crc, s.blockSize, s.len, false, ⟨[], 0⟩⟩ with hout
  have hinit : outputFileInit (fileOps write) ⟨[], 0⟩ s.blockSize s.len false (countedChunks s)
      crc = .ok (some out) := by
    unfold outputFileInit
    rw [if_neg (by rw [toInt_of_lt hbs']; omega)]
    rfl
  obtain ⟨o, ho, hsh⟩ := writeBlocks_shows hwrite hbs hbs' _ hw hmost 0 out rfl (Nat.le_refl 0) rfl
  obtain ⟨hlen, -⟩ := of_pad_nonneg hbs hpad
  -- the end of the file, skipped over or not
  have hend : ∃ k, Shows o (if s.pad > 0 then (writeSkipChunk (fileOps write) o s.pad).2 else o)
      (List.replicate k 0) := by
    split
    · obtain ⟨o', ho', hs'⟩ := @skip_shows write _ hsh.ahead s.pad.toNat
      rw [Int.toNat_of_nonneg hpad] at ho'
      refine ⟨s.pad.toNat, ?_⟩
      simp only [writeSkipChunk, writeNormalSkipChunk, hsh.sparse, hout, Bool.false_eq_true,
        if_false, ho']
      exact hs'
    · exact ⟨0, Shows.refl hsh.ahead⟩
  obtain ⟨k, hend⟩ := hend
  set o' := (if s.pad > 0 then (writeSkipChunk (fileOps write) o s.pad).2 else o) with ho'
  have hall := hsh.trans hend
  refine ⟨(outputFileClose (fileOps write) o').dev, ?_, ?_⟩
  · simp only [sparseFileWrite, writeTo, sparseCountChunks_eq hbs, hinit, writeAllBlocks_eq ho]
    rw [if_neg (by omega)]
  · have hpadf := filePad_view o'.dev s.len.toNat
    rw [Int.toNat_of_nonneg hlen, hall.view] at hpadf
    have hclose : (outputFileClose (fileOps write) o').dev = (filePad o'.dev s.len).2 := by
      rw [outputFileClose, if_neg (by rw [hall.sparse]; exact Bool.false_ne_true)]
      change (filePad o'.dev o'.len).2 = _
      rw [hall.len]
    rw [hclose, hpadf, normalOf]
    simpa [hout, FileDev.view] using take_append_zeros _ k s.len.toNat

end SystemCore.Libsparse
