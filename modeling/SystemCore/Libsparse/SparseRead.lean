import SystemCore.Libsparse.SparseFile

/-!
# The readers of sparse_read.c

A file to read is the list of its bytes, and a reader holds its position in it. A
length that does not fit `int64_t` wraps. What ends a reader early is a fault or a
negative result.
-/
namespace SystemCore.Libsparse

open Lib.LittleEndian

/-- How a reader ends early. -/
inductive Stop where
  | fault (f : Fault)
  | err (ret : Int)
  deriving DecidableEq, Repr

def copyBufSize : Nat := 1024 * 1024

/-- The value kept in an `int64_t`. -/
def toInt64 (x : Int) : Int := x.bmod (2 ^ 64)

/-- `read_all`: the bytes read and the new position. The end of the file comes as
`-EINVAL`. -/
def readAll (file : List UInt8) (pos len : Nat) : Except Stop (List UInt8 × Nat) :=
  if len = 0 ∨ pos + len ≤ file.length then .ok ((file.drop pos).take len, pos + len)
  else .error (.err (-einval))

/-- What a reader carries along: the sparse file, the next free address, the position
in the file, and the variable behind `crc_ptr`. -/
structure Reader where
  s : SparseFile
  fresh : Nat
  pos : Nat
  crc : Option UInt32
  deriving DecidableEq, Repr

/-- One of the `sparse_file_add_` calls of a reader. -/
def Reader.add (freed : FreedRead) (r : Reader) (c : AddCall) : Except Stop Reader :=
  match r.s.add freed r.fresh c with
  | .error e => .error (.fault e)
  | .ok s => .ok { r with s := s, fresh := r.fresh + 1 }

/-- The loop of `process_raw_chunk` that sums up the data. -/
def rawCrcLoop (file : List UInt8) : Nat → Nat → Nat → UInt32 → Except Stop (UInt32 × Nat)
  | 0, _, pos, crc => .ok (crc, pos)
  | fuel + 1, len, pos, crc =>
    if len = 0 then .ok (crc, pos)
    else
      let chunk := min len copyBufSize
      match readAll file pos chunk with
      | .error e => .error e
      | .ok (buf, pos) => rawCrcLoop file fuel (len - chunk) pos (sparseCrc32 crc buf)

/-- The loop of `process_fill_chunk` and `process_skip_chunk` that sums up the contents
of `copybuf`. A negative length never comes to zero: the loop runs over the end of the
buffer, or goes on with pieces of no bytes. -/
def copyCrcLoop (copybuf : Nat → UInt8) : Nat → Int → UInt32 → Except Stop UInt32
  | 0, _, crc => .ok crc
  | fuel + 1, len, crc =>
    if len = 0 then .ok crc
    else if len < 0 then
      .error (.fault (if (lowWord len).toNat ≤ copyBufSize then .hang else .overrun))
    else
      let chunk := min len copyBufSize
      copyCrcLoop copybuf fuel (len - chunk) (sparseCrc32 crc (readBytes copybuf chunk.toNat))

/-- `copybuf` filled with one value. -/
def fillCopybuf (fillVal : UInt32) : Nat → UInt8 := fun i => (wordBytes fillVal).getD (i % 4) 0

/-- Sum up `len` bytes of `copybuf`, if there is a checksum. -/
def Reader.sumCopybuf (r : Reader) (copybuf : Nat → UInt8) (len : Int) : Except Stop Reader :=
  match r.crc with
  | none => .ok r
  | some crc =>
    match copyCrcLoop copybuf ((len / copyBufSize).toNat + 1) len crc with
    | .error e => .error e
    | .ok crc => .ok { r with crc := some crc }

section Reading

variable (freed : FreedRead) (file : List UInt8) (fd : Int)

def processRawChunk (r : Reader) (chunkSize : UInt32) (offset : Int) (blocks block : UInt32) :
    Except Stop Reader :=
  let len := blocks * r.s.blockSize
  if r.s.blockSize = 0 then .error (.fault .divByZero)
  else if chunkSize % r.s.blockSize ≠ 0 then .error (.err (-einval))
  else if chunkSize / r.s.blockSize ≠ blocks then .error (.err (-einval))
  else
    match r.add freed (.fd fd offset len block) with
    | .error e => .error e
    | .ok r =>
      match r.crc with
      | none => .ok { r with pos := r.pos + len.toNat }
      | some crc =>
        match rawCrcLoop file (len.toNat / copyBufSize + 1) len.toNat r.pos crc with
        | .error e => .error e
        | .ok (crc, pos) => .ok { r with pos := pos, crc := some crc }

def processFillChunk (r : Reader) (chunkSize blocks block : UInt32) : Except Stop Reader :=
  let len := toInt64 (blocks.toNat * r.s.blockSize.toNat)
  if chunkSize ≠ 4 then .error (.err (-einval))
  else
    match readAll file r.pos 4 with
    | .error e => .error e
    | .ok (buf, pos) =>
      let fillVal := UInt32.ofNat (ofBytes buf)
      match Reader.add freed { r with pos := pos } (.fill fillVal (lowWord len) block) with
      | .error e => .error e
      | .ok r => r.sumCopybuf (fillCopybuf fillVal) len

def processSkipChunk (r : Reader) (chunkSize blocks : UInt32) : Except Stop Reader :=
  if chunkSize ≠ 0 then .error (.err (-einval))
  else r.sumCopybuf (fun _ => 0) (toInt64 (blocks.toNat * r.s.blockSize.toNat))

def processCrc32Chunk (r : Reader) (chunkSize crc : UInt32) : Except Stop Reader :=
  if chunkSize ≠ 4 then .error (.err (-einval))
  else
    match readAll file r.pos 4 with
    | .error e => .error e
    | .ok (buf, pos) =>
      if UInt32.ofNat (ofBytes buf) ≠ crc then .error (.err (-einval))
      else .ok { r with pos := pos }

/-- The `return` of `process_chunk` behind a handler of blocks. -/
def returnBlocks (chunkSz : UInt32) : Except Stop Reader → Except Stop (Int × Reader)
  | .error e => .error e
  | .ok r => .ok (toInt chunkSz, r)

/-- `process_chunk`: the `int` it returns, negative or not, with the reader after it.
A chunk of no known type counts for no blocks, and its data is not passed over. -/
def processChunk (r : Reader) (offset : Int) (chunkHdrSz : UInt16) (h : ChunkHeader)
    (curBlock : UInt32) : Except Stop (Int × Reader) :=
  let chunkDataSize := h.totalSz - chunkHdrSz.toUInt32
  if h.chunkType = chunkTypeRaw then
    returnBlocks h.chunkSz
      (processRawChunk freed file fd r chunkDataSize offset h.chunkSz curBlock)
  else if h.chunkType = chunkTypeFill then
    returnBlocks h.chunkSz (processFillChunk freed file r chunkDataSize h.chunkSz curBlock)
  else if h.chunkType = chunkTypeDontCare then
    returnBlocks h.chunkSz (processSkipChunk r chunkDataSize h.chunkSz)
  else if h.chunkType = chunkTypeCrc32 then
    match r.crc with
    | none => .error (.fault .nullDeref)
    | some crc =>
      match processCrc32Chunk file r chunkDataSize crc with
      | .error e => .error e
      | .ok r => .ok (0, r)
  else .ok (0, r)

/-- The reader and `cur_block` between two chunks. -/
structure ChunkLoop where
  reader : Reader
  curBlock : UInt32
  deriving DecidableEq, Repr

/-- One turn of the loop of `sparse_file_read_sparse`. -/
def readChunk (chunkHdrSz : UInt16) (st : ChunkLoop) : Except Stop ChunkLoop :=
  match readAll file st.reader.pos chunkHeaderLen with
  | .error e => .error e
  | .ok (buf, pos) =>
    let pos := pos + (chunkHdrSz.toNat - chunkHeaderLen)
    match processChunk freed file fd { st.reader with pos := pos } pos chunkHdrSz
        (ChunkHeader.ofBytes buf) st.curBlock with
    | .error e => .error e
    | .ok (ret, r) =>
      if ret < 0 then .error (.err ret) else .ok ⟨r, st.curBlock + lowWord ret⟩

/-- The loop of `sparse_file_read_sparse` over `total_chunks`. -/
def readChunks (chunkHdrSz : UInt16) : Nat → ChunkLoop → Except Stop ChunkLoop
  | 0, st => .ok st
  | n + 1, st =>
    match readChunk freed file fd chunkHdrSz st with
    | .error e => .error e
    | .ok st => readChunks chunkHdrSz n st

/-- The checks that `sparse_file_import` and `sparse_file_read_sparse` make on a file
header. -/
def SparseHeader.accepted (h : SparseHeader) : Bool :=
  h.magic == sparseHeaderMagic && h.majorVersion == sparseHeaderMajorVer &&
    sparseHeaderLen ≤ h.fileHdrSz.toNat && chunkHeaderLen ≤ h.chunkHdrSz.toNat

def sparseFileReadSparse (s : SparseFile) (fresh pos : Nat) (crc : Bool) :
    Except Stop (SparseFile × Nat) :=
  match readAll file pos sparseHeaderLen with
  | .error e => .error e
  | .ok (buf, pos) =>
    let sparseHeader := SparseHeader.ofBytes buf
    if ¬ sparseHeader.accepted then .error (.err (-einval))
    else
      let pos := pos + (sparseHeader.fileHdrSz.toNat - sparseHeaderLen)
      match readChunks freed file fd sparseHeader.chunkHdrSz sparseHeader.totalChunks.toNat
          ⟨⟨s, fresh, pos, if crc then some 0 else none⟩, 0⟩ with
      | .error e => .error e
      | .ok st =>
        if sparseHeader.totalBlks ≠ st.curBlock then .error (.err (-einval))
        else .ok (st.reader.s, st.reader.fresh)

/-- `buf[i]` of a buffer of words. -/
def wordAt (buf : List UInt8) (i : Nat) : UInt32 := UInt32.ofNat (field (4 * i) 4 buf)

/-- The loop of `sparse_file_read_normal` that compares the words of a block. -/
def sparseBlock (blockSize : UInt32) (buf : List UInt8) : Bool :=
  (List.range (blockSize.toNat / 4)).all fun i => wordAt buf 0 == wordAt buf i

/-- The loop of `sparse_file_read_normal`, where `offset` is the position in the file
and the block number counts the turns. A block size below four makes it read a word
outside the buffer. -/
def readNormalLoop : Nat → Reader → UInt32 → Int → Int → Except Stop Reader
  | 0, r, _, remain, _ => if remain > 0 then .error (.fault .hang) else .ok r
  | fuel + 1, r, block, remain, offset =>
    if remain > 0 then
      let toRead := lowWord (min remain r.s.blockSize.toNat)
      match readAll file r.pos toRead.toNat with
      | .error e => .error e
      | .ok (buf, pos) =>
        let r := { r with pos := pos }
        if toRead = r.s.blockSize ∧ toRead < 4 then .error (.fault .overrun)
        else
          let call := if toRead = r.s.blockSize ∧ sparseBlock r.s.blockSize buf then
              AddCall.fill (wordAt buf 0) toRead block
            else AddCall.fd fd offset toRead block
          match r.add freed call with
          | .error e => .error e
          | .ok r =>
            readNormalLoop fuel r (block + 1) (remain - toRead.toNat) (offset + toRead.toNat)
    else .ok r

def sparseFileReadNormal (s : SparseFile) (fresh pos : Nat) : Except Stop (SparseFile × Nat) :=
  match readNormalLoop freed file fd s.len.toNat ⟨s, fresh, pos, none⟩ 0 s.len 0 with
  | .error e => .error e
  | .ok r => .ok (r.s, r.fresh)

def sparseFileRead (s : SparseFile) (fresh pos : Nat) (sparse crc : Bool) :
    Except Stop (SparseFile × Nat) :=
  if crc ∧ ¬ sparse then .error (.err (-einval))
  else if sparse then sparseFileReadSparse freed file fd s fresh pos crc
  else sparseFileReadNormal freed file fd s fresh pos

/-- A null result for a negative one. -/
def nullOnErr : Except Stop (SparseFile × Nat) → Except Fault (Option SparseFile)
  | .error (.fault f) => .error f
  | .error (.err _) => .ok none
  | .ok (s, _) => .ok (some s)

/-- `sparse_file_import` on a descriptor at position `pos`; no file stands for a null
result. -/
def sparseFileImport (pos : Nat) (crc : Bool) : Except Fault (Option SparseFile) :=
  match readAll file pos sparseHeaderLen with
  | .error _ => .ok none
  | .ok (buf, _) =>
    let sparseHeader := SparseHeader.ofBytes buf
    if ¬ sparseHeader.accepted then .ok none
    else
      let len := toInt64 (sparseHeader.totalBlks.toNat * sparseHeader.blkSz.toNat)
      nullOnErr (sparseFileRead freed file fd (sparseFileNew sparseHeader.blkSz len) 0 0 true crc)

end Reading

end SystemCore.Libsparse
