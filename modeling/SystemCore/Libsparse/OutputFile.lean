import SystemCore.Libsparse.BackedBlock
import SystemCore.Libsparse.Format

/-!
# The writers of output_file.c

An output file has a back end, which takes bytes, and one of two sets of chunk
writers above it. The back ends here are a seekable file and a callback. The
results are those of a 64-bit host: a negative `int` handed to `write` or `mmap64`
as a size is larger than any address space, and so is refused.
-/
namespace SystemCore.Libsparse

def intMax : Int := 2 ^ 31 - 1

def enoent : Int := 2
def ebadf : Int := 9
def enomem : Int := 12
def einval : Int := 22

/-- The bytes behind a pointer to a buffer. -/
def bufOf (l : List UInt8) : Nat → UInt8 := fun i => l.getD i 0

/-- The first `n` bytes behind a pointer. -/
def readBytes (data : Nat → UInt8) (n : Nat) : List UInt8 := (List.range n).map data

/-- `struct output_file_ops` over the private state `σ` of a back end. Each function
returns its `int` result and the new state. -/
structure OutputFileOps (σ : Type) where
  skip : σ → Int → Int × σ
  pad : σ → Int → Int × σ
  write : σ → (Nat → UInt8) → Int → Int × σ

/-- `struct output_file`. `sparse` selects between `sparse_file_ops` and
`normal_file_ops`; the buffers of zeros and of fill words are functions of the block
size. -/
structure OutputFile (σ : Type) where
  curOutPtr : Int
  chunkCnt : UInt32
  crc32 : UInt32
  useCrc : Bool
  blockSize : UInt32
  len : Int
  sparse : Bool
  dev : σ

/-! ## Back ends -/

/-- A file that was empty when it was opened: its bytes and the file position. -/
structure FileDev where
  bytes : List UInt8
  pos : Nat
  deriving DecidableEq, Repr

/-- Put `data` at `pos`, with zeros where the file did not reach. -/
def overwrite (bytes : List UInt8) (pos : Nat) (data : List UInt8) : List UInt8 :=
  bytes.take pos ++ List.replicate (pos - bytes.length) 0 ++ data ++ bytes.drop (pos + data.length)

/-- How many of `n` bytes a call of `write` on the descriptor takes, or nothing when it
fails. -/
abbrev WriteCall := FileDev → Nat → Option Nat

def takesAll : WriteCall := fun _ n => some n

/-- Linux takes at most `MAX_RW_COUNT` bytes with one call. -/
def maxRwCount : Nat := 0x7ffff000

def linuxWrite : WriteCall := fun _ n => some (min n maxRwCount)

/-- `file_write`. The bytes of an incomplete write are in the file, and a write of no bytes
does not extend it. -/
def fileWrite (write : WriteCall) (f : FileDev) (data : Nat → UInt8) (len : Int) : Int × FileDev :=
  if len < 0 then (-1, f)
  else
    match write f len.toNat with
    | none => (-1, f)
    | some ret =>
      let n := min ret len.toNat
      (if n < len then -1 else 0,
        if n = 0 then f else ⟨overwrite f.bytes f.pos (readBytes data n), f.pos + n⟩)

def fileSkip (f : FileDev) (cnt : Int) : Int × FileDev :=
  if f.pos + cnt < 0 then (-1, f) else (0, { f with pos := (f.pos + cnt).toNat })

def filePad (f : FileDev) (len : Int) : Int × FileDev :=
  if len < 0 then (-einval, f)
  else (0, { f with
    bytes := f.bytes.take len.toNat ++ List.replicate (len.toNat - f.bytes.length) 0 })

def fileOps (write : WriteCall) : OutputFileOps FileDev := ⟨fileSkip, filePad, fileWrite write⟩

/-- The user's `write` of `output_file_open_callback`, on its own state `τ`; a skipped
region comes without data. -/
abbrev WriteCallback (τ : Type) := τ → Option (Nat → UInt8) → Int → Int × τ

def callbackSkipLoop {τ : Type} (write : WriteCallback τ) : Nat → Int → τ → Int × τ
  | 0, _, t => (0, t)
  | fuel + 1, off, t =>
    if off > 0 then
      let toWrite := min off intMax
      let (ret, t) := write t none toWrite
      if ret < 0 then (ret, t) else callbackSkipLoop write fuel (off - toWrite) t
    else (0, t)

def callbackFileSkip {τ : Type} (write : WriteCallback τ) (t : τ) (off : Int) : Int × τ :=
  callbackSkipLoop write ((off / intMax).toNat + 1) off t

def callbackFileWrite {τ : Type} (write : WriteCallback τ) (t : τ) (data : Nat → UInt8)
    (len : Int) : Int × τ := write t (some data) len

def callbackFilePad {τ : Type} (t : τ) (_len : Int) : Int × τ := (-1, t)

def callbackOps {τ : Type} (write : WriteCallback τ) : OutputFileOps τ :=
  ⟨callbackFileSkip write, callbackFilePad, callbackFileWrite write⟩

/-! ## Chunk writers -/

section Writers

variable {σ : Type} (ops : OutputFileOps σ) (out : OutputFile σ)

/-- `out->ops->write`. -/
def OutputFile.write (data : Nat → UInt8) (len : Int) : Int × OutputFile σ :=
  let (ret, dev) := ops.write out.dev data len
  (ret, { out with dev := dev })

/-- `out->ops->write` on a buffer with its whole length. -/
def OutputFile.writeBuf (buf : List UInt8) : Int × OutputFile σ :=
  out.write ops (bufOf buf) buf.length

/-- `out->ops->skip`. -/
def OutputFile.skip (len : Int) : Int × OutputFile σ :=
  let (ret, dev) := ops.skip out.dev len
  (ret, { out with dev := dev })

def writeSparseSkipChunk (skipLen : Int) : Int × OutputFile σ :=
  if skipLen.tmod out.blockSize.toNat ≠ 0 then (-1, out)
  else
    let chunkHeader : ChunkHeader :=
      ⟨chunkTypeDontCare, 0, lowWord (skipLen.tdiv out.blockSize.toNat), 12⟩
    let (ret, out) := out.writeBuf ops chunkHeader.bytes
    if ret < 0 then (-1, out)
    else (0, { out with curOutPtr := out.curOutPtr + skipLen, chunkCnt := out.chunkCnt + 1 })

/-- `while (count--) out->crc32 = sparse_crc32(out->crc32, &fill_val, 4)`. -/
def crcFill (fillVal : UInt32) : Nat → UInt32 → UInt32
  | 0, crc => crc
  | count + 1, crc => crcFill fillVal count (sparseCrc32 crc (wordBytes fillVal))

/-- `write_sparse_fill_chunk`. The checksum takes in the words of one block. -/
def writeSparseFillChunk (len fillVal : UInt32) : Int × OutputFile σ :=
  let rndUpLen := align len out.blockSize
  let chunkHeader : ChunkHeader := ⟨chunkTypeFill, 0, rndUpLen / out.blockSize, 16⟩
  let (ret, out) := out.writeBuf ops chunkHeader.bytes
  if ret < 0 then (-1, out)
  else
    let (ret, out) := out.writeBuf ops (wordBytes fillVal)
    if ret < 0 then (-1, out)
    else
      let crc := if out.useCrc then crcFill fillVal (out.blockSize.toNat / 4) out.crc32
        else out.crc32
      (0, { out with
        crc32 := crc
        curOutPtr := out.curOutPtr + toInt rndUpLen
        chunkCnt := out.chunkCnt + 1 })

def writeSparseDataChunk (len : UInt32) (data : Nat → UInt8) : Int × OutputFile σ :=
  let rndUpLen := align len out.blockSize
  let zeroLen := rndUpLen - len
  let chunkHeader : ChunkHeader := ⟨chunkTypeRaw, 0, rndUpLen / out.blockSize, 12 + rndUpLen⟩
  let (ret, out) := out.writeBuf ops chunkHeader.bytes
  if ret < 0 then (-1, out)
  else
    let (ret, out) := out.write ops data (toInt len)
    if ret < 0 then (-1, out)
    else
      let (ret, out) :=
        if zeroLen ≠ 0 then out.write ops (fun _ => 0) (toInt zeroLen) else (0, out)
      if ret < 0 then (-1, out)
      else
        let crc := if out.useCrc then
            let crc := sparseCrc32 out.crc32 (readBytes data len.toNat)
            if zeroLen ≠ 0 then sparseCrc32 crc (List.replicate zeroLen.toNat 0) else crc
          else out.crc32
        (0, { out with
          crc32 := crc
          curOutPtr := out.curOutPtr + toInt rndUpLen
          chunkCnt := out.chunkCnt + 1 })

/-- `write_sparse_end_chunk`. The result of the second write is not looked at. -/
def writeSparseEndChunk : Int × OutputFile σ :=
  if out.useCrc then
    let chunkHeader : ChunkHeader := ⟨chunkTypeCrc32, 0, 0, 16⟩
    let (ret, out) := out.writeBuf ops chunkHeader.bytes
    if ret < 0 then (ret, out)
    else
      let (_, out) := out.writeBuf ops (wordBytes out.crc32)
      (0, { out with chunkCnt := out.chunkCnt + 1 })
  else (0, out)

def writeNormalDataChunk (len : UInt32) (data : Nat → UInt8) : Int × OutputFile σ :=
  let rndUpLen := align len out.blockSize
  let (ret, out) := out.write ops data (toInt len)
  if ret < 0 then (ret, out)
  else if len < rndUpLen then out.skip ops (rndUpLen - len).toNat
  else (ret, out)

/-- `fill_buf` with its whole words set; the bytes behind them stay zero. -/
def fillBuf (blockSize fillVal : UInt32) : List UInt8 :=
  (List.replicate (blockSize.toNat / 4) (wordBytes fillVal)).flatten ++
    List.replicate (blockSize.toNat % 4) 0

/-- The `while (len)` loop of `write_normal_fill_chunk`. -/
def writeFillLoop (buf : List UInt8) : Nat → UInt32 → OutputFile σ → Int × OutputFile σ
  | 0, _, out => (0, out)
  | fuel + 1, len, out =>
    if len = 0 then (0, out)
    else
      let writeLen := if len < out.blockSize then len else out.blockSize
      let (ret, out) := out.write ops (bufOf buf) (toInt writeLen)
      if ret < 0 then (ret, out) else writeFillLoop buf fuel (len - writeLen) out

/-- `write_normal_fill_chunk`. A block size that is not zero makes every turn of the
loop shorten `len`. -/
def writeNormalFillChunk (len fillVal : UInt32) : Int × OutputFile σ :=
  writeFillLoop ops (fillBuf out.blockSize fillVal) len.toNat len out

def writeNormalSkipChunk (len : Int) : Int × OutputFile σ := out.skip ops len

def writeNormalEndChunk : Int × OutputFile σ :=
  let (ret, dev) := ops.pad out.dev out.len
  (ret, { out with dev := dev })

def writeDataChunk (len : UInt32) (data : Nat → UInt8) : Int × OutputFile σ :=
  if out.sparse then writeSparseDataChunk ops out len data else writeNormalDataChunk ops out len data

def writeFillChunk (len fillVal : UInt32) : Int × OutputFile σ :=
  if out.sparse then writeSparseFillChunk ops out len fillVal
  else writeNormalFillChunk ops out len fillVal

def writeSkipChunk (len : Int) : Int × OutputFile σ :=
  if out.sparse then writeSparseSkipChunk ops out len else writeNormalSkipChunk ops out len

def outputFileClose : OutputFile σ :=
  if out.sparse then (writeSparseEndChunk ops out).2 else (writeNormalEndChunk ops out).2

/-- `mmap64` of a descriptor: the bytes mapped, or `-errno`. No descriptor, an empty
length and a length that came from a negative `int` are refused. -/
def mmap64 (file : Option (Nat → UInt8)) (size offset : Int) : Except Int (Nat → UInt8) :=
  match file with
  | none => .error (-ebadf)
  | some bytes =>
    if size < 0 then .error (-enomem)
    else if size = 0 ∨ offset < 0 then .error (-einval)
    else .ok fun i => bytes (offset.toNat + i)

/-- `write_fd_chunk` on the bytes of a descriptor. -/
def writeFdChunk (len : UInt32) (file : Option (Nat → UInt8)) (offset : Int) :
    Int × OutputFile σ :=
  let alignedOffset := offset - offset % 4096
  let alignedDiff := offset % 4096
  let bufferSize := toInt (len + lowWord alignedDiff)
  match mmap64 file bufferSize alignedOffset with
  | .error ret => (ret, out)
  | .ok data => writeDataChunk ops out len fun i => data (alignedDiff.toNat + i)

/-- `write_file_chunk` on the file that `open` finds. -/
def writeFileChunk (len : UInt32) (file : Option (Nat → UInt8)) (offset : Int) :
    Int × OutputFile σ :=
  match file with
  | none => (-enoent, out)
  | some bytes => writeFdChunk ops out len (some bytes) offset

end Writers

/-- `output_file_init` on a fresh back end, and so `output_file_open_fd` and
`output_file_open_callback`: no file when a buffer of `block_size` bytes, as an `int`,
cannot be allocated or the header cannot be written. -/
def outputFileInit {σ : Type} (ops : OutputFileOps σ) (dev : σ) (blockSize : UInt32) (len : Int)
    (sparse : Bool) (chunks : UInt32) (crc : Bool) : Except Fault (Option (OutputFile σ)) :=
  let out : OutputFile σ := ⟨0, 0, 0, crc, blockSize, len, sparse, dev⟩
  if toInt blockSize < 0 then .ok none
  else if sparse then
    if blockSize = 0 then .error .divByZero
    else
      let totalChunks := if crc then chunks + 1 else chunks
      let sparseHeader : SparseHeader :=
        ⟨sparseHeaderMagic, sparseHeaderMajorVer, sparseHeaderMinorVer, 28, 12, blockSize,
          lowWord (len.tdiv blockSize.toNat), totalChunks, 0⟩
      let (ret, out) := out.writeBuf ops sparseHeader.bytes
      if ret < 0 then .ok none else .ok (some out)
  else .ok (some out)

end SystemCore.Libsparse
