import SystemCore.Libsparse.OutputFile

/-!
# The operations of sparse.c

Writing a sparse file, counting its chunks and its length, and cutting it into
files of a bounded length. The block size of a sparse file is that of its block
list: both are set by `sparse_file_new` and never change.
-/
namespace SystemCore.Libsparse

structure SparseFile where
  len : Int
  list : BackedBlockList
  deriving DecidableEq, Repr

abbrev SparseFile.blockSize (s : SparseFile) : UInt32 := s.list.blockSize

def sparseFileNew (blockSize : UInt32) (len : Int) : SparseFile := ⟨len, backedBlockListNew blockSize⟩

section Adding

variable (freed : FreedRead) (s : SparseFile) (addr : Nat)

/-- Queue in the block list of a sparse file. -/
def SparseFile.add (c : AddCall) : Except Fault SparseFile :=
  match c.run freed s.list addr with
  | .error e => .error e
  | .ok list => .ok { s with list := list }

def sparseFileAddData (data : Nat) (len block : UInt32) : Except Fault SparseFile :=
  s.add freed addr (.data data len block)

def sparseFileAddFill (fillVal len block : UInt32) : Except Fault SparseFile :=
  s.add freed addr (.fill fillVal len block)

end Adding

/-- What the blocks of a list point to: memory, open descriptors, and files by name. -/
structure Env where
  mem : Nat → UInt8
  fds : Int → Option (Nat → UInt8)
  paths : String → Option (Nat → UInt8)

/-- The block behind `bb`, as the loops over a list compute it. -/
def nextBlock (bs : UInt32) (bb : BackedBlock) : UInt32 := bb.block + divRoundUp bb.len bs

def countLoop (bs : UInt32) : List BackedBlock → UInt32 → UInt32 → UInt32 × UInt32
  | [], lastBlock, chunks => (lastBlock, chunks)
  | bb :: rest, lastBlock, chunks =>
    let chunks := if lastBlock < bb.block then chunks + 1 else chunks
    countLoop bs rest (nextBlock bs bb) (chunks + 1)

def sparseCountChunks (s : SparseFile) : Except Fault UInt32 :=
  if s.blockSize = 0 then .error .divByZero
  else
    let (lastBlock, chunks) := countLoop s.blockSize s.list.dataBlocks 0 0
    let total := (s.len + s.blockSize.toNat - 1).tdiv s.blockSize.toNat
    .ok (if lastBlock.toNat < total then chunks + 1 else chunks)

section Writing

variable {σ : Type} (env : Env) (ops : OutputFileOps σ)

def sparseFileWriteBlock (out : OutputFile σ) (bb : BackedBlock) : Int × OutputFile σ :=
  match bb.backing with
  | .data p => writeDataChunk ops out bb.len fun i => env.mem (p + i)
  | .file _ path offset => writeFileChunk ops out bb.len (env.paths path) offset
  | .fd fd offset => writeFdChunk ops out bb.len (env.fds fd) offset
  | .fill v => writeFillChunk ops out bb.len v

/-- The loop of `write_all_blocks`. The result of `write_skip_chunk` is not looked
at. -/
def writeBlocks (bs : UInt32) : List BackedBlock → UInt32 → OutputFile σ →
    Int × UInt32 × OutputFile σ
  | [], lastBlock, out => (0, lastBlock, out)
  | bb :: rest, lastBlock, out =>
    let out := if lastBlock < bb.block then
        (writeSkipChunk ops out ((bb.block - lastBlock).toNat * bs.toNat)).2
      else out
    let (ret, out) := sparseFileWriteBlock env ops out bb
    if ret ≠ 0 then (ret, lastBlock, out) else writeBlocks bs rest (nextBlock bs bb) out

def writeAllBlocks (s : SparseFile) (out : OutputFile σ) : Except Fault (Int × OutputFile σ) :=
  let (ret, lastBlock, out) := writeBlocks env ops s.blockSize s.list.dataBlocks 0 out
  if ret ≠ 0 then .ok (ret, out)
  else
    let pad := s.len - lastBlock.toNat * s.blockSize.toNat
    if pad < 0 then .error .assertion
    else if pad > 0 then .ok (0, (writeSkipChunk ops out pad).2)
    else .ok (0, out)

/-- The common body of `sparse_file_write`, `sparse_file_callback` and
`sparse_file_len`: count, open, write all blocks, close. -/
def writeTo (dev : σ) (s : SparseFile) (sparse crc : Bool) : Except Fault (Option (Int × σ)) :=
  match sparseCountChunks s with
  | .error e => .error e
  | .ok chunks =>
    match outputFileInit ops dev s.blockSize s.len sparse chunks crc with
    | .error e => .error e
    | .ok none => .ok none
    | .ok (some out) =>
      match writeAllBlocks env ops s out with
      | .error e => .error e
      | .ok (ret, out) => .ok (some (ret, (outputFileClose ops out).dev))

/-- `sparse_file_write` to a new file, without compression. -/
def sparseFileWrite (write : WriteCall) (s : SparseFile) (sparse crc : Bool) :
    Except Fault (Int × FileDev) :=
  match writeTo env (fileOps write) ⟨[], 0⟩ s sparse crc with
  | .error e => .error e
  | .ok none => .ok (-enomem, ⟨[], 0⟩)
  | .ok (some r) => .ok r

def outCounterWrite : WriteCallback Int := fun count _ len => (0, count + len)

def sparseFileLen (s : SparseFile) (sparse crc : Bool) : Except Fault Int :=
  match writeTo env (callbackOps outCounterWrite) 0 s sparse crc with
  | .error e => .error e
  | .ok none => .ok (-1)
  | .ok (some (ret, count)) => .ok (if ret < 0 then -1 else count)

end Writing

/-! ## Cutting a file -/

/-- How the loop of `move_chunks_up_to_len` ends: a block write failed; or the blocks
up to `last` are to be moved, after the block there was split at `cut` if a length is
given, and `more` says that `bb` is not null. -/
inductive MoveEnd where
  | failed
  | move (last : Option Nat) (cut : Option UInt32) (more : Bool)
  deriving DecidableEq, Repr

/-- The loop of `move_chunks_up_to_len` over the nodes from `bb` on. The counter behind
`out` is set to the skip header, if there is one, before the block is written to it. -/
def moveLoop (env : Env) (bs : UInt32) (len : UInt32) : List BackedBlock → OutputFile Int →
    Option Nat → Int → UInt32 → MoveEnd
  | [], _, lastBb, _, _ => .move lastBb none false
  | bb :: rest, out, lastBb, fileLen, lastBlock =>
    let count : Int := if lastBlock < bb.block then 12 else 0
    let (ret, out) :=
      sparseFileWriteBlock env (callbackOps outCounterWrite) { out with dev := count } bb
    if ret ≠ 0 then .failed
    else if fileLen + out.dev > len.toNat then
      let room := len.toNat - (fileLen + 12)
      if lastBb = none ∨ room > (len / 8).toNat then .move (some bb.addr) (some (lowWord room)) true
      else .move lastBb none true
    else moveLoop env bs len rest out (some bb.addr) (fileLen + out.dev) (nextBlock bs bb)

/-- What a call of `move_chunks_up_to_len` leaves behind: the two lists, the next
address, whether it returned a block, and whether a block write failed. -/
structure Moved where
  src : SparseFile
  dst : SparseFile
  fresh : Nat
  more : Bool
  failed : Bool
  deriving DecidableEq, Repr

def moveChunksUpToLen (env : Env) (src dst : SparseFile) (len : UInt32) (fresh : Nat) :
    Except Fault Moved :=
  let len := len - 56
  match outputFileInit (callbackOps outCounterWrite) 0 dst.blockSize dst.len true 0 false with
  | .error e => .error e
  | .ok none => .ok ⟨src, dst, fresh, false, false⟩
  | .ok (some out) =>
    match moveLoop env dst.blockSize len src.list.dataBlocks out none 0 0 with
    | .failed => .ok ⟨src, dst, fresh, false, true⟩
    | .move last cut more =>
      let split := match last, cut with
        | some bb, some maxLen => backedBlockSplit src.list bb maxLen fresh
        | _, _ => .ok src.list
      match split with
      | .error e => .error e
      | .ok list =>
        match backedBlockListMove list dst.list (list.dataBlocks.head?.map (·.addr)) last with
        | .error e => .error e
        | .ok (list, toList) =>
          .ok ⟨{ src with list := list }, { dst with list := toList }, fresh + 1, more, false⟩

/-- The state of the loop of `sparse_file_resparse`. `out` holds the files stored in
`out_s` so far, `failed` remembers a failed block write. -/
structure Resparse where
  inS : SparseFile
  tmp : SparseFile
  out : List SparseFile
  c : Nat
  fresh : Nat
  failed : Bool
  deriving DecidableEq, Repr

/-- One turn of the loop, with the result of `move_chunks_up_to_len`. -/
def resparseRound (env : Env) (maxLen : UInt32) (outSCount : Int) (r : Resparse) :
    Except Fault (Resparse × Bool) :=
  match moveChunksUpToLen env r.inS (sparseFileNew r.inS.blockSize r.inS.len) maxLen r.fresh with
  | .error e => .error e
  | .ok m =>
    if r.c < outSCount then
      .ok (⟨m.src, r.tmp, r.out ++ [m.dst], r.c + 1, m.fresh, r.failed || m.failed⟩, m.more)
    else
      match backedBlockListMove m.dst.list r.tmp.list none none with
      | .error e => .error e
      | .ok (_, tmp) =>
        .ok (⟨m.src, { r.tmp with list := tmp }, r.out, r.c + 1, m.fresh,
          r.failed || m.failed⟩, m.more)

/-- The `do`/`while` loop of `sparse_file_resparse`; nothing when `fuel` turns were not
enough. -/
def resparseLoop (env : Env) (maxLen : UInt32) (outSCount : Int) :
    Nat → Resparse → Except Fault (Option Resparse)
  | 0, _ => .ok none
  | fuel + 1, r =>
    match resparseRound env maxLen outSCount r with
    | .error e => .error e
    | .ok (r, true) => resparseLoop env maxLen outSCount fuel r
    | .ok (r, false) => .ok (some r)

/-- `sparse_file_resparse`: the result is `c`, and `inS` and `out` are the files
behind `in_s` and `out_s`. -/
def sparseFileResparse (env : Env) (fuel : Nat) (inS : SparseFile) (maxLen : UInt32)
    (outSCount : Int) (fresh : Nat) : Except Fault (Option Resparse) :=
  match resparseLoop env maxLen outSCount fuel
      ⟨inS, sparseFileNew inS.blockSize inS.len, [], 0, fresh, false⟩ with
  | .error e => .error e
  | .ok none => .ok none
  | .ok (some r) =>
    match backedBlockListMove r.tmp.list r.inS.list none none with
    | .error e => .error e
    | .ok (_, list) => .ok (some { r with inS := { r.inS with list := list } })

end SystemCore.Libsparse
