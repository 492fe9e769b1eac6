import SystemCore.Libsparse.ReadStream
import SystemCore.Libsparse.BlockMap

/-!
# What a stream means

The documented format gives each block of an image the bytes of a raw chunk, the value
of a fill chunk, or nothing. Headers may be longer than those of the first revision. One
equation says what the reader does with a chunk of such a stream.
-/
namespace SystemCore.Libsparse.Decoding

open Lib Lib.Segments Lib.CeilDiv Lib.LittleEndian
open BlockMap

/-! ## Streams in the documented format -/

/-- The bytes of a stream, where `extra` stands between its header and its chunks. -/
def streamBytes (h : SparseHeader) (extra : List UInt8) (fs : List Framed) : List UInt8 :=
  h.bytes ++ (extra ++ fs.flatMap (Framed.bytes h.chunkHdrSz))

/-- What the format says of a chunk behind a header of `hdrSz` bytes, for blocks of `bs`
bytes. -/
def Documented (hdrSz : UInt16) (bs : UInt32) : Chunk → Prop
  | .raw n data => n ≠ 0 ∧ n.toNat < 2 ^ 31 ∧ data.length = n.toNat * bs.toNat ∧
      hdrSz.toNat + data.length < 2 ^ 32
  | .fill n _ => n ≠ 0 ∧ n.toNat < 2 ^ 31
  | .dontCare n => n.toNat < 2 ^ 31
  | .crc32 _ => False

def totalBlocks (cs : List Chunk) : Nat := (cs.map (·.blocks.toNat)).sum

/-- A stream in the documented format without a checksum. -/
structure InFormat (h : SparseHeader) (extra : List UInt8) (fs : List Framed) : Prop where
  magic : h.magic = sparseHeaderMagic
  majorVersion : h.majorVersion = sparseHeaderMajorVer
  fileHdrSz : h.fileHdrSz.toNat = 28 + extra.length
  chunkHdrSz : 12 ≤ h.chunkHdrSz.toNat
  blkSz_ne : h.blkSz ≠ 0
  blkSz_dvd : 4 ∣ h.blkSz.toNat
  totalChunks : h.totalChunks.toNat = fs.length
  totalBlks : h.totalBlks.toNat = totalBlocks (fs.map Framed.chunk)
  extras : ∀ f ∈ fs, 12 + f.extra.length = h.chunkHdrSz.toNat
  chunks : ∀ f ∈ fs, Documented h.chunkHdrSz h.blkSz f.chunk

/-! ## The blocks of the format -/

inductive BlockData where
  | raw (bytes : List UInt8)
  | fill (val : UInt32)
  deriving DecidableEq, Repr

def chunkBlock (bs i : Nat) : Chunk → Option BlockData
  | .raw _ data => some (.raw ((data.drop (bs * i)).take bs))
  | .fill _ v => some (.fill v)
  | .dontCare _ => none
  | .crc32 _ => none

def blockAt (bs : Nat) : List Chunk → Nat → Option BlockData
  | [], _ => none
  | c :: cs, k =>
    if k < c.blocks.toNat then chunkBlock bs k c else blockAt bs cs (k - c.blocks.toNat)

/-- The data behind the content of a block, if it is a whole block of the stream or a
whole fill. -/
def dataOf (file : List UInt8) (fd : Int) (bs : Nat) (v : BlockContent) : Option BlockData :=
  if v.len ≠ bs then none
  else
    match v.source with
    | .fill w => some (.fill w)
    | .fd d (.ofNat o) => if d = fd then some (.raw ((file.drop o).take bs)) else none
    | _ => none

/-- The nodes give every block what the chunks give it, and nothing else. -/
structure Decoded (file : List UInt8) (fd : Int) (bs : UInt32) (cs : List Chunk)
    (nodes : List BackedBlock) : Prop where
  carried : ∀ k d, blockAt bs.toNat cs k = some d →
    ∃ v, Describes bs nodes k v ∧ dataOf file fd bs.toNat v = some d
  only : ∀ k v, Describes bs nodes k v →
    ∃ d, blockAt bs.toNat cs k = some d ∧ dataOf file fd bs.toNat v = some d

theorem totalBlocks_append (cs ds : List Chunk) :
    totalBlocks (cs ++ ds) = totalBlocks cs + totalBlocks ds := by
  simp [totalBlocks]

variable {bs k : Nat} {cs : List Chunk}

theorem blockAt_of_lt (ds : List Chunk) (h : k < totalBlocks cs) :
    blockAt bs (cs ++ ds) k = blockAt bs cs k := by
  induction cs generalizing k with
  | nil => simp [totalBlocks] at h
  | cons c cs ih =>
    simp only [List.cons_append, blockAt]
    split
    · rfl
    · apply ih
      simp only [totalBlocks, List.map_cons, List.sum_cons] at h ⊢
      omega

theorem blockAt_of_le (ds : List Chunk) (h : totalBlocks cs ≤ k) :
    blockAt bs (cs ++ ds) k = blockAt bs ds (k - totalBlocks cs) := by
  induction cs generalizing k with
  | nil => rfl
  | cons c cs ih =>
    simp only [totalBlocks, List.map_cons, List.sum_cons] at h ⊢
    simp only [List.cons_append, blockAt]
    rw [if_neg (by omega), ih (by simp only [totalBlocks]; omega), Nat.sub_sub]
    rfl

/-- The blocks behind `cs`, where one chunk follows. -/
theorem blockAt_concat (c : Chunk) (h : totalBlocks cs ≤ k) : blockAt bs (cs ++ [c]) k =
      if k - totalBlocks cs < c.blocks.toNat then chunkBlock bs (k - totalBlocks cs) c else none := by
  rw [blockAt_of_le [c] h]
  rfl

theorem lt_of_blockAt {d : BlockData} (h : blockAt bs cs k = some d) : k < totalBlocks cs := by
  by_contra hk
  have hnil : blockAt bs (cs ++ []) k = _ := blockAt_of_le [] (not_lt.mp hk)
  rw [List.append_nil, h] at hnil
  cases hnil

end SystemCore.Libsparse.Decoding
