import SystemCore.Libsparse.SparseRead

/-!
# Sparse streams as lists of chunks

What a sparse stream says, apart from the code that writes or reads it: its chunks,
the bytes of a list of chunks, the list of chunks behind given bytes, and the image
they expand to. A chunk list is read back from its bytes.
-/
namespace SystemCore.Libsparse

open Lib.LittleEndian

inductive Chunk where
  | raw (blocks : UInt32) (data : List UInt8)
  | fill (blocks val : UInt32)
  | dontCare (blocks : UInt32)
  | crc32 (crc : UInt32)
  deriving DecidableEq, Repr

namespace Chunk

def type : Chunk → UInt16
  | .raw _ _ => chunkTypeRaw
  | .fill _ _ => chunkTypeFill
  | .dontCare _ => chunkTypeDontCare
  | .crc32 _ => chunkTypeCrc32

def blocks : Chunk → UInt32
  | .raw n _ => n
  | .fill n _ => n
  | .dontCare n => n
  | .crc32 _ => 0

def payload : Chunk → List UInt8
  | .raw _ data => data
  | .fill _ v => wordBytes v
  | .dontCare _ => []
  | .crc32 crc => wordBytes crc

def header (c : Chunk) : ChunkHeader := ⟨c.type, 0, c.blocks, 12 + UInt32.ofNat c.payload.length⟩

def bytes (c : Chunk) : List UInt8 := c.header.bytes ++ c.payload

/-- The part of the image that a chunk stands for, with zeros where it does not care. -/
def expand (bs : Nat) : Chunk → List UInt8
  | .raw _ data => data
  | .fill n v => readBytes (fillCopybuf v) (n.toNat * bs)
  | .dontCare n => List.replicate (n.toNat * bs) 0
  | .crc32 _ => []

def ofParts (h : ChunkHeader) (payload : List UInt8) : Option Chunk :=
  if h.chunkType = chunkTypeRaw then some (.raw h.chunkSz payload)
  else if h.chunkType = chunkTypeFill then some (.fill h.chunkSz (UInt32.ofNat (ofBytes payload)))
  else if h.chunkType = chunkTypeDontCare then some (.dontCare h.chunkSz)
  else if h.chunkType = chunkTypeCrc32 then some (.crc32 (UInt32.ofNat (ofBytes payload)))
  else none

theorem ofParts_header (c : Chunk) : ofParts c.header c.payload = some c := by
  cases c with
  | raw n data => rfl
  | fill n v => exact congrArg (fun w => some (Chunk.fill n w)) (ofNat_ofBytes_wordBytes v)
  | dontCare n => rfl
  | crc32 crc => exact congrArg (fun w => some (Chunk.crc32 w)) (ofNat_ofBytes_wordBytes crc)

theorem bytes_length (c : Chunk) : c.bytes.length = 12 + c.payload.length := by
  simp [bytes]

/-- The payload of a chunk is as long as its header says. -/
theorem header_totalSz (c : Chunk) (h : c.payload.length < 2 ^ 32) :
    (c.header.totalSz - 12).toNat = c.payload.length := by
  have he : c.header.totalSz - 12 = UInt32.ofNat c.payload.length := by
    change 12 + UInt32.ofNat c.payload.length - 12 = _
    rw [UInt32.add_comm, UInt32.add_sub_cancel]
  rw [he, UInt32.toNat_ofNat']
  exact Nat.mod_eq_of_lt h

end Chunk

/-- The chunks behind a byte string, each as long as its header says; nothing when
the bytes do not end with a chunk. -/
def parseChunks : Nat → List UInt8 → Option (List Chunk)
  | 0, _ => none
  | fuel + 1, l =>
    if l = [] then some []
    else
      let h := ChunkHeader.ofBytes (l.take 12)
      let n := (h.totalSz - 12).toNat
      if l.length < 12 + n then none
      else
        match Chunk.ofParts h ((l.drop 12).take n), parseChunks fuel (l.drop (12 + n)) with
        | some c, some cs => some (c :: cs)
        | _, _ => none

def streamHeader (stream : List UInt8) : SparseHeader := SparseHeader.ofBytes (stream.take 28)

def streamChunks (stream : List UInt8) : Option (List Chunk) :=
  parseChunks (stream.length + 1) (stream.drop 28)

def streamImage (stream : List UInt8) : Option (List UInt8) :=
  (streamChunks stream).map (·.flatMap (Chunk.expand (streamHeader stream).blkSz.toNat))

theorem parseChunks_bytes (cs : List Chunk) (hcs : ∀ c ∈ cs, c.payload.length < 2 ^ 32) :
    ∀ fuel, cs.length < fuel → parseChunks fuel (cs.flatMap Chunk.bytes) = some cs := by
  induction cs with
  | nil =>
    intro fuel hf
    obtain ⟨fuel, rfl⟩ : ∃ k, fuel = k + 1 := ⟨fuel - 1, by simp at hf; omega⟩
    rfl
  | cons c cs ih =>
    intro fuel hf
    obtain ⟨fuel, rfl⟩ : ∃ k, fuel = k + 1 := ⟨fuel - 1, by simp at hf; omega⟩
    have hrec := ih (fun d hd => hcs d (by simp [hd])) fuel (by simpa using hf)
    have hlen := c.header_totalSz (hcs c (by simp))
    have hl : ((c :: cs).flatMap Chunk.bytes) =
        c.header.bytes ++ (c.payload ++ cs.flatMap Chunk.bytes) := by
      simp [Chunk.bytes]
    have hne : (c :: cs).flatMap Chunk.bytes ≠ [] := by
      intro h
      have := congrArg List.length h
      simp [Chunk.bytes_length] at this
    have htake : ((c :: cs).flatMap Chunk.bytes).take 12 = c.header.bytes := by
      exact List.take_left' (ChunkHeader.bytes_length _)
    have hdrop : ((c :: cs).flatMap Chunk.bytes).drop 12 =
        c.payload ++ cs.flatMap Chunk.bytes := by
      exact List.drop_left' (ChunkHeader.bytes_length _)
    have hrest : ((c :: cs).flatMap Chunk.bytes).drop (12 + c.payload.length) =
        cs.flatMap Chunk.bytes := by
      rw [← List.drop_drop, hdrop, List.drop_left' rfl]
    unfold parseChunks
    rw [if_neg hne]
    simp only [htake, ChunkHeader.ofBytes_bytes, hlen, hrest, hdrop, hrec]
    rw [if_neg (by rw [hl]; simp), List.take_left' rfl, Chunk.ofParts_header]

theorem length_le_flatMap_bytes (cs : List Chunk) :
    12 * cs.length ≤ (cs.flatMap Chunk.bytes).length := by
  induction cs with
  | nil => simp
  | cons c cs ih =>
    rw [List.flatMap_cons, List.length_append, Chunk.bytes_length, List.length_cons]
    omega

section OfChunks

variable (h : SparseHeader) (cs : List Chunk)

theorem streamHeader_bytes : streamHeader (h.bytes ++ cs.flatMap Chunk.bytes) = h := by
  rw [streamHeader, List.take_left' (SparseHeader.bytes_length h), SparseHeader.ofBytes_bytes]

theorem streamChunks_bytes (hcs : ∀ c ∈ cs, c.payload.length < 2 ^ 32) :
    streamChunks (h.bytes ++ cs.flatMap Chunk.bytes) = some cs := by
  apply parseChunks_bytes cs hcs
  have := length_le_flatMap_bytes cs
  rw [List.length_append]
  omega

theorem streamImage_bytes (hcs : ∀ c ∈ cs, c.payload.length < 2 ^ 32) :
    streamImage (h.bytes ++ cs.flatMap Chunk.bytes) =
      some (cs.flatMap (Chunk.expand h.blkSz.toNat)) := by
  rw [streamImage, streamChunks_bytes h cs hcs, streamHeader_bytes, Option.map_some]

end OfChunks

end SystemCore.Libsparse
