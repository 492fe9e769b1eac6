import Mathlib.Data.List.Chain
import Mathlib.Data.UInt
import SystemCore.Libsparse.Reading

/-!
# What the reader makes of a stream

A stream whose nodes come at rising block numbers is imported exactly when every chunk
has less than `2^31` blocks and, where there is a checksum chunk, the checksum in it is
that of the expanded image.
-/
namespace SystemCore.Libsparse

open List

/-- Chunks that add nodes come at rising block numbers: `top` is where the last one was
added, `cur` where the next one would be. -/
def InOrder : Option UInt32 → UInt32 → List Chunk → Prop
  | _, _, [] => True
  | top, cur, c :: cs =>
    (c.adds = true → ∀ t ∈ top, t < cur) ∧
      InOrder (if c.adds then some cur else top) (cur + c.blocks) cs

inductive Reads (fd : Int) : List Chunk → ChunkLoop → ChunkLoop → Prop
  | nil (st : ChunkLoop) : Reads fd [] st st
  | cons {c : Chunk} {cs : List Chunk} {st st1 st2 : ChunkLoop} :
      ReadsChunk fd c st st1 → Reads fd cs st1 st2 → Reads fd (c :: cs) st st2

namespace Reads

variable {fd : Int} {cs : List Chunk} {st st' : ChunkLoop}

theorem len (h : Reads fd cs st st') : st'.reader.s.len = st.reader.s.len := by
  induction h with
  | nil st => rfl
  | cons hc _ ih => exact ih.trans hc.len

theorem pos (h : Reads fd cs st st') :
    st'.reader.pos = st.reader.pos + (cs.flatMap Chunk.bytes).length := by
  induction h with
  | nil st => rfl
  | cons hc _ ih => rw [ih, hc.pos, flatMap_cons, length_append, Nat.add_assoc]

theorem curBlock (h : Reads fd cs st st') :
    st'.curBlock = st.curBlock + (cs.map Chunk.blocks).sum := by
  induction h with
  | nil st => simp
  | cons hc _ ih => rw [ih, hc.curBlock, map_cons, sum_cons, UInt32.add_assoc]

theorem crc (h : Reads fd cs st st') : st'.reader.crc = st.reader.crc.map
    (sparseCrc32 · (cs.flatMap (Chunk.expand st.reader.s.blockSize.toNat))) := by
  induction h with
  | nil st => cases st.reader.crc <;> simp
  | cons hc _ ih =>
    rw [ih, hc.crc, hc.blockSize, Option.map_map, flatMap_cons]
    congr 1
    funext x
    exact sparseCrc32_append _ _ _

end Reads

section ChunkLists

variable {freed : FreedRead} {file : List UInt8} {top : Option UInt32} {st st1 : ChunkLoop}
  {hdrSz : UInt16} (fd : Int)

theorem readChunks_succ {n : Nat} (h : readChunk freed file fd hdrSz st = .ok st1) :
    readChunks freed file fd hdrSz (n + 1) st = readChunks freed file fd hdrSz n st1 := by
  rw [readChunks, h]

theorem readChunks_succ_inv {n : Nat} {st' : ChunkLoop}
    (h : readChunks freed file fd hdrSz (n + 1) st = .ok st') :
    ∃ st1, readChunk freed file fd hdrSz st = .ok st1 ∧
      readChunks freed file fd hdrSz n st1 = .ok st' := by
  rw [readChunks] at h
  cases hc : readChunk freed file fd hdrSz st with
  | error e => rw [hc] at h; cases h
  | ok st1 => rw [hc] at h; exact ⟨st1, rfl, h⟩

theorem readChunks_add {a b : Nat} :
    ∀ {st st1 : ChunkLoop}, readChunks freed file fd 12 a st = .ok st1 →
      readChunks freed file fd 12 (a + b) st = readChunks freed file fd 12 b st1 := by
  induction a with
  | zero =>
    intro st st1 h
    obtain rfl := Except.ok.inj h
    rw [Nat.zero_add]
  | succ a ih =>
    intro st st1 h
    obtain ⟨st2, h1, h2⟩ := readChunks_succ_inv fd h
    rw [Nat.add_right_comm, readChunks_succ fd h1, ih h2]

/-- All nodes were added at or below `top`. -/
def Under (top : Option UInt32) (nodes : List BackedBlock) : Prop :=
  ∀ n ∈ nodes, ∃ t ∈ top, n.block ≤ t

theorem Under.lt {nodes : List BackedBlock} (h : Under top nodes) {cur : UInt32}
    (ht : ∀ t ∈ top, t < cur) : ∀ n ∈ nodes, n.block < cur := by
  intro n hn
  obtain ⟨t, htop, hle⟩ := h n hn
  exact Nat.lt_of_le_of_lt hle (ht t htop)

theorem Under.reads {fd : Int} {c : Chunk} (h : Under top st.reader.s.list.dataBlocks)
    (hr : ReadsChunk fd c st st1) (ht : c.adds = true → ∀ t ∈ top, t < st.curBlock) :
    Under (if c.adds then some st.curBlock else top) st1.reader.s.list.dataBlocks := by
  cases hadds : c.adds with
  | true =>
    obtain ⟨bb, hnode, hs⟩ := hr.node hadds
    intro n hn
    rw [hs] at hn
    refine ⟨st.curBlock, rfl, ?_⟩
    rcases mem_snocBb hn with hn | ⟨m, hm, hn⟩
    · rw [hn, hnode.block]
      exact UInt32.le_refl _
    · rw [← hn]
      exact UInt32.le_of_lt (h.lt (ht hadds) m hm)
  | false =>
    rw [hr.same hadds]
    exact h

/-- A fill behind one of its value, which takes its node in. -/
def sameFill : Chunk → Chunk → Bool
  | .fill _ v, .fill _ w => v == w
  | _, _ => false

/-- No chunk comes behind a fill that is merged. -/
def MergesLast (cs : List Chunk) : Prop :=
  (∀ c ∈ cs, c.adds = true) ∧ cs.dropLast.IsChain fun c d => sameFill c d = false

/-- `last_used` is good, and the last node is that of the chunk `prev`. -/
structure Kept (prev : Option Chunk) (st : ChunkLoop) : Prop where
  valid : LastUsed.Valid st.reader.s.list
  empty : st.reader.s.list.dataBlocks = [] → st.reader.s.list.lastUsed = none
  last : ∀ n ∈ st.reader.s.list.dataBlocks.getLast?, ∀ v, n.backing = .fill v →
    ∃ k, prev = some (.fill k v)
  behind : ∀ n ∈ st.reader.s.list.dataBlocks, ∀ d o, n.backing = .fd d o →
    o + n.len.toNat ≤ st.reader.pos

section Keeping

variable {fd : Int} {prev : Option Chunk} {c : Chunk} (h : Kept prev st)
  (hne : ∀ d ∈ prev, sameFill d c = false)

include h hne in
/-- The node of a chunk that does not repeat the fill in front of it is not merged. -/
theorem Kept.not_mergeable {bb last : BackedBlock} {addr : Nat}
    (hnode : NodeOf fd st.reader.s.blockSize (st.reader.pos + 12) addr st.curBlock c bb)
    (hlast : last ∈ st.reader.s.list.dataBlocks.getLast?) :
    mergeable st.reader.s.blockSize last bb = false := by
  rw [← Bool.not_eq_true]
  intro hm
  rw [mergeable, Bool.and_eq_true] at hm
  obtain ⟨n, v, rfl, hb⟩ := hnode.fill_of_compatible (fun d o hb => by
    have := h.behind last (mem_of_getLast? hlast) d o hb
    omega) hm.2
  obtain ⟨k, hk⟩ := h.last last hlast v hb
  have := hne _ hk
  simp [sameFill] at this

include h hne in
/-- Such a chunk leaves `last_used` good. -/
theorem Kept.step (hadds : c.adds = true) (hi : c.Image st.reader.s.blockSize)
    (hr : ReadsChunk fd c st st1) : Kept (some c) st1 := by
  obtain ⟨bb, hnode, hs⟩ := hr.node hadds
  have hnodes : st1.reader.s.list.dataBlocks = st.reader.s.list.dataBlocks ++ [bb] := by
    rcases snocBb_cases st.reader.s.blockSize st.reader.s.list.dataBlocks bb with
      ⟨before, last, hl, hm, -⟩ | ⟨-, hsnoc⟩
    · rw [h.not_mergeable hne hnode (by rw [hl]; simp)] at hm
      cases hm
    · exact hs.trans hsnoc
  constructor
  case valid =>
    intro a ha
    rw [hr.lastUsed] at ha
    by_cases hnil : st.reader.s.list.dataBlocks = []
    · rw [if_neg (by simp [hnil]), h.empty hnil] at ha
      cases ha
    · rw [if_pos ⟨hadds, hnil⟩] at ha
      exact ⟨bb, by rw [hnodes]; simp, hnode.addr.trans (Option.some.inj ha)⟩
  case empty =>
    intro hnil
    rw [hnodes] at hnil
    simp at hnil
  case last =>
    intro n hn v hb
    rw [hnodes, List.getLast?_concat] at hn
    obtain rfl := Option.some.inj hn
    rcases hnode.backing with ⟨k, data, -, hb'⟩ | ⟨k, w, rfl, hb'⟩ <;> rw [hb'] at hb <;> cases hb
    exact ⟨k, rfl⟩
  case behind =>
    have hpos := hr.pos
    intro n hn d o hb
    rw [hnodes] at hn
    rcases mem_append.mp hn with hn | hn
    · have := h.behind n hn d o hb
      omega
    obtain rfl := mem_singleton.mp hn
    rcases hnode.backing with ⟨k, data, rfl, hb'⟩ | ⟨k, w, -, hb'⟩ <;> rw [hb'] at hb <;> cases hb
    have hlen : n.len.toNat = data.length := by
      rw [hnode.len, UInt32.toNat_mul, hi.1]
      exact Nat.mod_eq_of_lt (hi.1 ▸ hi.2)
    rw [Chunk.bytes_length, Chunk.payload] at hpos
    omega

end Keeping

/-- What the chunks behind one that is not the last of them find. -/
theorem mergesLast_tail {prev : Option Chunk} {c : Chunk} {cs : List Chunk} (hcs : cs ≠ [])
    (h : MergesLast (prev.toList ++ c :: cs)) :
    (∀ d ∈ prev, sameFill d c = false) ∧ MergesLast ((some c).toList ++ cs) := by
  obtain ⟨hadds, hchain⟩ := h
  have hdrop : (prev.toList ++ c :: cs).dropLast = prev.toList ++ (c :: cs).dropLast :=
    dropLast_append_of_ne_nil (cons_ne_nil c cs)
  rw [hdrop, isChain_append] at hchain
  obtain ⟨-, hchain, hjoin⟩ := hchain
  refine ⟨fun d hd => hjoin d (by rw [hd]; rfl) c (by rw [dropLast_cons_of_ne_nil hcs]; rfl), ?_, hchain⟩
  intro d hd
  exact hadds d (mem_append_right _ hd)

/-- A list of chunks in order is read when no chunk has `2^31` blocks and, where a read of
freed memory traps, none comes behind a merged fill. -/
theorem readChunks_image (freed : FreedRead) (cs : List Chunk) :
    ∀ {top : Option UInt32} {prev : Option Chunk} {st : ChunkLoop} {rest : List UInt8},
      st.reader.s.blockSize ≠ 0 → InOrder top st.curBlock cs → Under top st.reader.s.list.dataBlocks →
      (∀ c ∈ cs, c.Image st.reader.s.blockSize) → (∀ c ∈ cs, c.blocks.toNat < 2 ^ 31) →
      file.drop st.reader.pos = cs.flatMap Chunk.bytes ++ rest →
      (freed = .trap → cs = [] ∨ Kept prev st ∧ MergesLast (prev.toList ++ cs)) →
      ∃ st', readChunks freed file fd 12 cs.length st = .ok st' ∧ Reads fd cs st st' := by
  induction cs with
  | nil =>
    intro top prev st rest _ _ _ _ _ _ _
    exact ⟨st, rfl, .nil st⟩
  | cons c cs ih =>
    intro top prev st rest hbs ho hu hi hn h hkept
    rw [flatMap_cons, append_assoc] at h
    obtain ⟨st1, hr, hs⟩ := readChunk_image fd freed hbs (hi c (by simp)) (hn c (by simp)) h
      (fun ha => hu.lt (ho.1 ha)) (fun hf => ((hkept hf).resolve_left (by simp)).1.valid)
    have hkept' : freed = .trap → cs = [] ∨ Kept (some c) st1 ∧ MergesLast ((some c).toList ++ cs) := by
      intro hf
      obtain ⟨hk, hm⟩ := (hkept hf).resolve_left (by simp)
      by_cases hcs : cs = []
      · exact .inl hcs
      obtain ⟨hne, hm'⟩ := mergesLast_tail hcs hm
      exact .inr ⟨hk.step hne (hm'.1 c (by simp)) (hi c (by simp)) hs, hm'⟩
    obtain ⟨st', hr', hs'⟩ := @ih (if c.adds then some st.curBlock else top) (some c) st1 rest
      (hs.blockSize ▸ hbs) (hs.curBlock ▸ ho.2) (hu.reads hs ho.1)
      (fun d hd => hs.blockSize ▸ hi d (by simp [hd])) (fun d hd => hn d (by simp [hd]))
      (hs.pos ▸ drop_add_of_drop h rfl) hkept'
    exact ⟨st', by rw [length_cons, readChunks_succ fd hr, hr'], .cons hs hs'⟩

variable (pick : List BackedBlock → BackedBlock → Nat)

/-- A reader that gets through the chunks has found all of them below `2^31` blocks. -/
theorem readChunks_blocks_lt (cs : List Chunk) :
    ∀ {top : Option UInt32} {st st' : ChunkLoop} {rest : List UInt8} {k : Nat},
      st.reader.s.blockSize ≠ 0 → InOrder top st.curBlock cs →
      Under top st.reader.s.list.dataBlocks → (∀ c ∈ cs, c.Image st.reader.s.blockSize) →
      file.drop st.reader.pos = cs.flatMap Chunk.bytes ++ rest →
      readChunks (.live pick) file fd 12 (cs.length + k) st = .ok st' →
      (∀ c ∈ cs, c.blocks.toNat < 2 ^ 31) ∧
        ∃ st1, Reads fd cs st st1 ∧ readChunks (.live pick) file fd 12 k st1 = .ok st' := by
  induction cs with
  | nil =>
    intro top st st' rest k _ _ _ _ _ hr
    refine ⟨by simp, st, .nil st, ?_⟩
    simpa using hr
  | cons c cs ih =>
    intro top st st' rest k hbs ho hu hi h hr
    rw [flatMap_cons, append_assoc] at h
    rw [length_cons, Nat.add_right_comm] at hr
    obtain ⟨st1, hr1, hr2⟩ := readChunks_succ_inv fd hr
    have hc := readChunk_blocks_lt fd h hr1
    obtain ⟨st2, hr3, hs⟩ := readChunk_image fd (.live pick) hbs (hi c (by simp)) hc h
      (fun ha => hu.lt (ho.1 ha)) (by simp)
    rw [hr1] at hr3
    obtain rfl := Except.ok.inj hr3
    obtain ⟨hcs, st3, hs3, hr4⟩ := @ih (if c.adds then some st.curBlock else top) st1 _ _ _
      (hs.blockSize ▸ hbs) (hs.curBlock ▸ ho.2) (hu.reads hs ho.1)
      (fun d hd => hs.blockSize ▸ hi d (by simp [hd])) (hs.pos ▸ drop_add_of_drop h rfl) hr2
    refine ⟨?_, st3, .cons hs hs3, hr4⟩
    intro d hd
    rcases mem_cons.mp hd with rfl | hd
    · exact hc
    · exact hcs d hd

end ChunkLists

/-! ## Importing -/

/-- `sparse_file_import` returns a file. -/
def Imported (freed : FreedRead) (file : List UInt8) (fd : Int) (crc : Bool) : Prop :=
  ∃ s, sparseFileImport freed file fd 0 crc = .ok (some s)

/-- The loop in front of the first chunk, behind a header that is `n` bytes longer. -/
def firstChunk (h : SparseHeader) (n : Nat) (crc : Bool) : ChunkLoop :=
  ⟨⟨sparseFileNew h.blkSz (toInt64 (h.totalBlks.toNat * h.blkSz.toNat)), 0, 28 + n,
    if crc then some 0 else none⟩, 0⟩

theorem firstChunk_blockSize (h : SparseHeader) (n : Nat) (crc : Bool) :
    (firstChunk h n crc).reader.s.blockSize = h.blkSz := rfl

theorem firstChunk_len (h : SparseHeader) (n : Nat) (crc : Bool) :
    (firstChunk h n crc).reader.s.len = toInt64 (h.totalBlks.toNat * h.blkSz.toNat) := by
  simp only [firstChunk, sparseFileNew]

theorem sparseFileImport_eq (freed : FreedRead) {h : SparseHeader} {n : Nat}
    (hacc : h.accepted = true) (hf : h.fileHdrSz.toNat = 28 + n) (body : List UInt8) (fd : Int)
    (crc : Bool) :
    sparseFileImport freed (h.bytes ++ body) fd 0 crc =
      nullOnErr (match readChunks freed (h.bytes ++ body) fd h.chunkHdrSz h.totalChunks.toNat
          (firstChunk h n crc) with
        | .error e => .error e
        | .ok st =>
          if h.totalBlks ≠ st.curBlock then .error (.err (-einval))
          else .ok (st.reader.s, st.reader.fresh)) := by
  have hread : readAll (h.bytes ++ body) 0 h.bytes.length = _ := readAll_of_drop drop_zero
  have hpos : 28 + (h.fileHdrSz.toNat - 28) = 28 + n := by omega
  rw [SparseHeader.bytes_length] at hread
  simp only [sparseFileImport, sparseFileRead, sparseFileReadSparse, sparseHeaderLen, hread,
    SparseHeader.ofBytes_bytes, hacc, not_true_eq_false, and_false, ↓reduceIte, Nat.zero_add, hpos]
  rfl

/-- A header that agrees with the image chunks `cs` behind it, and with `extra` further
chunks. -/
structure Agrees (h : SparseHeader) (cs : List Chunk) (extra : Nat) : Prop where
  accepted : h.accepted = true
  fileHdrSz : h.fileHdrSz = 28
  chunkHdrSz : h.chunkHdrSz = 12
  blkSz : h.blkSz ≠ 0
  totalChunks : h.totalChunks.toNat = cs.length + extra
  totalBlks : h.totalBlks = (cs.map Chunk.blocks).sum
  order : InOrder none 0 cs
  image : ∀ c ∈ cs, c.Image h.blkSz

section Importing

variable (pick : List BackedBlock → BackedBlock → Nat) (fd : Int) {h : SparseHeader}
  {cs : List Chunk}

/-- The chunks behind the header are read by a reader that starts in front of them. -/
theorem Agrees.start {extra : Nat} (ha : Agrees h cs extra) (crc : Bool) (more : List UInt8) :
    (firstChunk h 0 crc).reader.s.blockSize ≠ 0 ∧ InOrder none (firstChunk h 0 crc).curBlock cs ∧
      Under none (firstChunk h 0 crc).reader.s.list.dataBlocks ∧
      (∀ c ∈ cs, c.Image (firstChunk h 0 crc).reader.s.blockSize) ∧
      (h.bytes ++ (cs.flatMap Chunk.bytes ++ more)).drop (firstChunk h 0 crc).reader.pos =
        cs.flatMap Chunk.bytes ++ more := by
  refine ⟨ha.blkSz, ha.order, ?_, ha.image, drop_left' (SparseHeader.bytes_length h)⟩
  intro n hn
  simp [firstChunk, sparseFileNew, backedBlockListNew] at hn

theorem Agrees.import_eq {extra : Nat} (ha : Agrees h cs extra) (freed : FreedRead)
    (body : List UInt8) (crc : Bool) :
    sparseFileImport freed (h.bytes ++ body) fd 0 crc =
      nullOnErr (match readChunks freed (h.bytes ++ body) fd 12 (cs.length + extra)
          (firstChunk h 0 crc) with
        | .error e => .error e
        | .ok st =>
          if h.totalBlks ≠ st.curBlock then .error (.err (-einval))
          else .ok (st.reader.s, st.reader.fresh)) := by
  have hf : h.fileHdrSz.toNat = 28 + 0 := by rw [ha.fileHdrSz]; rfl
  rw [sparseFileImport_eq freed ha.accepted hf, ha.chunkHdrSz, ha.totalChunks]

/-- The chunks come to the blocks of the header. -/
theorem Agrees.curBlock {extra : Nat} (ha : Agrees h cs extra) {crc : Bool} {st : ChunkLoop}
    (hs : Reads fd cs (firstChunk h 0 crc) st) : st.curBlock = h.totalBlks := by
  rw [hs.curBlock, ha.totalBlks]
  exact UInt32.zero_add _

/-- The file that a stream without a checksum is imported as. -/
theorem import_reads (ha : Agrees h cs 0) (hn : ∀ c ∈ cs, c.blocks.toNat < 2 ^ 31) :
    ∃ st, sparseFileImport (.live pick) (h.bytes ++ cs.flatMap Chunk.bytes) fd 0 false =
        .ok (some st.reader.s) ∧ Reads fd cs (firstChunk h 0 false) st := by
  obtain ⟨hbs, ho, hu, hi, hd⟩ := ha.start false []
  rw [append_nil] at hd
  obtain ⟨st, hr, hs⟩ := @readChunks_image _ fd (.live pick) cs none none _ _ hbs ho hu hi hn
    (hd.trans (append_nil _).symm) (by simp)
  refine ⟨st, ?_, hs⟩
  rw [ha.import_eq, Nat.add_zero, hr]
  simp [ha.curBlock fd hs, nullOnErr]

theorem imported_iff (ha : Agrees h cs 0) :
    Imported (.live pick) (h.bytes ++ cs.flatMap Chunk.bytes) fd false ↔
      ∀ c ∈ cs, c.blocks.toNat < 2 ^ 31 := by
  constructor
  · rintro ⟨s, hs⟩
    obtain ⟨hbs, ho, hu, hi, hd⟩ := ha.start false []
    rw [append_nil] at hd
    rw [ha.import_eq] at hs
    cases hr : readChunks (.live pick) (h.bytes ++ cs.flatMap Chunk.bytes) fd 12 (cs.length + 0)
        (firstChunk h 0 false) with
    | error e => rw [hr] at hs; cases e <;> cases hs
    | ok st =>
      exact (readChunks_blocks_lt fd pick cs hbs ho hu hi
        (hd.trans (append_nil _).symm) hr).1
  · intro hn
    obtain ⟨st, hs, -⟩ := import_reads pick fd ha hn
    exact ⟨_, hs⟩

/-- With a checksum chunk at the end that holds the checksum of the image. -/
theorem imported_crc (freed : FreedRead) (ha : Agrees h cs 1)
    (hn : ∀ c ∈ cs, c.blocks.toNat < 2 ^ 31) (hm : freed = .trap → MergesLast cs) :
    Imported freed (h.bytes ++ (cs ++ [Chunk.crc32 (sparseCrc32 0
      (cs.flatMap (Chunk.expand h.blkSz.toNat)))]).flatMap Chunk.bytes) fd true := by
  set w := sparseCrc32 0 (cs.flatMap (Chunk.expand h.blkSz.toNat))
  obtain ⟨hbs, ho, hu, hi, hd⟩ := ha.start true (Chunk.crc32 w).bytes
  have hfile : h.bytes ++ (cs ++ [Chunk.crc32 w]).flatMap Chunk.bytes =
      h.bytes ++ (cs.flatMap Chunk.bytes ++ (Chunk.crc32 w).bytes) := by simp
  have hstart : Kept none (firstChunk h 0 true) :=
    ⟨by simp [LastUsed.Valid, firstChunk, sparseFileNew, backedBlockListNew], fun _ => rfl,
      by simp [firstChunk, sparseFileNew, backedBlockListNew],
      by simp [firstChunk, sparseFileNew, backedBlockListNew]⟩
  obtain ⟨st, hr, hs⟩ := readChunks_image fd freed cs hbs ho hu hi hn hd
    (fun hf => .inr ⟨hstart, hm hf⟩)
  -- the last turn of the loop
  have hdrop : (h.bytes ++ (cs.flatMap Chunk.bytes ++ (Chunk.crc32 w).bytes)).drop st.reader.pos =
      (Chunk.crc32 w).bytes ++ [] := by
    rw [hs.pos, append_nil]
    exact drop_add_of_drop hd rfl
  have hcrc : st.reader.crc = some w := hs.crc
  have hlast := @readChunk_crc32 _ _ fd freed _ _ _ hdrop hcrc
  rw [if_pos rfl] at hlast
  refine ⟨st.reader.s, ?_⟩
  rw [hfile, ha.import_eq, readChunks_add fd hr, readChunks_succ fd hlast]
  simp [readChunks, ha.curBlock fd hs, nullOnErr]

end Importing

end SystemCore.Libsparse
