import SystemCore.Libsparse.Checksum
import SystemCore.Libsparse.NormalWrite

/-!
# The sparse image against the normal one

The two writers agree on a layout, whatever its contents are, exactly when every fill
node ends with a block and its words fit the blocks, and when the skip chunk behind the
last node can count its blocks.
-/
namespace SystemCore.Libsparse

open Lib.CeilDiv List

/-- A fill node that rounding up leaves as it is, with whole words in a block. -/
def FillAligned (bs : UInt32) (bb : BackedBlock) : Prop :=
  ∀ v, bb.backing = .fill v → align bb.len bs = bb.len ∧ (bb.len ≠ 0 → 4 ∣ bs.toNat)

/-! ## Aligned nodes -/

variable {bs : UInt32} (v : UInt32)

theorem fillBuf_getD {i : Nat} (hi : i < 4 * (bs.toNat / 4)) :
    (fillBuf bs v).getD i 0 = fillCopybuf v i := by
  simp only [fillBuf, fillWords_eq, getD_eq_getElem?_getD]
  rw [List.getElem?_append_left (by simpa using hi)]
  simp [readBytes, hi]

theorem fillBuf_getD_tail {i : Nat} (hi : 4 * (bs.toNat / 4) ≤ i) :
    (fillBuf bs v).getD i 0 = 0 := by
  simp only [fillBuf, fillWords_eq, getD_eq_getElem?_getD]
  rw [List.getElem?_append_right (by simpa using hi), List.getElem?_replicate]
  split <;> rfl

variable {bb : BackedBlock} {env : Env} {s : SparseFile} {crc : Bool}

section Nodes

variable {env : Env} {bs : UInt32} (hbs : 0 < bs.toNat)

include hbs in
theorem fillShown_eq (h4 : 4 ∣ bs.toNat) (v : UInt32) (n : Nat) :
    fillShown bs v n = readBytes (fillCopybuf v) n := by
  apply map_congr_left
  intro i _
  rw [fillBuf_getD v (by rw [Nat.mul_div_cancel' h4]; exact Nat.mod_lt _ hbs)]
  unfold fillCopybuf
  rw [Nat.mod_mod_of_dvd _ h4]

include hbs in
theorem nodeShown_eq (ha : FillAligned bs bb) :
    nodeShown env bs bb = (nodeChunk env bs bb).expand bs.toNat := by
  unfold nodeShown nodeChunk
  cases hb : bb.backing with
  | data p => simp only [content, hb]; rfl
  | file f path o => simp only [content, hb]; rfl
  | fd d o => simp only [content, hb]; rfl
  | fill v =>
    obtain ⟨hal, h4⟩ := ha v hb
    have hn : (divRoundUp bb.len bs).toNat * bs.toNat = bb.len.toNat := by
      rw [Nat.mul_comm, ← align_toNat, hal]
    simp only [content, hb, Content.shown, Content.chunk, Chunk.expand, hn]
    by_cases h0 : bb.len = 0
    · rw [h0]; rfl
    · exact fillShown_eq hbs (h4 h0) v _

theorem gapShown_eq (bs lastBlock block : UInt32) :
    gapShown bs lastBlock block = (gapChunks lastBlock block).flatMap (Chunk.expand bs.toNat) := by
  unfold gapShown gapChunks
  split <;> simp [Chunk.expand]

include hbs in
/-- Aligned nodes are written alike. -/
theorem blockShown_eq {nodes : List BackedBlock} (ha : ∀ bb ∈ nodes, FillAligned bs bb)
    (lastBlock : UInt32) :
    blockShown env bs nodes lastBlock =
      (blockChunks env bs nodes lastBlock).flatMap (Chunk.expand bs.toNat) := by
  induction nodes generalizing lastBlock with
  | nil => rfl
  | cons bb rest ih =>
    rw [blockShown, blockChunks, flatMap_append, flatMap_cons, gapShown_eq,
      nodeShown_eq hbs (ha bb (by simp)), ih (fun b hb => ha b (by simp [hb]))]

/-! ## Lengths -/

/-- The end of the last node, without a wrap. -/
def lastEndOf (bs : UInt32) : List BackedBlock → Nat → Nat
  | [], n => n
  | bb :: rest, _ => lastEndOf bs rest (bb.block.toNat + (divRoundUp bb.len bs).toNat)

def SparseFile.lastEnd (s : SparseFile) : Nat := lastEndOf s.blockSize s.list.dataBlocks 0

theorem gapShown_length (bs lastBlock block : UInt32) :
    (gapShown bs lastBlock block).length = (block.toNat - lastBlock.toNat) * bs.toNat := by
  unfold gapShown
  split
  · rename_i hlt
    rw [length_replicate, UInt32.toNat_sub_of_le _ _ (UInt32.le_of_lt hlt)]
  · rename_i hge
    have h : block.toNat ≤ lastBlock.toNat := Nat.le_of_not_lt hge
    rw [Nat.sub_eq_zero_of_le h]
    simp

include hbs in
theorem nodeChunk_expand_length {most : Nat} (hbs' : bs.toNat < 2 ^ 31)
    (hw : writable most env bb = true) :
    ((nodeChunk env bs bb).expand bs.toNat).length = (divRoundUp bb.len bs).toNat * bs.toNat := by
  have hi := nodeChunk_image hbs hbs' hw
  unfold nodeChunk at hi ⊢
  cases hc : content env bb with
  | fill v => simp [Content.chunk, Chunk.expand]
  | data bytes =>
    rw [hc] at hi
    exact hi.1

include hbs in
/-- The chunks of the nodes expand up to the end of the last one. -/
theorem blockChunks_expand_length {most : Nat} (hbs' : bs.toNat < 2 ^ 31)
    {nodes : List BackedBlock} : ∀ {lastBlock : UInt32} {n : Nat}, Sorted bs nodes →
      (∀ bb ∈ nodes, writable most env bb = true) →
      (∀ bb ∈ nodes, n ≤ bb.block.toNat ∧ lastBlock.toNat = n) →
      n * bs.toNat + ((blockChunks env bs nodes lastBlock).flatMap (Chunk.expand bs.toNat)).length =
        lastEndOf bs nodes n * bs.toNat := by
  induction nodes with
  | nil => intro lastBlock n _ _ _; simp [blockChunks, lastEndOf]
  | cons bb rest ih =>
    intro lastBlock n hs hw hl
    obtain ⟨hle, hn⟩ := hl bb (by simp)
    have hgap : ((gapChunks lastBlock bb.block).flatMap (Chunk.expand bs.toNat)).length =
        (bb.block.toNat - n) * bs.toNat := by
      rw [← gapShown_eq, ← hn]
      exact gapShown_length bs lastBlock bb.block
    have hrec := @ih (nextBlock bs bb)
      (bb.block.toNat + (divRoundUp bb.len bs).toNat) hs.tail
      (fun b hb => hw b (by simp [hb])) (hs.nextBlock_toNat hbs)
    rw [blockChunks, lastEndOf, ← hrec, flatMap_append, flatMap_cons,
      length_append, length_append, hgap,
      nodeChunk_expand_length hbs hbs' (hw bb (by simp)), Nat.add_mul, Nat.sub_mul]
    have := Nat.mul_le_mul_right bs.toNat hle
    omega

theorem lastBlockOf_toNat (bs : UInt32) (nodes : List BackedBlock) :
    ∀ {lastBlock : UInt32} {n : Nat}, lastBlock.toNat = n % 2 ^ 32 →
      (lastBlockOf bs nodes lastBlock).toNat = lastEndOf bs nodes n % 2 ^ 32 := by
  induction nodes with
  | nil => intro lastBlock n h; exact h
  | cons bb rest ih =>
    intro lastBlock n _
    exact ih (UInt32.toNat_add _ _)

include hbs in
theorem lastEndOf_le {nodes : List BackedBlock} {m : Nat} :
    ∀ {n : Nat}, (∀ bb ∈ nodes, endBlock bs bb ≤ m) → n ≤ m → lastEndOf bs nodes n ≤ m := by
  induction nodes with
  | nil => intro n _ h; exact h
  | cons bb rest ih =>
    intro n hr _
    exact ih (fun b hb => hr b (by simp [hb]))
      ((Nat.add_le_add_left (divRoundUp_le hbs) _).trans (hr bb (by simp)))

end Nodes

section File

variable {most : Nat} {env : Env} {s : SparseFile}
  (hbs : 0 < s.blockSize.toNat) (hbs' : s.blockSize.toNat < 2 ^ 31) (hlen : 0 ≤ s.len)
  (hd : (s.blockSize.toNat : Int) ∣ s.len) (hs : Sorted s.blockSize s.list.dataBlocks)
  (hr : s.InRange) (hw : ∀ bb ∈ s.list.dataBlocks, writable most env bb = true)

include hbs hr in
theorem lastEnd_le : s.lastEnd ≤ s.blocks :=
  lastEndOf_le hbs hr (Nat.zero_le _)

theorem lastBlock_toNat (s : SparseFile) : s.lastBlock.toNat = s.lastEnd % 2 ^ 32 :=
  lastBlockOf_toNat _ _ rfl

include hbs hlen in
/-- The skip chunk at the end counts its blocks in 32 bits. -/
theorem endChunks_expand (hr : s.InRange) (hd : (s.blockSize.toNat : Int) ∣ s.len) :
    (endChunks s).flatMap (Chunk.expand s.blockSize.toNat) =
      List.replicate ((s.blocks - s.lastEnd) % 2 ^ 32 * s.blockSize.toNat) 0 := by
  have hle := lastEnd_le hbs hr
  have hb := lastBlock_toNat s
  rw [endChunks_of_dvd hbs hlen (lastBlock_le hbs hr) hd]
  split
  · rw [flatMap_cons, flatMap_nil, append_nil, Chunk.expand, lowWord_natCast,
      show (s.blocks - s.lastBlock.toNat) % 2 ^ 32 = (s.blocks - s.lastEnd) % 2 ^ 32 by omega]
  · rw [show s.blocks - s.lastEnd = 0 by omega]
    simp

include hbs hlen hd in
theorem blocks_mul : s.blocks * s.blockSize.toNat = s.len.toNat := by
  rw [SparseFile.blocks, Nat.mul_comm]
  exact mul_ceilDiv_of_dvd hbs (dvd_toNat hlen hd)

include hbs hbs' hs hw in
theorem nodes_expand_length :
    ((blockChunks env s.blockSize s.list.dataBlocks 0).flatMap
      (Chunk.expand s.blockSize.toNat)).length = s.lastEnd * s.blockSize.toNat := by
  have h := @blockChunks_expand_length _ _ hbs _ hbs' _ 0 0 hs hw
    (fun bb _ => ⟨Nat.zero_le _, rfl⟩)
  rwa [Nat.zero_mul, Nat.zero_add] at h

theorem normalOf_length (env : Env) (s : SparseFile) : (normalOf env s).length = s.len.toNat := by
  rw [normalOf, length_take, length_append, length_replicate]
  omega

include hbs hbs' hlen hd hs hr hw in
/-- Aligned files whose end can be skipped come out the same. -/
theorem imageOf_eq_normalOf (hend : s.blocks - s.lastEnd < 2 ^ 32)
    (ha : ∀ bb ∈ s.list.dataBlocks, FillAligned s.blockSize bb) :
    imageOf env s = normalOf env s := by
  have hx := nodes_expand_length hbs hbs' hs hw
  have hT := blocks_mul hbs hlen hd
  have hle := Nat.mul_le_mul_right s.blockSize.toNat (lastEnd_le hbs hr)
  rw [normalOf, blockShown_eq hbs ha, imageOf, imageChunks, flatMap_append,
    endChunks_expand hbs hlen hr hd, Nat.mod_eq_of_lt hend, take_append, hx, ← hT,
    take_of_length_le (by rw [hx]; exact hle), take_replicate, ← Nat.sub_mul,
    Nat.min_eq_left (Nat.mul_le_mul_right _ (Nat.sub_le _ _))]

end File

/-! ## Layouts -/

/-- The same node up to the value of a fill. -/
def SameShape (a b : BackedBlock) : Prop :=
  a.block = b.block ∧ a.len = b.len ∧
    (a.backing = b.backing ∨ ∃ v w, a.backing = .fill v ∧ b.backing = .fill w)

structure SameLayout (s s' : SparseFile) : Prop where
  len : s'.len = s.len
  blockSize : s'.blockSize = s.blockSize
  nodes : List.Forall₂ SameShape s.list.dataBlocks s'.list.dataBlocks

section Layouts

variable {bs : UInt32} {nodes nodes' : List BackedBlock} (h : List.Forall₂ SameShape nodes nodes')

include h

theorem sameShape_map : nodes.map (fun n => (n.block, n.len)) =
    nodes'.map (fun n => (n.block, n.len)) := by
  induction h with
  | nil => rfl
  | cons hab _ ih => rw [map_cons, map_cons, ih, hab.1, hab.2.1]

theorem sameShape_sorted (hs : Sorted bs nodes) : Sorted bs nodes' := by
  let R : UInt32 × UInt32 → UInt32 × UInt32 → Prop := fun a b =>
    a.1 < b.1 ∧ a.1.toNat + a.2.toNat ⌈/⌉ bs.toNat ≤ b.1.toNat
  have hp : (nodes.map (fun n => (n.block, n.len))).Pairwise R := pairwise_map.mpr hs
  rw [sameShape_map h] at hp
  exact pairwise_map.mp hp

theorem sameShape_mem {b : BackedBlock} (hb : b ∈ nodes') : ∃ a ∈ nodes, SameShape a b := by
  induction h with
  | nil => cases hb
  | cons hab _ ih =>
    rcases mem_cons.mp hb with rfl | hb
    · exact ⟨_, by simp, hab⟩
    · obtain ⟨a, ha, hab'⟩ := ih hb
      exact ⟨a, by simp [ha], hab'⟩

theorem sameShape_lastEndOf (n : Nat) : lastEndOf bs nodes' n = lastEndOf bs nodes n := by
  induction h generalizing n with
  | nil => rfl
  | cons hab _ ih => rw [lastEndOf, lastEndOf, ih, hab.1, hab.2.1]

end Layouts

theorem SameShape.fillAligned {a b : BackedBlock} (h : SameShape a b) (ha : FillAligned bs a) :
    FillAligned bs b := by
  intro v hv
  obtain ⟨-, hl, hb | ⟨v', w, hv', -⟩⟩ := h
  · rw [← hl]
    exact ha v (hb.trans hv)
  · rw [← hl]
    exact ha v' hv'

namespace SameLayout

variable {s s' : SparseFile} (h : SameLayout s s')

include h

theorem blocks : s'.blocks = s.blocks := by
  rw [SparseFile.blocks, SparseFile.blocks, h.len, h.blockSize]

theorem sorted (hs : Sorted s.blockSize s.list.dataBlocks) :
    Sorted s'.blockSize s'.list.dataBlocks := h.blockSize ▸ sameShape_sorted h.nodes hs

theorem inRange (hr : s.InRange) : s'.InRange := by
  intro b hb
  obtain ⟨a, ha, hab⟩ := sameShape_mem h.nodes hb
  rw [h.blocks, h.blockSize, endBlock, ← hab.1, ← hab.2.1]
  exact hr a ha

theorem lastEnd : s'.lastEnd = s.lastEnd := by
  rw [SparseFile.lastEnd, h.blockSize]
  exact sameShape_lastEndOf h.nodes 0

theorem fillAligned (ha : ∀ bb ∈ s.list.dataBlocks, FillAligned s.blockSize bb) :
    ∀ bb ∈ s'.list.dataBlocks, FillAligned s'.blockSize bb := by
  intro b hb
  obtain ⟨a, hm, hab⟩ := sameShape_mem h.nodes hb
  rw [h.blockSize]
  exact hab.fillAligned (ha a hm)

end SameLayout

/-! ## Telling the writers apart -/

def BackedBlock.refill (v : UInt32) (bb : BackedBlock) : BackedBlock :=
  match bb.backing with
  | .fill _ => { bb with backing := .fill v }
  | _ => bb

def Env.blank (env : Env) : Env :=
  ⟨fun _ => 0, fun d => (env.fds d).map fun _ _ => 0, fun p => (env.paths p).map fun _ _ => 0⟩

theorem sameShape_refill (bb : BackedBlock) : SameShape bb (bb.refill v) := by
  unfold BackedBlock.refill
  split
  · rename_i w hb
    exact ⟨rfl, rfl, .inr ⟨w, v, hb, rfl⟩⟩
  · exact ⟨rfl, rfl, .inl rfl⟩

theorem mappable_blank (file : Option (Nat → UInt8)) (len : UInt32) (offset : Int) :
    mappable (file.map fun _ _ => 0) len offset = mappable file len offset := by
  cases file <;> rfl

theorem writable_blank (most : Nat) (env : Env) (v : UInt32) (bb : BackedBlock) :
    writable most env.blank (bb.refill v) = writable most env bb := by
  obtain ⟨addr, block, len, backing⟩ := bb
  cases backing with
  | data p => rfl
  | file f path o =>
    simp only [writable, readable, content, BackedBlock.refill, Env.blank, mappable_blank]
    rfl
  | fd d o =>
    simp only [writable, readable, content, BackedBlock.refill, Env.blank, mappable_blank]
    rfl
  | fill w => rfl

/-- A blank node holds nothing but zeros. -/
theorem content_blank (env : Env) (bb : BackedBlock) :
    content env.blank (bb.refill 0) = .data (fun _ => 0) ∨
      content env.blank (bb.refill 0) = .fill 0 := by
  have hf : ∀ (file : Option (Nat → UInt8)) (o : Int),
      bytesFrom (file.map fun _ _ => 0) o = fun _ => 0 := by
    intro file o
    cases file <;> rfl
  obtain ⟨addr, block, len, backing⟩ := bb
  cases backing with
  | data p => exact .inl rfl
  | file f path o => exact .inl (congrArg Content.data (hf _ _))
  | fd d o => exact .inl (congrArg Content.data (hf _ _))
  | fill w => exact .inr rfl

def AllZero (l : List UInt8) : Prop := ∀ x ∈ l, x = 0

theorem AllZero.append {a b : List UInt8} (ha : AllZero a) (hb : AllZero b) : AllZero (a ++ b) :=
  fun x hx => (mem_append.mp hx).elim (ha x) (hb x)

theorem allZero_replicate (n : Nat) : AllZero (List.replicate n 0) :=
  fun _ hx => eq_of_mem_replicate hx

theorem allZero_readBytes {f : Nat → UInt8} (hf : ∀ i, f i = 0) (n : Nat) : AllZero (readBytes f n) := by
  intro x hx
  obtain ⟨i, -, rfl⟩ := mem_map.mp hx
  exact hf i

/-- A word of equal bytes fills with that byte. -/
theorem fillCopybuf_const {v : UInt32} {b : UInt8} (h : ∀ k < 4, (wordBytes v).getD k 0 = b)
    (i : Nat) : fillCopybuf v i = b := h (i % 4) (Nat.mod_lt _ (by decide))

theorem fillCopybuf_zero (i : Nat) : fillCopybuf 0 i = 0 := fillCopybuf_const (by decide) i

theorem fillCopybuf_ones (i : Nat) : fillCopybuf 0xFFFFFFFF i = 255 :=
  fillCopybuf_const (by decide) i

theorem fillBuf_zero (bs : UInt32) (i : Nat) : (fillBuf bs 0).getD i 0 = 0 := by
  rcases Nat.lt_or_ge i (4 * (bs.toNat / 4)) with h | h
  · rw [fillBuf_getD 0 h, fillCopybuf_zero]
  · exact fillBuf_getD_tail 0 h

section Blank

variable (env : Env) (bs : UInt32) (nodes : List BackedBlock)

theorem allZero_padded (len : UInt32) : AllZero (padded bs len fun _ => 0) :=
  (allZero_readBytes (fun _ => rfl) _).append (allZero_replicate _)

theorem nodeShown_blank (bb : BackedBlock) : AllZero (nodeShown env.blank bs (bb.refill 0)) := by
  unfold nodeShown
  rcases content_blank env bb with hc | hc <;> rw [hc]
  · exact allZero_padded bs _
  · exact allZero_readBytes (fun i => fillBuf_zero bs _) _

theorem nodeChunk_blank (bb : BackedBlock) :
    AllZero ((nodeChunk env.blank bs (bb.refill 0)).expand bs.toNat) := by
  unfold nodeChunk
  rcases content_blank env bb with hc | hc <;> rw [hc]
  · exact allZero_padded bs _
  · exact allZero_readBytes fillCopybuf_zero _

theorem allZero_gapShown (lastBlock block : UInt32) : AllZero (gapShown bs lastBlock block) := by
  unfold gapShown
  split
  · exact allZero_replicate _
  · intro x hx; cases hx

theorem blockShown_blank (lastBlock : UInt32) :
    AllZero (blockShown env.blank bs (nodes.map (·.refill 0)) lastBlock) := by
  induction nodes generalizing lastBlock with
  | nil => intro x hx; cases hx
  | cons bb rest ih =>
    exact (allZero_gapShown bs _ _).append ((nodeShown_blank env bs bb).append (ih _))

theorem blockChunks_blank (lastBlock : UInt32) :
    AllZero ((blockChunks env.blank bs (nodes.map (·.refill 0)) lastBlock).flatMap
      (Chunk.expand bs.toNat)) := by
  induction nodes generalizing lastBlock with
  | nil => intro x hx; cases hx
  | cons bb rest ih =>
    rw [map_cons, blockChunks, flatMap_append, flatMap_cons, ← gapShown_eq]
    exact (allZero_gapShown bs _ _).append ((nodeChunk_blank env bs bb).append (ih _))

theorem endChunks_blank (s : SparseFile) :
    AllZero ((endChunks s).flatMap (Chunk.expand s.blockSize.toNat)) := by
  unfold endChunks
  split
  · simpa [Chunk.expand] using allZero_replicate _
  · intro x hx; cases hx

end Blank

theorem blockChunks_append (env : Env) (bs : UInt32) (a b : List BackedBlock) (lastBlock : UInt32) :
    blockChunks env bs (a ++ b) lastBlock =
      blockChunks env bs a lastBlock ++ blockChunks env bs b (lastBlockOf bs a lastBlock) := by
  induction a generalizing lastBlock with
  | nil => rfl
  | cons bb rest ih => simp [blockChunks, lastBlockOf, ih]

theorem blockShown_append (env : Env) (bs : UInt32) (a b : List BackedBlock) (lastBlock : UInt32) :
    blockShown env bs (a ++ b) lastBlock =
      blockShown env bs a lastBlock ++ blockShown env bs b (lastBlockOf bs a lastBlock) := by
  induction a generalizing lastBlock with
  | nil => rfl
  | cons bb rest ih => simp [blockShown, lastBlockOf, ih]

theorem lastEndOf_concat (bs : UInt32) (a : List BackedBlock) (bb : BackedBlock) (n : Nat) :
    lastEndOf bs (a ++ [bb]) n = bb.block.toNat + (divRoundUp bb.len bs).toNat := by
  induction a generalizing n with
  | nil => rfl
  | cons c rest ih => exact ih _

/-- The first element that a property does not hold of. -/
theorem exists_first {α : Type*} {P : α → Prop} (l : List α) (h : ¬ ∀ x ∈ l, P x) :
    ∃ pre x post, l = pre ++ x :: post ∧ (∀ a ∈ pre, P a) ∧ ¬ P x := by
  induction l with
  | nil => exact absurd (by simp) h
  | cons y l ih =>
    by_cases hy : P y
    · obtain ⟨pre, x, post, rfl, hp, hx⟩ := ih (fun hl => h (by simpa [hy] using hl))
      exact ⟨y :: pre, x, post, rfl, by simpa [hy] using hp, hx⟩
    · exact ⟨[], y, l, rfl, by simp, hy⟩

/-- What both images hold around a fill node of ones among blank nodes, when all nodes
before it are aligned: the same bytes up to the node, and zeros behind it. -/
theorem images_around (hbs : 0 < s.blockSize.toNat) (hbs' : s.blockSize.toNat < 2 ^ 31)
    (hs : Sorted s.blockSize s.list.dataBlocks) {pre post : List BackedBlock}
    (hn : s.list.dataBlocks = pre.map (·.refill 0) ++ bb :: post.map (·.refill 0))
    (hb : bb.backing = .fill 0xFFFFFFFF)
    (ha : ∀ a ∈ pre.map (·.refill 0), FillAligned s.blockSize a) {most : Nat}
    (hw : ∀ a ∈ s.list.dataBlocks, writable most env.blank a = true) :
    ∃ p r r' : List UInt8, AllZero r ∧ AllZero r' ∧
      p.length = bb.block.toNat * s.blockSize.toNat ∧
      imageOf env.blank s = p ++ (readBytes (fillCopybuf 0xFFFFFFFF)
        ((divRoundUp bb.len s.blockSize).toNat * s.blockSize.toNat) ++ r) ∧
      normalOf env.blank s =
        (p ++ (fillShown s.blockSize 0xFFFFFFFF bb.len.toNat ++ r')).take s.len.toNat := by
  set bs := s.blockSize with hbsdef
  set pre0 := pre.map (·.refill 0)
  set ones : UInt32 := 0xFFFFFFFF
  have hc : content env.blank bb = .fill ones := by simp only [content, hb]
  have hsplit : ∀ l : List BackedBlock, (blockChunks env.blank bs (pre0 ++ bb :: l) 0).flatMap
      (Chunk.expand bs.toNat) = blockShown env.blank bs pre0 0 ++
        gapShown bs (lastBlockOf bs pre0 0) bb.block ++
        (readBytes (fillCopybuf ones) ((divRoundUp bb.len bs).toNat * bs.toNat) ++
        (blockChunks env.blank bs l (nextBlock bs bb)).flatMap (Chunk.expand bs.toNat)) := by
    intro l
    rw [blockChunks_append, blockChunks, flatMap_append, flatMap_append,
      flatMap_cons, ← gapShown_eq, blockShown_eq hbs ha, append_assoc, nodeChunk, hc]
    rfl
  refine ⟨blockShown env.blank bs pre0 0 ++ gapShown bs (lastBlockOf bs pre0 0) bb.block,
    (blockChunks env.blank bs (post.map (·.refill 0)) (nextBlock bs bb)).flatMap
      (Chunk.expand bs.toNat) ++ (endChunks s).flatMap (Chunk.expand bs.toNat),
    blockShown env.blank bs (post.map (·.refill 0)) (nextBlock bs bb) ++
      List.replicate s.len.toNat 0, ?_, ?_, ?_, ?_, ?_⟩
  · exact (blockChunks_blank env bs post _).append (endChunks_blank s)
  · exact (blockShown_blank env bs post _).append (allZero_replicate _)
  · -- the chunks up to the node end with it
    have hsub : (pre0 ++ [bb]).Sublist s.list.dataBlocks := by
      rw [hn]
      simp
    have hl := @blockChunks_expand_length env.blank _ hbs _ hbs' _ 0 0
      (hs.sublist hsub) (fun a h => hw a (hsub.subset h)) (fun a _ => ⟨Nat.zero_le _, rfl⟩)
    rw [hsplit [], lastEndOf_concat, Nat.add_mul, blockChunks, flatMap_nil, append_nil,
      length_append, readBytes_length] at hl
    omega
  · rw [imageOf, imageChunks, flatMap_append, ← hbsdef, hn, hsplit]
    simp only [append_assoc]
  · rw [normalOf, ← hbsdef, hn, blockShown_append, blockShown, nodeShown, hc]
    simp only [Content.shown, append_assoc]

theorem AllZero.getElem? {l : List UInt8} (h : AllZero l) (i : Nat) : l[i]? ≠ some 255 := by
  intro hi
  exact absurd (h _ (mem_of_getElem? hi)) (by decide)

/-- A fill node of ones that is not aligned tells the two images apart. -/
theorem images_differ {len : UInt32} (hbs : 4 ≤ bs.toNat) {p r r' : List UInt8} {n : Nat}
    (hr : AllZero r) (hr' : AllZero r') (hp : len ≠ 0 → p.length < n)
    (hna : ¬ (align len bs = len ∧ (len ≠ 0 → 4 ∣ bs.toNat))) :
    p ++ (readBytes (fillCopybuf 0xFFFFFFFF) ((divRoundUp len bs).toNat * bs.toNat) ++ r) ≠
      (p ++ (fillShown bs 0xFFFFFFFF len.toNat ++ r')).take n := by
  intro heq
  have hal : (divRoundUp len bs).toNat * bs.toNat = (align len bs).toNat := by
    rw [align_toNat, Nat.mul_comm]
  rw [hal] at heq
  -- the two images from the start of the node on
  have hat : ∀ i, (readBytes (fillCopybuf 0xFFFFFFFF) (align len bs).toNat ++ r)[i]? =
      if p.length + i < n then (fillShown bs 0xFFFFFFFF len.toNat ++ r')[i]? else none := by
    intro i
    have h := congrArg (fun l : List UInt8 => l[p.length + i]?) heq
    simp only [List.getElem?_take] at h
    rw [List.getElem?_append_right (Nat.le_add_right _ _),
      List.getElem?_append_right (Nat.le_add_right _ _), Nat.add_sub_cancel_left] at h
    exact h
  have hones : ∀ i < (align len bs).toNat,
      (readBytes (fillCopybuf 0xFFFFFFFF) (align len bs).toNat ++ r)[i]? = some 255 := by
    intro i hi
    rw [List.getElem?_append_left (by simpa using hi)]
    simp [readBytes, hi, fillCopybuf_ones]
  have hshown : ∀ i < len.toNat, (fillShown bs 0xFFFFFFFF len.toNat ++ r')[i]? =
      some ((fillBuf bs 0xFFFFFFFF).getD (i % bs.toNat) 0) := by
    intro i hi
    rw [List.getElem?_append_left (by simpa [fillShown] using hi)]
    simp [fillShown, readBytes, hi]
  rcases Nat.lt_trichotomy len.toNat (align len bs).toNat with hlt | heq' | hgt
  · -- the sparse image goes on with ones where the node ends
    have h := hat len.toNat
    rw [hones _ hlt] at h
    split at h
    · rw [List.getElem?_append_right (by simp [fillShown])] at h
      exact hr'.getElem? _ h.symm
    · cases h
  · -- the words do not fill the first block
    have hl : align len bs = len := (UInt32.toNat_inj.mp heq').symm
    obtain ⟨h0, h4⟩ : len ≠ 0 ∧ ¬ 4 ∣ bs.toNat := by
      rw [not_and] at hna
      exact Classical.not_imp.mp (hna hl)
    have hge : bs.toNat ≤ len.toNat := by
      have hd : bs.toNat ∣ len.toNat := by
        rw [heq', align_toNat]
        exact Nat.dvd_mul_right _ _
      exact Nat.le_of_dvd (toNat_pos_of_ne h0) hd
    have hlt : 4 * (bs.toNat / 4) < bs.toNat := by omega
    have h := hat (4 * (bs.toNat / 4))
    rw [hones _ (by omega), hshown _ (by omega), Nat.mod_eq_of_lt hlt,
      fillBuf_getD_tail _ (Nat.le_refl _)] at h
    split at h <;> cases h
  · -- rounding up wrapped, and the sparse image leaves the node out
    have h0 : len ≠ 0 := by
      intro h
      rw [h] at hgt
      exact absurd hgt (Nat.not_lt_zero _)
    have hz : (align len bs).toNat = 0 := by
      rcases Nat.lt_or_ge (2 ^ 32) (len.toNat + bs.toNat) with hw | hw
      · rw [align_toNat, divRoundUp_wrap hw]
        rfl
      · have := (align_sub_toNat (x := len) (y := bs) (by omega) hw).1
        omega
    have h := hat 0
    rw [if_pos (by have := hp h0; omega), hshown 0 (toNat_pos_of_ne h0), hz, Nat.zero_mod,
      fillBuf_getD _ (by omega), fillCopybuf_ones] at h
    exact hr.getElem? 0 (by simpa [readBytes] using h)

theorem SameShape.refl (bb : BackedBlock) : SameShape bb bb := ⟨rfl, rfl, .inl rfl⟩

theorem SameLayout.refl (s : SparseFile) : SameLayout s s :=
  ⟨rfl, rfl, List.forall₂_same.mpr fun bb _ => SameShape.refl bb⟩

theorem sameShape_refill_map (l : List BackedBlock) :
    List.Forall₂ SameShape l (l.map (·.refill v)) := by
  induction l with
  | nil => exact .nil
  | cons bb l ih => exact .cons (sameShape_refill v bb) ih

def ImagesAgree (env : Env) (write : WriteCall) (s : SparseFile) (crc : Bool) : Prop :=
  ∀ dev, sparseFileWrite env write s true crc = .ok (0, dev) →
    ∃ dev', sparseFileWrite env write s false crc = .ok (0, dev') ∧
      streamImage dev.bytes = some dev'.bytes

section Agreement

variable {write : WriteCall} (hwrite : ∀ f n, write f n = some n)

include hwrite

theorem imagesAgree_iff_eq (hbs : 0 < s.blockSize.toNat) (hbs' : s.blockSize.toNat < 2 ^ 31)
    (hw : ∀ bb ∈ s.list.dataBlocks, writable (2 ^ 32) env bb = true) (hpad : 0 ≤ s.pad) :
    ImagesAgree env write s crc ↔ imageOf env s = normalOf env s := by
  have htakes := takes_of_all hwrite
  obtain ⟨dev, hdev, hb⟩ :=
    sparseFileWrite_stream htakes crc hbs hbs' hw (zeros_le_of_all s) hpad
  obtain ⟨dev', hdev', hb'⟩ := sparseFileWrite_normal htakes crc hbs hbs' hw
    (fun _ _ => s.blockSize.toNat_lt.le) hpad
  have himg : streamImage dev.bytes = some (imageOf env s) := by
    rw [hb, streamImage_streamOf hbs hbs' hw]
  constructor
  · intro h
    obtain ⟨d, hd, hi⟩ := h dev hdev
    rw [hdev'] at hd
    cases hd
    rw [himg, hb'] at hi
    exact Option.some.inj hi
  · intro h d hd
    rw [hdev] at hd
    cases hd
    exact ⟨dev', hdev', by rw [himg, hb', h]⟩

/-- A node that is not aligned can be told apart in a file of the same layout. -/
theorem images_of_not_aligned (hbs : 4 ≤ s.blockSize.toNat) (hd : (s.blockSize.toNat : Int) ∣ s.len)
    (hs : Sorted s.blockSize s.list.dataBlocks) (hr : s.InRange) (hbs' : s.blockSize.toNat < 2 ^ 31)
    (hw : ∀ bb ∈ s.list.dataBlocks, writable (2 ^ 32) env bb = true) (hlen : 0 ≤ s.len)
    (ha : ¬ ∀ bb ∈ s.list.dataBlocks, FillAligned s.blockSize bb) :
    ∃ s', SameLayout s s' ∧ ¬ ImagesAgree env.blank write s' crc := by
  obtain ⟨pre, bb, post, hn, hpre, hbb⟩ := exists_first _ ha
  obtain ⟨v, hv, hna⟩ : ∃ v, bb.backing = .fill v ∧
      ¬ (align bb.len s.blockSize = bb.len ∧ (bb.len ≠ 0 → 4 ∣ s.blockSize.toNat)) := by
    unfold FillAligned at hbb
    push Not at hbb
    obtain ⟨v, hv, h⟩ := hbb
    exact ⟨v, hv, fun hc => (h hc.1).2 (hc.2 (h hc.1).1)⟩
  set ones := bb.refill 0xFFFFFFFF with hones
  have hshape := sameShape_refill 0xFFFFFFFF bb
  set s' : SparseFile := { s with list := { s.list with
    dataBlocks := pre.map (·.refill 0) ++ ones :: post.map (·.refill 0) } } with hs'
  have hl : SameLayout s s' := by
    refine ⟨rfl, rfl, ?_⟩
    rw [hn]
    exact rel_append (sameShape_refill_map 0 pre) (.cons hshape (sameShape_refill_map 0 post))
  have hw' : ∀ a ∈ s'.list.dataBlocks, writable (2 ^ 32) env.blank a = true := by
    intro a ha'
    obtain ⟨c, hc, w, rfl⟩ : ∃ c ∈ s.list.dataBlocks, ∃ w, c.refill w = a := by
      rw [hn]
      rcases mem_append.mp ha' with h | h
      · obtain ⟨c, hc, rfl⟩ := mem_map.mp h
        exact ⟨c, by simp [hc], 0, rfl⟩
      · rcases mem_cons.mp h with rfl | h
        · exact ⟨bb, by simp, _, rfl⟩
        · obtain ⟨c, hc, rfl⟩ := mem_map.mp h
          exact ⟨c, by simp [hc], 0, rfl⟩
    rw [writable_blank]
    exact hw c hc
  refine ⟨s', hl, ?_⟩
  have hb : ones.backing = .fill 0xFFFFFFFF := by
    rw [hones, BackedBlock.refill, hv]
  have hpre' : ∀ a ∈ pre.map (·.refill 0), FillAligned s.blockSize a := by
    intro a ha'
    obtain ⟨c, hc, rfl⟩ := mem_map.mp ha'
    exact (sameShape_refill 0 c).fillAligned (hpre c hc)
  have hr' := hl.inRange hr
  have hpos : 0 < s'.blockSize.toNat := Nat.lt_of_lt_of_le (by decide) hbs
  have hpad' : 0 ≤ s'.pad := by
    rw [pad_of_dvd (s := s') hpos hlen (lastBlock_le hpos hr') hd]
    exact Int.natCast_nonneg _
  rw [imagesAgree_iff_eq hwrite (s := s') hpos hbs' hw' hpad']
  obtain ⟨p, r, r', hzr, hzr', hp, hi, hno⟩ := images_around (s := s') hpos hbs' (hl.sorted hs) rfl
    hb hpre' hw'
  rw [hi, hno]
  apply images_differ hbs hzr hzr'
  · intro h0
    have hend := hr' ones (by simp [hs'])
    have hsize := @ceilDiv_pos s'.blockSize.toNat _ hpos (toNat_pos_of_ne h0)
    rw [hp, ← blocks_mul (s := s') hpos hlen hd]
    apply Nat.mul_lt_mul_of_pos_right _ hpos
    unfold endBlock at hend
    omega
  · rw [← hshape.2.1]
    exact hna

end Agreement

/-- On a device that takes every write the two writers agree on every content of a layout
exactly when its fills are aligned and less than `2^32` blocks lie behind its last node. -/
theorem images_agree_iff (env : Env) (write : WriteCall) (hwrite : ∀ f n, write f n = some n)
    (s : SparseFile) (crc : Bool) (hbs : 4 ≤ s.blockSize.toNat)
    (hd : (s.blockSize.toNat : Int) ∣ s.len) (hs : Sorted s.blockSize s.list.dataBlocks)
    (hr : s.InRange) (hwr : ∃ dev, sparseFileWrite env write s true crc = .ok (0, dev)) :
    (∀ env' s', SameLayout s s' → ImagesAgree env' write s' crc) ↔
      s.blocks - s.lastEnd < 2 ^ 32 ∧
        ∀ bb ∈ s.list.dataBlocks, FillAligned s.blockSize bb := by
  have hpos : 0 < s.blockSize.toNat := by omega
  obtain ⟨dev, hdev⟩ := hwr
  have htakes := takes_of_all hwrite
  obtain ⟨hbs', hw, hpad, -⟩ := sparseFileWrite_inv htakes crc hpos (zeros_le_of_all s) hdev
  obtain ⟨hlen, -⟩ := of_pad_nonneg hpos hpad
  constructor
  · intro h
    refine ⟨?_, ?_⟩
    · have heq := (imagesAgree_iff_eq hwrite hpos hbs' hw hpad).mp (h env s (SameLayout.refl s))
      have hl := congrArg List.length heq
      rw [normalOf_length, imageOf, imageChunks, flatMap_append, length_append,
        nodes_expand_length hpos hbs' hs hw, endChunks_expand hpos hlen hr hd,
        length_replicate, ← blocks_mul hpos hlen hd, ← Nat.add_mul] at hl
      have := Nat.eq_of_mul_eq_mul_right hpos hl
      omega
    · by_contra hc
      obtain ⟨s', hl, hn⟩ := images_of_not_aligned hwrite hbs hd hs hr hbs' hw hlen hc
      exact hn (h _ s' hl)
  · rintro ⟨hend, ha⟩ env' s' hl dev' hdev'
    have hpos' : 0 < s'.blockSize.toNat := hl.blockSize ▸ hpos
    obtain ⟨hb, hw', hpad', -⟩ :=
      sparseFileWrite_inv htakes crc hpos' (zeros_le_of_all s') hdev'
    have heq := imageOf_eq_normalOf hpos' hb (by rw [hl.len]; exact hlen)
      (by rw [hl.blockSize, hl.len]; exact hd) (hl.sorted hs) (hl.inRange hr) hw'
      (by rw [hl.blocks, hl.lastEnd]; exact hend) (hl.fillAligned ha)
    exact (imagesAgree_iff_eq hwrite hpos' hb hw' hpad').mpr heq dev' hdev'

theorem images_agree_fill_data :
    ImagesAgree zeroEnv takesAll ⟨12, ⟨[⟨0, 0, 4, .fill 7⟩, ⟨1, 1, 2, .data 0⟩], none, 4⟩⟩
      false := by
  refine (images_agree_iff zeroEnv takesAll (fun _ _ => rfl)
    ⟨12, ⟨[⟨0, 0, 4, .fill 7⟩, ⟨1, 1, 2, .data 0⟩], none, 4⟩⟩ false
    (by decide) (by decide) (by decide) ?_ ⟨_, rfl⟩).mpr ⟨by decide, ?_⟩ _ _ (SameLayout.refl _)
  · unfold SparseFile.InRange
    decide
  · intro bb hb v hv
    simp only [mem_cons, not_mem_nil, or_false] at hb
    rcases hb with rfl | rfl
    · decide
    · cases hv

/-- Two bytes of fill in front of a block of data: the normal writer puts the data right
behind the fill. -/
theorem images_disagree_short_fill :
    ∃ s s' dev dev', sparseFileAddFill .trap (sparseFileNew 4 8) 0 0x01010101 2 0 = .ok s ∧
      sparseFileAddData .trap s 1 0 4 1 = .ok s' ∧
      sparseFileWrite ⟨fun _ => 9, fun _ => none, fun _ => none⟩ takesAll s' true false = .ok (0, dev) ∧
      sparseFileWrite ⟨fun _ => 9, fun _ => none, fun _ => none⟩ takesAll s' false false = .ok (0, dev') ∧
      streamImage dev.bytes = some [1, 1, 1, 1, 9, 9, 9, 9] ∧
      dev'.bytes = [1, 1, 9, 9, 9, 9, 0, 0] :=
  ⟨_, _, _, _, rfl, rfl, rfl, rfl, by decide +kernel, rfl⟩

end SystemCore.Libsparse
