import SystemCore.Libsparse.SameImage

/-!
# Files without gaps

The nodes of a file that was read from an image lie one behind the other, each of them a
number of whole blocks. Such a file is written node by node, and its image is made of the
images of the nodes. A node queued behind the others keeps the list so, whether it is
merged or not.
-/
namespace SystemCore.Libsparse

open Lib.CeilDiv

/-- The nodes cover the blocks from `lo` up to `hi`. -/
def Tiles (bs : UInt32) : Nat → List BackedBlock → Nat → Prop
  | lo, [], hi => hi = lo
  | lo, bb :: rest, hi =>
    bb.block.toNat = lo ∧ 0 < bb.len.toNat ∧ bs.toNat ∣ bb.len.toNat ∧
      Tiles bs (lo + bb.len.toNat / bs.toNat) rest hi

def nodeImage (env : Env) (bb : BackedBlock) : List UInt8 :=
  match content env bb with
  | .data bytes => readBytes bytes bb.len.toNat
  | .fill v => readBytes (fillCopybuf v) bb.len.toNat

/-- Where a node starts in its file. -/
def Backing.offset : Backing → Int
  | .file _ _ offset => offset
  | .fd _ offset => offset
  | .data _ => 0
  | .fill _ => 0

variable {bb : BackedBlock}

/-- The nodes that the readers add. -/
theorem offset_nonneg (h : (∃ fd, ∃ o : Nat, bb.backing = .fd fd o) ∨ ∃ v, bb.backing = .fill v) :
    bb.backing.type ≠ .file ∧ 0 ≤ bb.backing.offset := by
  rcases h with ⟨fd, o, h⟩ | ⟨v, h⟩
  · rw [h]
    exact ⟨by simp [Backing.type], Int.natCast_nonneg _⟩
  · rw [h]
    exact ⟨by simp [Backing.type], Int.le_refl _⟩

theorem writable_fill (most : Nat) (env : Env) {v : UInt32} (h : bb.backing = .fill v) :
    writable most env bb = true := by
  simp [writable, readable, content, h, Content.storable]

theorem maxRwCount_eq : maxRwCount = 2 ^ 31 - 4096 := rfl

/-- A piece of an open file can be written if it goes into one `write`: it can then be mapped
too, together with what lies before it in its page. -/
theorem writable_fd {env : Env} {fd : Int} {o : Nat} {bytes : Nat → UInt8}
    (h : bb.backing = .fd fd o) (hfd : env.fds fd = some bytes) (hpos : 0 < bb.len.toNat) :
    writable maxRwCount env bb = decide (bb.len.toNat ≤ maxRwCount) := by
  have hmost := maxRwCount_eq
  by_cases hle : bb.len.toNat ≤ maxRwCount
  · have hlow : (lowWord ((o : Int) % 4096)).toNat = o % 4096 := by
      have hcast : (o : Int) % 4096 = ((o % 4096 : Nat) : Int) := by push_cast; rfl
      rw [hcast, lowWord_natCast]
      omega
    have hsum : (bb.len + lowWord ((o : Int) % 4096)).toNat = bb.len.toNat + o % 4096 := by
      rw [UInt32.toNat_add, hlow]
      omega
    have hint : 0 < toInt (bb.len + lowWord ((o : Int) % 4096)) := by
      rw [toInt_of_lt (by omega)]
      omega
    simp [writable, readable, content, h, Content.storable, mappable, hfd, hint, hle]
    omega
  · simp [writable, content, h, Content.storable, hle]

section Lists

variable {env : Env} {bs len : UInt32} {nodes : List BackedBlock} {lo hi : Nat}
  {newBb a b : BackedBlock}

theorem tiles_append {l l' : List BackedBlock} :
    ∀ {lo : Nat}, Tiles bs lo (l ++ l') hi ↔ ∃ mid, Tiles bs lo l mid ∧ Tiles bs mid l' hi := by
  induction l with
  | nil => intro lo; simp [Tiles]
  | cons bb l ih =>
    intro lo
    simp only [List.cons_append, Tiles, ih]
    constructor
    · rintro ⟨h1, h2, h3, mid, h4, h5⟩
      exact ⟨mid, ⟨h1, h2, h3, h4⟩, h5⟩
    · rintro ⟨mid, ⟨h1, h2, h3, h4⟩, h5⟩
      exact ⟨h1, h2, h3, mid, h4, h5⟩

theorem Tiles.le (ht : Tiles bs lo nodes hi) : lo ≤ hi := by
  induction nodes generalizing lo with
  | nil => exact ht.ge
  | cons bb rest ih => exact (Nat.le_add_right _ _).trans (ih ht.2.2.2)

/-- Every node lies between the ends. -/
theorem Tiles.mem (ht : Tiles bs lo nodes hi) : ∀ bb ∈ nodes, lo ≤ bb.block.toNat ∧
    bb.block.toNat + bb.len.toNat / bs.toNat ≤ hi ∧ 0 < bb.len.toNat ∧ bs.toNat ∣ bb.len.toNat := by
  induction nodes generalizing lo with
  | nil => simp
  | cons bb rest ih =>
    obtain ⟨hb, hl, hd, hr⟩ := ht
    intro n hn
    rcases List.mem_cons.mp hn with rfl | hn
    · exact ⟨hb.ge, hb ▸ hr.le, hl, hd⟩
    · obtain ⟨h1, h2⟩ := ih hr n hn
      exact ⟨(Nat.le_add_right _ _).trans h1, h2⟩

theorem Tiles.len_le (ht : Tiles bs lo nodes hi) : ∀ bb ∈ nodes,
    bb.block.toNat * bs.toNat + bb.len.toNat ≤ hi * bs.toNat := by
  intro bb hb
  obtain ⟨-, hle, -, hd⟩ := ht.mem bb hb
  have h := Nat.mul_le_mul_right bs.toNat hle
  rwa [Nat.add_mul, Nat.div_mul_cancel hd] at h

theorem endBlock_of_dvd (hbs : 0 < bs.toNat) (hd : bs.toNat ∣ bb.len.toNat) :
    endBlock bs bb = bb.block.toNat + bb.len.toNat / bs.toNat := by
  rw [endBlock, ceilDiv_of_dvd hbs hd]

theorem Tiles.sorted (hbs : 0 < bs.toNat) (ht : Tiles bs lo nodes hi) : Sorted bs nodes := by
  induction nodes generalizing lo with
  | nil => exact List.Pairwise.nil
  | cons bb rest ih =>
    obtain ⟨hb, hl, hd, hr⟩ := ht
    refine List.pairwise_cons.mpr ⟨fun n hn => ?_, ih hr⟩
    have hlo := (hr.mem n hn).1
    have hpos := Nat.div_pos (Nat.le_of_dvd hl hd) hbs
    refine ⟨UInt32.lt_iff_toNat_lt.mpr (by omega), ?_⟩
    rw [endBlock_of_dvd hbs hd]
    omega

theorem divRoundUp_of_dvd (hbs : 0 < bs.toNat) (h : len.toNat + bs.toNat ≤ 2 ^ 32)
    (hd : bs.toNat ∣ len.toNat) : (divRoundUp len bs).toNat = len.toNat / bs.toNat := by
  rw [divRoundUp_toNat hbs h, ceilDiv_of_dvd hbs hd]

theorem align_of_dvd (hbs : 0 < bs.toNat) (h : len.toNat + bs.toNat ≤ 2 ^ 32)
    (hd : bs.toNat ∣ len.toNat) : align len bs = len := by
  apply UInt32.toNat_inj.mp
  rw [align_toNat, divRoundUp_of_dvd hbs h hd, Nat.mul_div_cancel' hd]

/-- The chunk of a node of whole blocks expands to its image. -/
theorem nodeChunk_expand (hbs : 0 < bs.toNat) (h : bb.len.toNat + bs.toNat ≤ 2 ^ 32)
    (hd : bs.toNat ∣ bb.len.toNat) : (nodeChunk env bs bb).expand bs.toNat = nodeImage env bb := by
  unfold nodeChunk nodeImage
  cases content env bb with
  | data bytes =>
    simp only [Content.chunk, Chunk.expand, padded, align_of_dvd hbs h hd, UInt32.sub_self]
    exact List.append_nil _
  | fill v =>
    simp only [Content.chunk, Chunk.expand, divRoundUp_of_dvd hbs h hd, Nat.div_mul_cancel hd]

/-- There is no skip chunk between the nodes. -/
theorem blockChunks_tiles (hbs : 0 < bs.toNat) (hbs' : bs.toNat < 2 ^ 31)
    (hsmall : hi * bs.toNat < 2 ^ 31) :
    ∀ {lo : Nat} {lastBlock : UInt32}, Tiles bs lo nodes hi → lastBlock.toNat = lo →
      blockChunks env bs nodes lastBlock = nodes.map (nodeChunk env bs) ∧
        lastEndOf bs nodes lo = hi := by
  induction nodes with
  | nil => intro lo lastBlock ht _; exact ⟨rfl, ht.symm⟩
  | cons bb rest ih =>
    intro lo lastBlock ht hlast
    have hlen := ht.len_le bb (by simp)
    obtain ⟨hb, hl, hd, hr⟩ := ht
    have hdiv := @divRoundUp_of_dvd bs bb.len hbs (by omega) hd
    have hgap : gapChunks lastBlock bb.block = [] :=
      if_neg (by rw [UInt32.toNat_inj.mp (hlast.trans hb.symm)]; exact UInt32.lt_irrefl _)
    have hhi : hi < 2 ^ 32 := by
      have := Nat.le_mul_of_pos_right hi hbs
      omega
    have hnext : (nextBlock bs bb).toNat = lo + bb.len.toNat / bs.toNat := by
      rw [nextBlock, UInt32.toNat_add, hdiv, hb]
      exact Nat.mod_eq_of_lt (hr.le.trans_lt hhi)
    obtain ⟨h1, h2⟩ := ih hr hnext
    rw [blockChunks, lastEndOf, hgap, List.nil_append, h1, hdiv, hb]
    exact ⟨rfl, h2⟩

/-! ## Queueing behind the last node -/

theorem absorb_toNat (h : a.len.toNat + b.len.toNat < 2 ^ 32) :
    (a.absorb b).len.toNat = a.len.toNat + b.len.toNat := by
  rw [absorb_len, UInt32.toNat_add, Nat.mod_eq_of_lt h]

/-- Two nodes that go together make up the image of the merged one. -/
theorem nodeImage_absorb (env : Env) (hc : compatible a b = true) (hf : a.backing.type ≠ .file)
    (h4 : 4 ∣ a.len.toNat) (ho : 0 ≤ a.backing.offset) (h : a.len.toNat + b.len.toNat < 2 ^ 32) :
    nodeImage env (a.absorb b) = nodeImage env a ++ nodeImage env b := by
  have hlen := absorb_toNat h
  unfold nodeImage content
  rw [absorb_backing, hlen]
  unfold compatible at hc
  cases ha : a.backing with
  | data p => rw [ha] at hc; cases hc
  | file f path o => rw [ha] at hf; exact absurd rfl hf
  | fd d o =>
    cases hb : b.backing with
    | fd d' o' =>
      rw [ha] at ho
      simp only [ha, hb, Bool.and_eq_true, beq_iff_eq] at hc
      obtain ⟨rfl, rfl⟩ := hc
      dsimp only
      rw [readBytes_add]
      congr 2
      funext i
      unfold bytesFrom
      cases env.fds d with
      | none => rfl
      | some bytes =>
        simp only [Backing.offset] at ho
        dsimp only
        congr 1
        omega
    | _ => rw [ha, hb] at hc; cases hc
  | fill v =>
    cases hb : b.backing with
    | fill w =>
      simp only [ha, hb, beq_iff_eq] at hc
      subst hc
      dsimp only
      rw [readBytes_add]
      congr 2
      funext i
      unfold fillCopybuf
      rw [Nat.add_mod, Nat.mod_eq_zero_of_dvd h4, Nat.zero_add, Nat.mod_mod]
    | _ => rw [ha, hb] at hc; cases hc

/-- A node queued behind the last one goes on where it ends. -/
theorem Tiles.snoc {k : Nat} (ht : Tiles bs 0 nodes k) (hb : newBb.block.toNat = k)
    (hl : 0 < newBb.len.toNat) (hd : bs.toNat ∣ newBb.len.toNat)
    (hsmall : k * bs.toNat + newBb.len.toNat < 2 ^ 32) :
    Tiles bs 0 (snocBb bs nodes newBb) (k + newBb.len.toNat / bs.toNat) := by
  rcases snocBb_cases bs nodes newBb with ⟨before, last, rfl, -, h⟩ | ⟨-, h⟩
  · have hlen := ht.len_le last (by simp)
    obtain ⟨mid, hmid, hlb, -, hld, hk⟩ := tiles_append.mp ht
    have hk : k = mid + last.len.toNat / bs.toNat := hk
    have habs := @absorb_toNat last newBb (by omega)
    rw [h, tiles_append]
    refine ⟨mid, hmid, hlb, by omega, ?_, ?_⟩
    · rw [habs]
      exact Nat.dvd_add hld hd
    · rw [habs, Nat.add_div_of_dvd_right hld, hk]
      exact Nat.add_assoc _ _ _
  · rw [h, tiles_append]
    exact ⟨k, ht, hb, hl, hd, rfl⟩

theorem nodesImage_snoc (env : Env) (h4 : 4 ∣ bs.toNat) {k : Nat} (ht : Tiles bs 0 nodes k)
    (hsmall : k * bs.toNat + newBb.len.toNat < 2 ^ 32)
    (hn : ∀ bb ∈ nodes, bb.backing.type ≠ .file ∧ 0 ≤ bb.backing.offset) :
    (snocBb bs nodes newBb).flatMap (nodeImage env) =
      nodes.flatMap (nodeImage env) ++ nodeImage env newBb := by
  rcases snocBb_cases bs nodes newBb with ⟨before, last, rfl, hm, h⟩ | ⟨-, h⟩
  · have hlen := ht.len_le last (by simp)
    have hd := (ht.mem last (by simp)).2.2.2
    obtain ⟨hf, ho⟩ := hn last (by simp)
    simp only [mergeable, Bool.and_eq_true] at hm
    simp [h, nodeImage_absorb env hm.2 hf (h4.trans hd) ho (by omega)]
  · simp [h]

end Lists

/-! ## Writing -/

/-- A file of `n` blocks whose nodes cover all of them. -/
structure TiledFile (s : SparseFile) (n : Nat) : Prop where
  pos : 0 < s.blockSize.toNat
  words : 4 ∣ s.blockSize.toNat
  small : n * s.blockSize.toNat < 2 ^ 31
  tiles : Tiles s.blockSize 0 s.list.dataBlocks n
  len : s.len = (n * s.blockSize.toNat : Nat)

namespace TiledFile

variable {env : Env} {s : SparseFile} {n : Nat} (h : TiledFile s n)

include h

theorem len_nonneg : 0 ≤ s.len := by
  rw [h.len]
  exact Int.natCast_nonneg _

theorem dvd : (s.blockSize.toNat : Int) ∣ s.len := by
  rw [h.len, Int.natCast_dvd_natCast]
  exact Nat.dvd_mul_left _ _

theorem blocks : s.blocks = n := by
  rw [SparseFile.blocks, h.len, Int.toNat_natCast, ceilDiv_of_dvd h.pos (Nat.dvd_mul_left _ _),
    Nat.mul_div_cancel _ h.pos]

theorem inRange : s.InRange := by
  intro bb hb
  obtain ⟨-, hle, -, hd⟩ := h.tiles.mem bb hb
  rw [h.blocks, endBlock_of_dvd h.pos hd]
  exact hle

theorem node_len : ∀ bb ∈ s.list.dataBlocks, bb.len.toNat < 2 ^ 31 := by
  intro bb hb
  have := h.tiles.len_le bb hb
  have := h.small
  omega

/-- No node is padded. -/
theorem zeros (most : Nat) :
    ∀ bb ∈ s.list.dataBlocks, (align bb.len s.blockSize - bb.len).toNat ≤ most := by
  intro bb hb
  obtain ⟨-, -, hpos, hd⟩ := h.tiles.mem bb hb
  have hlen := h.node_len bb hb
  have hle := Nat.le_of_dvd hpos hd
  rw [align_of_dvd h.pos (by omega) hd, UInt32.sub_self]
  exact Nat.zero_le _

variable (hbs' : s.blockSize.toNat < 2 ^ 31)

include hbs'

theorem lastEnd : s.lastEnd = n :=
  (@blockChunks_tiles zeroEnv _ _ _ h.pos hbs' h.small 0 0 h.tiles rfl).2

theorem lastBlock : s.lastBlock.toNat = n := by
  have hn := Nat.le_mul_of_pos_right n h.pos
  have := h.small
  rw [lastBlock_toNat, h.lastEnd hbs']
  omega

theorem pad : s.pad = 0 := by
  rw [SparseFile.pad, h.lastBlock hbs', h.len]
  push_cast
  ring

/-- The chunks of the file are those of its nodes. -/
theorem imageChunks (env : Env) :
    imageChunks env s = s.list.dataBlocks.map (nodeChunk env s.blockSize) := by
  have hend : endChunks s = [] := by
    rw [endChunks, h.pad hbs', if_neg (by simp)]
  rw [Libsparse.imageChunks, hend, List.append_nil]
  exact (blockChunks_tiles h.pos hbs' h.small h.tiles rfl).1

theorem imageOf (env : Env) : imageOf env s = s.list.dataBlocks.flatMap (nodeImage env) := by
  rw [Libsparse.imageOf, h.imageChunks hbs', List.flatMap_map]
  apply List.flatMap_congr
  intro bb hb
  have := h.node_len bb hb
  exact nodeChunk_expand h.pos (by omega) (h.tiles.mem bb hb).2.2.2

/-- Writing the file in normal mode gives the images of its nodes. -/
theorem normalOf {most : Nat} (hw : ∀ bb ∈ s.list.dataBlocks, writable most env bb = true) :
    normalOf env s = s.list.dataBlocks.flatMap (nodeImage env) := by
  rw [← h.imageOf hbs' env]
  refine (imageOf_eq_normalOf h.pos hbs' h.len_nonneg h.dvd (h.tiles.sorted h.pos) h.inRange hw ?_
    ?_).symm
  · rw [h.lastEnd hbs', h.blocks, Nat.sub_self]
    decide
  · intro bb hb v _
    have := h.node_len bb hb
    exact ⟨align_of_dvd h.pos (by omega) (h.tiles.mem bb hb).2.2.2, fun _ => h.words⟩

end TiledFile

end SystemCore.Libsparse
