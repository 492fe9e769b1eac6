import SystemCore.Libsparse.Tiling

/-!
# Reading an image

`sparse_file_read_normal` adds one block after the other, as a fill when the block
repeats one word, else as a piece of the file. The chunks of the list it builds are the
runs of equal fills and the runs of other blocks: `encode` says so about the image alone.
-/
namespace SystemCore.Libsparse

open Lib.LittleEndian List

/-! ## Blocks of one word -/

def repeatedWord (b : List UInt8) : Option UInt32 :=
  if b = readBytes (fillCopybuf (wordAt b 0)) b.length then some (wordAt b 0) else none

theorem readBytes_bufOf_drop {l : List UInt8} {o n : Nat} (h : o + n ≤ l.length) :
    readBytes (fun i => bufOf l (o + i)) n = (l.drop o).take n := by
  apply ext_getElem
  · simp
    omega
  · intro i h1 h2
    rw [readBytes_length] at h1
    simp [readBytes, bufOf, List.getElem?_eq_getElem (show o + i < l.length by omega)]

variable {b : List UInt8}

theorem wordBytes_wordAt {i : Nat} (h : 4 * i + 4 ≤ b.length) :
    wordBytes (wordAt b i) = (b.drop (4 * i)).take 4 := by
  have hl : ((b.drop (4 * i)).take 4).length = 4 := by
    rw [length_take, length_drop]
    omega
  have hlt := ofBytes_lt ((b.drop (4 * i)).take 4)
  rw [hl] at hlt
  rw [wordBytes, wordAt, UInt32.toNat_ofNat', field, Nat.mod_eq_of_lt (show _ < 2 ^ 32 from hlt)]
  conv_rhs => rw [← toBytes_ofBytes ((b.drop (4 * i)).take 4), hl]

theorem fillCopybuf_wordAt {i : Nat} (h : i < b.length) (h4 : 4 ∣ b.length) :
    fillCopybuf (wordAt b (i / 4)) i = b[i] := by
  have hle : 4 * (i / 4) + 4 ≤ b.length := by omega
  rw [fillCopybuf, wordBytes_wordAt hle]
  simp only [getD_eq_getElem?_getD]
  rw [List.getElem?_take_of_lt (Nat.mod_lt _ (by decide)), List.getElem?_drop,
    Nat.div_add_mod, List.getElem?_eq_getElem h]
  rfl

/-- The loop over the words of a block finds out whether it repeats its first word. -/
theorem sparseBlock_iff {bs : UInt32} (hb : b.length = bs.toNat) (h4 : 4 ∣ bs.toNat) :
    sparseBlock bs b = true ↔ b = readBytes (fillCopybuf (wordAt b 0)) b.length := by
  unfold sparseBlock
  rw [all_eq_true]
  constructor
  · intro h
    apply ext_getElem
    · simp
    · intro i h1 h2
      have hw := h (i / 4) (mem_range.mpr (by omega))
      rw [beq_iff_eq] at hw
      simp only [readBytes, getElem_map, getElem_range]
      rw [hw, fillCopybuf_wordAt h1 (hb ▸ h4)]
  · intro h i hi
    rw [mem_range] at hi
    have hle : 4 * i + 4 ≤ b.length := by omega
    have hword : (b.drop (4 * i)).take 4 = wordBytes (wordAt b 0) := by
      rw [wordBytes_wordAt (show 4 * 0 + 4 ≤ b.length by omega)]
      apply ext_getElem
      · rw [length_take, length_drop, length_take, length_drop]
        omega
      · intro j h1 h2
        rw [length_take, length_drop] at h1
        have hj : j < 4 := by omega
        have hat : ∀ k, ∀ hk : k < b.length, b[k] = fillCopybuf (wordAt b 0) k := by
          intro k hk
          have := getElem_of_eq h hk
          simpa [readBytes] using this
        simp only [getElem_take, getElem_drop, hat]
        unfold fillCopybuf
        congr 1
        omega
    rw [beq_iff_eq]
    conv_rhs => rw [wordAt, field, hword, ofNat_ofBytes_wordBytes]

/-! ## The chunks of an image -/

def pushBlock (cs : List Chunk) (b : List UInt8) : List Chunk :=
  match repeatedWord b, cs.getLast? with
  | some v, some (.fill n w) =>
    if w = v then cs.dropLast ++ [.fill (n + 1) w] else cs ++ [.fill 1 v]
  | some v, _ => cs ++ [.fill 1 v]
  | none, some (.raw n data) => cs.dropLast ++ [.raw (n + 1) (data ++ b)]
  | none, _ => cs ++ [.raw 1 b]

/-- The chunks of the first `k` blocks of an image. -/
def encodeTo (bs : Nat) (img : List UInt8) : Nat → List Chunk
  | 0 => []
  | k + 1 => pushBlock (encodeTo bs img k) ((img.drop (k * bs)).take bs)

def encode (bs : Nat) (img : List UInt8) : List Chunk := encodeTo bs img (img.length / bs)

section Nodes

variable {env : Env} {bs : UInt32}

/-- The chunk of a node of whole blocks. -/
theorem nodeChunk_of_dvd {bb : BackedBlock} (hbs : 0 < bs.toNat)
    (h : bb.len.toNat + bs.toNat ≤ 2 ^ 32) (hd : bs.toNat ∣ bb.len.toNat) :
    nodeChunk env bs bb = match bb.backing with
      | .fill v => .fill (divRoundUp bb.len bs) v
      | _ => .raw (divRoundUp bb.len bs) (nodeImage env bb) := by
  unfold nodeChunk nodeImage content
  cases bb.backing <;>
    simp [Content.chunk, padded, align_of_dvd hbs h hd]

theorem divRoundUp_self (hbs : 0 < bs.toNat) (hbs' : bs.toNat < 2 ^ 31) : divRoundUp bs bs = 1 := by
  apply UInt32.toNat_inj.mp
  rw [divRoundUp_of_dvd hbs (by omega) (Nat.dvd_refl _), Nat.div_self hbs]
  rfl

theorem divRoundUp_add_self {len : UInt32} (hbs : 0 < bs.toNat)
    (h : len.toNat + bs.toNat + bs.toNat ≤ 2 ^ 32) (hd : bs.toNat ∣ len.toNat) :
    divRoundUp (len + bs) bs = divRoundUp len bs + 1 := by
  have hadd : (len + bs).toNat = len.toNat + bs.toNat := by
    rw [UInt32.toNat_add]
    exact Nat.mod_eq_of_lt (by omega)
  have hq : len.toNat / bs.toNat + 1 < 2 ^ 32 := by
    have := Nat.div_le_self len.toNat bs.toNat
    omega
  apply UInt32.toNat_inj.mp
  rw [UInt32.toNat_add, divRoundUp_of_dvd hbs (by omega) (hadd ▸ Nat.dvd_add hd (Nat.dvd_refl _)),
    hadd, divRoundUp_of_dvd hbs (by omega) hd, Nat.add_div_right _ hbs]
  exact (Nat.mod_eq_of_lt hq).symm

/-- The nodes that the reader of the image at `fd` has built: runs of fills, and pieces of the
file at the place of their block. -/
def FromImage (bs : UInt32) (fd : Int) (bb : BackedBlock) : Prop :=
  bb.backing = .fd fd (bb.block.toNat * bs.toNat : Nat) ∨ ∃ v, bb.backing = .fill v

/-- The node for block `k` of the image, which is `b`. -/
structure BlockNode (env : Env) (bs : UInt32) (fd : Int) (k : Nat) (b : List UInt8)
    (bb : BackedBlock) : Prop where
  block : bb.block.toNat = k
  len : bb.len = bs
  backing : bb.backing = match repeatedWord b with
    | some v => .fill v
    | none => .fd fd (k * bs.toNat : Nat)
  image : nodeImage env bb = b

theorem BlockNode.fromImage {fd : Int} {k : Nat} {bb : BackedBlock}
    (h : BlockNode env bs fd k b bb) : FromImage bs fd bb := by
  unfold FromImage
  rw [h.backing, h.block]
  cases repeatedWord b with
  | none => exact Or.inl rfl
  | some v => exact Or.inr ⟨v, rfl⟩

theorem BlockNode.nodeChunk {fd : Int} {k : Nat} {bb : BackedBlock} (hbs : 0 < bs.toNat)
    (hsmall : bs.toNat < 2 ^ 31) (h : BlockNode env bs fd k b bb) :
    nodeChunk env bs bb = match repeatedWord b with
      | some v => .fill 1 v
      | none => .raw 1 b := by
  rw [nodeChunk_of_dvd hbs (by rw [h.len]; omega) (by rw [h.len]), h.len,
    divRoundUp_self hbs (by omega), h.backing, h.image]
  cases repeatedWord b <;> rfl

/-- The chunk of a node and the block that is added to it. -/
theorem BlockNode.nodeChunk_absorb {fd : Int} {k : Nat} {last newBb : BackedBlock}
    (hbs : 0 < bs.toNat) (h4 : 4 ∣ bs.toNat) (h : BlockNode env bs fd k b newBb)
    (hd : bs.toNat ∣ last.len.toNat) (hsmall : last.len.toNat + bs.toNat < 2 ^ 31)
    (hc : compatible last newBb = true) (hf : last.backing.type ≠ .file)
    (ho : 0 ≤ last.backing.offset) :
    Libsparse.nodeChunk env bs (last.absorb newBb) = match last.backing with
      | .fill v => .fill (divRoundUp last.len bs + 1) v
      | _ => .raw (divRoundUp last.len bs + 1) (nodeImage env last ++ b) := by
  have hsum := @absorb_toNat last newBb (by rw [h.len]; omega)
  rw [nodeChunk_of_dvd hbs (by rw [hsum, h.len]; omega)
    (by rw [hsum, h.len]; exact Nat.dvd_add hd (Nat.dvd_refl _)), absorb_backing, absorb_len, h.len,
    divRoundUp_add_self hbs (by omega) hd,
    nodeImage_absorb env hc hf (h4.trans hd) ho (by rw [h.len]; omega), h.image]

/-- The node of one block goes together with the last one as the chunks do. -/
theorem map_snocBb {fd : Int} {nodes : List BackedBlock} {k : Nat} {newBb : BackedBlock}
    (hbs : 0 < bs.toNat) (h4 : 4 ∣ bs.toNat) (ht : Tiles bs 0 nodes k)
    (hn : ∀ bb ∈ nodes, FromImage bs fd bb) (hsmall : k * bs.toNat + bs.toNat < 2 ^ 31)
    (h : BlockNode env bs fd k b newBb) :
    (snocBb bs nodes newBb).map (nodeChunk env bs) = pushBlock (nodes.map (nodeChunk env bs)) b := by
  have hchunk := h.nodeChunk hbs (by omega)
  have hnew := h.backing
  rcases eq_nil_or_concat nodes with rfl | ⟨before, last, rfl⟩
  · simp only [snocBb, List.getLast?_nil, map_cons, map_nil, hchunk, pushBlock]
    cases repeatedWord b <;> rfl
  rw [concat_eq_append] at ht hn ⊢
  obtain ⟨-, hle, hpos, hd⟩ := ht.mem last (by simp)
  obtain ⟨mid, -, hlb, -, -, hk⟩ := tiles_append.mp ht
  have hk : k = mid + last.len.toNat / bs.toNat := hk
  have hmul : k * bs.toNat = last.block.toNat * bs.toNat + last.len.toNat := by
    rw [hk, hlb, Nat.add_mul, Nat.div_mul_cancel hd]
  have hadj : last.block + last.len / bs = newBb.block := by
    apply UInt32.toNat_inj.mp
    rw [UInt32.toNat_add, UInt32.toNat_div, hlb, ← hk, ← h.block]
    exact Nat.mod_eq_of_lt newBb.block.toNat_lt
  have hmerge : mergeable bs last newBb = compatible last newBb := by simp [mergeable, hadj]
  have hlast := @nodeChunk_of_dvd env bs last hbs (by omega) hd
  have hjoin := h.nodeChunk_absorb hbs h4 hd (by omega)
  rw [snocBb_append, map_append, map_append, joinPrev, hmerge]
  simp only [pushBlock, map_cons, map_nil, List.getLast?_append, List.getLast?_singleton,
    Option.some_or, dropLast_concat]
  rcases hn last (by simp) with hfd | ⟨w, hw⟩
  · simp only [hfd] at hlast hjoin
    cases hr : repeatedWord b with
    | some v =>
      simp only [hr] at hnew hchunk
      have hc : compatible last newBb = false := by simp [compatible, hfd, hnew]
      simp [hc, hlast, hchunk]
    | none =>
      simp only [hr] at hnew hchunk
      have hc : compatible last newBb = true := by
        simp only [compatible, hfd, hnew, beq_self_eq_true, Bool.true_and, beq_iff_eq]
        rw [hmul]
        rfl
      simp [hc, hlast, hjoin hc (by simp [Backing.type]) (Int.natCast_nonneg _)]
  · simp only [hw] at hlast hjoin
    cases hr : repeatedWord b with
    | some v =>
      simp only [hr] at hnew hchunk
      have hc : compatible last newBb = (w == v) := by simp [compatible, hw, hnew]
      by_cases hv : w = v
      · rw [hv, beq_self_eq_true] at hc
        simp [hc, hlast, hv, hjoin hc (by simp [Backing.type]) (Int.le_refl _)]
      · rw [beq_eq_false_iff_ne.mpr hv] at hc
        simp [hc, hlast, hchunk, hv]
    | none =>
      simp only [hr] at hnew hchunk
      have hc : compatible last newBb = false := by simp [compatible, hw, hnew]
      simp [hc, hlast, hchunk]

end Nodes

/-! ## The loop -/

/-- The reader behind `k` blocks of the image. -/
structure ImageRead (env : Env) (fd : Int) (bs : UInt32) (img : List UInt8) (k : Nat) (r : Reader) :
    Prop where
  blockSize : r.s.blockSize = bs
  len : r.s.len = img.length
  pos : r.pos = k * bs.toNat
  tiles : Tiles bs 0 r.s.list.dataBlocks k
  nodes : ∀ bb ∈ r.s.list.dataBlocks, FromImage bs fd bb
  chunks : r.s.list.dataBlocks.map (nodeChunk env bs) = encodeTo bs.toNat img k
  image : r.s.list.dataBlocks.flatMap (nodeImage env) = img.take (k * bs.toNat)

section Loop

variable (pick : List BackedBlock → BackedBlock → Nat) {env : Env} {fd : Int} {bs : UInt32}
  {img : List UInt8} (hfd : env.fds fd = some (bufOf img)) (hbs : 0 < bs.toNat)
  (h4 : 4 ∣ bs.toNat) (hl : img.length < 2 ^ 31)

include hfd h4 in
/-- What is queued for a block is its node. -/
theorem blockNode_call {k : Nat} (hk : k * bs.toNat + bs.toNat ≤ img.length) {block : UInt32}
    (hb : block.toNat = k) (hbl : b = (img.drop (k * bs.toNat)).take bs.toNat) {c : AddCall}
    (hcall : (if sparseBlock bs b then AddCall.fill (wordAt b 0) bs block
      else .fd fd (k * bs.toNat : Nat) bs block) = c) (addr : Nat) :
    BlockNode env bs fd k b (c.bb addr) := by
  have hblen : b.length = bs.toNat := by
    rw [hbl, length_take, length_drop]
    omega
  have hsparse := sparseBlock_iff hblen h4
  have hlen : (c.bb addr).len = bs := by
    rw [← hcall]
    split <;> rfl
  have hback : (c.bb addr).backing = match repeatedWord b with
      | some v => .fill v
      | none => .fd fd (k * bs.toNat : Nat) := by
    rw [← hcall, repeatedWord]
    by_cases hs : sparseBlock bs b = true
    · rw [if_pos hs, if_pos (hsparse.mp hs)]
      rfl
    · rw [if_neg hs, if_neg (fun h => hs (hsparse.mpr h))]
      rfl
  refine ⟨?_, hlen, hback, ?_⟩
  · rw [← hb, ← hcall]
    split <;> rfl
  · rw [nodeImage, content, hback, hlen, repeatedWord]
    by_cases hs : b = readBytes (fillCopybuf (wordAt b 0)) b.length
    · rw [if_pos hs, ← hblen]
      exact hs.symm
    · rw [if_neg hs]
      simp only [hfd]
      rw [hbl, ← readBytes_bufOf_drop hk]
      rfl

include hbs h4 hl in
/-- The node of the next block takes the reader one block on. -/
theorem ImageRead.snoc {k : Nat} {r : Reader} (h : ImageRead env fd bs img k r)
    (hk : k * bs.toNat + bs.toNat ≤ img.length)
    (hbl : b = (img.drop (k * bs.toNat)).take bs.toNat) {c : AddCall}
    (hn : BlockNode env bs fd k b (c.bb r.fresh)) (lu : Option Nat) :
    ImageRead env fd bs img (k + 1)
      (Reader.snoc { r with pos := k * bs.toNat + bs.toNat } c lu) := by
  have hsmall : k * bs.toNat + (c.bb r.fresh).len.toNat < 2 ^ 32 := by
    rw [hn.len]
    omega
  have hnodes : ∀ bb ∈ r.s.list.dataBlocks, bb.backing.type ≠ .file ∧ 0 ≤ bb.backing.offset := by
    intro bb hbb
    exact offset_nonneg ((h.nodes bb hbb).imp_left fun hb => ⟨fd, _, hb⟩)
  have htiles := h.tiles.snoc hn.block (by rw [hn.len]; exact hbs) (by rw [hn.len]) hsmall
  rw [hn.len, Nat.div_self hbs] at htiles
  have hlist : (Reader.snoc { r with pos := k * bs.toNat + bs.toNat } c lu).s.list.dataBlocks =
      snocBb bs r.s.list.dataBlocks (c.bb r.fresh) := by
    rw [← h.blockSize]
    rfl
  exact {
    blockSize := h.blockSize
    len := h.len
    pos := (Nat.succ_mul k bs.toNat).symm
    tiles := by rw [hlist]; exact htiles
    nodes := by
      exact forall_snocBb h.nodes hn.fromImage (fun last hm _ => h.nodes last (mem_of_getLast? hm))
    chunks := by
      rw [hlist, map_snocBb hbs h4 h.tiles h.nodes (by omega) hn, h.chunks, encodeTo, hbl]
    image := by
      rw [hlist, nodesImage_snoc env h4 h.tiles hsmall hnodes, h.image, hn.image, hbl, Nat.succ_mul,
        take_add] }

include hfd hbs h4 hl

theorem ImageRead.add {k : Nat} {r : Reader} (h : ImageRead env fd bs img k r)
    (hk : k * bs.toNat + bs.toNat ≤ img.length) {block : UInt32} (hb : block.toNat = k)
    (hbl : b = (img.drop (k * bs.toNat)).take bs.toNat) :
    ∃ r', Reader.add (.live pick) { r with pos := k * bs.toNat + bs.toNat }
        (if sparseBlock bs b then .fill (wordAt b 0) bs block
          else .fd fd (k * bs.toNat : Nat) bs block) = .ok r' ∧
      ImageRead env fd bs img (k + 1) r' := by
  generalize hcall : (if sparseBlock bs b then AddCall.fill (wordAt b 0) bs block
    else .fd fd (k * bs.toNat : Nat) bs block) = c
  have hn := blockNode_call hfd h4 hk hb hbl hcall r.fresh
  have hlt : ∀ n ∈ r.s.list.dataBlocks, n.block < (c.bb r.fresh).block := by
    intro n hmem
    obtain ⟨-, hle, hpos, hd⟩ := h.tiles.mem n hmem
    have := Nat.div_pos (Nat.le_of_dvd hpos hd) hbs
    have := hn.block
    exact UInt32.lt_iff_toNat_lt.mpr (by omega)
  obtain ⟨lu, hadd⟩ := add_snoc pick (r := { r with pos := k * bs.toNat + bs.toNat }) (c := c)
    (by
      rw [h.blockSize]
      intro h0
      rw [h0] at hbs
      exact absurd hbs (by decide)) hlt
  exact ⟨_, hadd, h.snoc hbs h4 hl hk hbl hn lu⟩

/-- The loop reads the image to its end. -/
theorem readNormalLoop_reads (j : Nat) :
    ∀ {fuel k : Nat} {r : Reader} {block : UInt32}, img.length = (k + j) * bs.toNat → j ≤ fuel →
      block.toNat = k → ImageRead env fd bs img k r →
      ∃ r', readNormalLoop (.live pick) img fd fuel r block (j * bs.toNat : Nat)
          (k * bs.toNat : Nat) = .ok r' ∧ ImageRead env fd bs img (k + j) r' := by
  induction j with
  | zero =>
    intro fuel k r block _ _ _ h
    refine ⟨r, ?_, h⟩
    cases fuel <;> simp [readNormalLoop]
  | succ j ih =>
    intro fuel k r block hlen hfuel hb h
    obtain ⟨fuel, rfl⟩ : ∃ f, fuel = f + 1 := ⟨fuel - 1, by omega⟩
    have hmul : (k + (j + 1)) * bs.toNat = k * bs.toNat + bs.toNat + j * bs.toNat := by ring
    have hk : k * bs.toNat + bs.toNat ≤ img.length := by omega
    have hk1 : (k + 1) * bs.toNat = k * bs.toNat + bs.toNat := Nat.succ_mul _ _
    have hmin : lowWord (min ((j + 1) * bs.toNat : Nat) (bs.toNat : Int)) = bs := by
      have : bs.toNat ≤ (j + 1) * bs.toNat := Nat.le_mul_of_pos_left _ (by omega)
      rw [min_eq_right (by omega), lowWord_toNat_cast]
    have hread : readAll img r.pos bs.toNat =
        .ok ((img.drop (k * bs.toNat)).take bs.toNat, k * bs.toNat + bs.toNat) := by
      rw [readAll, h.pos, if_pos (Or.inr hk)]
    have hpos : ((j + 1) * bs.toNat : Nat) > (0 : Int) := by
      have : 0 < (j + 1) * bs.toNat := Nat.mul_pos (by omega) hbs
      omega
    have h4' : ¬ bs < 4 := by
      intro hlt
      have : bs.toNat < 4 := hlt
      have := Nat.le_of_dvd hbs h4
      omega
    obtain ⟨r1, hadd, h1⟩ := h.add pick hfd hbs h4 hl hk hb rfl
    obtain ⟨r', hr', h'⟩ := @ih fuel (k + 1) r1 (block + 1) (by rw [hlen]; congr 1; omega)
      (by omega) (by
        rw [UInt32.toNat_add, hb]
        have := Nat.le_mul_of_pos_right k hbs
        exact Nat.mod_eq_of_lt (by change k + 1 < 2 ^ 32; omega)) h1
    refine ⟨r', ?_, by rw [Nat.add_right_comm] at h'; exact h'⟩
    unfold readNormalLoop
    rw [if_pos hpos, h.blockSize, hmin]
    simp only [hread, h.blockSize, true_and, if_neg h4', hadd]
    have hremain : (((j + 1) * bs.toNat : Nat) : Int) - bs.toNat = (j * bs.toNat : Nat) := by
      push_cast
      ring
    have hoffset : ((k * bs.toNat : Nat) : Int) + bs.toNat = ((k + 1) * bs.toNat : Nat) := by
      push_cast
      ring
    rw [hremain, hoffset]
    exact hr'

end Loop

section Image

variable {env : Env} {fd : Int} {bs : UInt32} {img : List UInt8} {r : Reader} {k : Nat}
  (hfd : env.fds fd = some (bufOf img)) (hbs : 0 < bs.toNat) (h4 : 4 ∣ bs.toNat)
  (hd : bs.toNat ∣ img.length) (hl : img.length < 2 ^ 31)

include hfd hbs h4 hd hl in
/-- A new file takes up the image as its chunks say. -/
theorem sparseFileReadNormal_reads (pick : List BackedBlock → BackedBlock → Nat) :
    ∃ r, sparseFileReadNormal (.live pick) img fd (sparseFileNew bs img.length) 0 0 =
        .ok (r.s, r.fresh) ∧ ImageRead env fd bs img (img.length / bs.toNat) r := by
  have hmul := Nat.div_mul_cancel hd
  have hfuel : img.length / bs.toNat ≤ img.length := Nat.div_le_self _ _
  obtain ⟨r, hr, h⟩ := @readNormalLoop_reads pick env fd bs img hfd hbs h4 hl (img.length / bs.toNat)
    img.length 0 ⟨sparseFileNew bs img.length, 0, 0, none⟩ 0 (by rw [Nat.zero_add, hmul]) hfuel rfl
    ⟨rfl, rfl, (Nat.zero_mul _).symm, rfl, by simp [sparseFileNew, backedBlockListNew], rfl, by
      simp [sparseFileNew, backedBlockListNew]⟩
  rw [Nat.zero_add] at h
  rw [hmul, Nat.zero_mul] at hr
  have hr : readNormalLoop (.live pick) img fd (sparseFileNew bs img.length).len.toNat
      ⟨sparseFileNew bs img.length, 0, 0, none⟩ 0 (sparseFileNew bs img.length).len 0 = .ok r := hr
  refine ⟨r, ?_, h⟩
  rw [sparseFileReadNormal, hr]

include hbs h4 hd hl in
theorem ImageRead.tiledFile (h : ImageRead env fd bs img (img.length / bs.toNat) r) :
    TiledFile r.s (img.length / bs.toNat) where
  pos := h.blockSize ▸ hbs
  words := h.blockSize ▸ h4
  small := by rw [h.blockSize, Nat.div_mul_cancel hd]; exact hl
  tiles := h.blockSize ▸ h.tiles
  len := by rw [h.len, h.blockSize, Nat.div_mul_cancel hd]

include hfd hbs in
/-- A node can be written if the data of its chunk goes into one `write`. -/
theorem ImageRead.writable_iff (h : ImageRead env fd bs img k r) (hk : k * bs.toNat < 2 ^ 31) :
    (∀ bb ∈ r.s.list.dataBlocks, writable maxRwCount env bb = true) ↔
      ∀ c ∈ encodeTo bs.toNat img k, c.payload.length ≤ maxRwCount := by
  rw [← h.chunks, forall_mem_map]
  refine forall₂_congr fun bb hb => ?_
  have hle := h.tiles.len_le bb hb
  obtain ⟨-, -, hpos, hd⟩ := h.tiles.mem bb hb
  have hbs' := Nat.le_of_dvd hpos hd
  rw [nodeChunk_of_dvd hbs (by omega) hd]
  rcases h.nodes bb hb with hback | ⟨v, hback⟩
  · rw [writable_fd hback hfd hpos, decide_eq_true_eq, hback]
    simp [Chunk.payload, nodeImage, content, hback]
  · rw [writable_fill _ env hback, hback]
    simp [Chunk.payload, maxRwCount_eq]

end Image

end SystemCore.Libsparse
