import SystemCore.Lib.Runs
import SystemCore.Libsparse.Reading

/-!
# Which files sparse_file_import can take

An import comes to its end, with a file or with a null result, exactly if every chunk
it takes up is safe in the state it is taken up in. What the reader knows about its
list at that point is that it is sorted, and that a block size of zero has let only
fills into it.
-/
namespace SystemCore.Libsparse

open Lib.Runs

/-! ## Queueing -/

/-- A node at `block` can be queued: in front of the list, or where no node has its
number and `merge_bb` can divide by the block size. -/
def CanQueue (freed : FreedRead) (bbl : BackedBlockList) (block : UInt32) : Prop :=
  (∀ n ∈ bbl.dataBlocks.head?, block < n.block) ∨
    bbl.blockSize ≠ 0 ∧ (∀ n ∈ bbl.dataBlocks, n.block ≠ block) ∧
      (freed = .trap → ∀ a ∈ bbl.lastUsed, ∃ n ∈ bbl.dataBlocks, n.addr = a)

/-- The lists that a reader builds. -/
structure ReaderList (bbl : BackedBlockList) : Prop where
  sorted : bbl.dataBlocks.Pairwise (·.block < ·.block)
  fills : bbl.blockSize = 0 → ∀ n ∈ bbl.dataBlocks, n.backing.type = .fill

section Queueing

variable {freed : FreedRead} {bbl bbl' : BackedBlockList} {newBb : BackedBlock}

theorem searchStop_trap {o : Cursor} (h : searchStop .trap bbl newBb = .ok (some o)) :
    ∀ a ∈ bbl.lastUsed, ∃ n ∈ bbl.dataBlocks, n.addr = a := by
  intro a ha
  by_contra hno
  push Not at hno
  unfold searchStop at h
  split at h
  · cases h
  rename_i hd tl hl
  split at h
  · cases h
  have hidx : (hd :: tl).findIdx (fun n => n.addr == a) = (hd :: tl).length := by
    rw [List.findIdx_eq_length]
    intro n hn
    simpa using hno n (hl ▸ hn)
  rw [Option.mem_def.mp ha] at h
  simp [searchStart, cursorAt, hidx] at h

theorem mergeBb_zero {a b : BackedBlock} (ht : a.backing.type = b.backing.type)
    (r : Option BackedBlock) : mergeBb 0 a b ≠ .ok r := by
  intro h
  unfold mergeBb at h
  split at h
  · cases h
  rw [if_neg (not_not.mpr ht), if_pos rfl] at h
  cases h

/-- Without a block size a node goes in front of nodes of its type or nowhere. -/
theorem queueBb_zero {c : Cursor} (hbs : bbl.blockSize = 0)
    (ht : ∀ n ∈ bbl.dataBlocks, n.backing.type = newBb.backing.type)
    (hs : searchStop freed bbl newBb = .ok (some c)) : queueBb freed bbl newBb ≠ .ok bbl' := by
  intro h
  have hmem : ∀ n, n = c.bb ∨ n ∈ c.next → n ∈ bbl.dataBlocks := by
    intro n hn
    rw [← (searchStop_spec hs).1, Cursor.nodes]
    simp [hn]
  simp only [queueBb, hs] at h
  cases hl : linkAndMerge bbl.blockSize c.bb newBb c.next with
  | error e => rw [hl] at h; cases h
  | ok nodes =>
    rw [hbs] at hl
    cases hn : c.next with
    | nil =>
      simp only [hn, linkAndMerge, mergeInto] at hl
      cases hm : mergeBb 0 c.bb newBb with
      | error e => rw [hm] at hl; cases hl
      | ok r => exact mergeBb_zero (ht c.bb (hmem _ (Or.inl rfl))) r hm
    | cons n rest =>
      simp only [hn, linkAndMerge] at hl
      cases hm : mergeBb 0 newBb n with
      | error e => rw [hm] at hl; cases hl
      | ok r => exact mergeBb_zero (ht n (hmem _ (Or.inr (by simp [hn])))).symm r hm

theorem queueBb_ok_iff (hl : ReaderList bbl)
    (ht : bbl.blockSize = 0 → newBb.backing.type = .fill) :
    (∃ bbl', queueBb freed bbl newBb = .ok bbl') ↔ CanQueue freed bbl newBb.block := by
  constructor
  · rintro ⟨bbl', h⟩
    rcases queueBb_inv h with ⟨hs, -⟩ | ⟨c, hs, hbb, hnext, -⟩
    · exact Or.inl (searchStop_none hs)
    refine Or.inr ⟨?_, ?_, ?_⟩
    · intro hbs
      exact queueBb_zero hbs (fun n hn => by rw [hl.fills hbs n hn, ht hbs]) hs h
    · obtain ⟨hnodes, hlow, hhigh⟩ := searchStop_sides hs hl.sorted hbb hnext
      intro n hn
      rw [hnodes] at hn
      rcases List.mem_append.mp hn with hn | hn
      · exact UInt32.ne_of_lt (hlow n hn)
      · exact (UInt32.ne_of_lt (hhigh n hn)).symm
    · rintro rfl
      exact searchStop_trap hs
  · rintro (hfront | ⟨hbs, hne, hlive⟩)
    · exact ⟨_, queueBb_front (searchStop_front hfront)⟩
    · obtain ⟨o, ho⟩ := searchStop_ok newBb (.inr hlive)
      cases o with
      | none => exact ⟨_, queueBb_front ho⟩
      | some c =>
        obtain ⟨hbb, hnext⟩ := searchStop_between ho hne
        exact ⟨_, queueBb_behind ho hbs hbb hnext⟩

theorem joinPrev_blocks (bs : UInt32) (bb : BackedBlock) (m : BackedBlock × List BackedBlock) :
    ((joinPrev bs bb m).map BackedBlock.block).Sublist
      (bb.block :: m.1.block :: m.2.map BackedBlock.block) := by
  unfold joinPrev
  split <;> simp

theorem joinNext_blocks (bs : UInt32) (newBb : BackedBlock) (next : List BackedBlock) :
    ((joinNext bs newBb next).2.map BackedBlock.block).Sublist (next.map BackedBlock.block) := by
  cases next with
  | nil => simp [joinNext]
  | cons n rest =>
    simp only [joinNext]
    split <;> simp

/-- Queueing keeps a list of the reader. -/
theorem ReaderList.queueBb (hl : ReaderList bbl) (ht : bbl.blockSize = 0 → newBb.backing.type = .fill)
    (h : queueBb freed bbl newBb = .ok bbl') : ReaderList bbl' := by
  rcases queueBb_inv h with ⟨hs, rfl⟩ | ⟨c, hs, hbb, hnext, rfl⟩
  · constructor
    · exact List.pairwise_cons.mpr ⟨above_of_head hl.sorted (searchStop_none hs), hl.sorted⟩
    · intro hbs n hn
      rcases List.mem_cons.mp hn with rfl | hn
      · exact ht hbs
      · exact hl.fills hbs n hn
  · constructor
    · -- the merges take numbers out of the list that has the new node behind the cursor
      have hsub : ((c.before ++ joinPrev bbl.blockSize c.bb
          (joinNext bbl.blockSize newBb c.next)).map BackedBlock.block).Sublist
          ((c.before ++ c.bb :: newBb :: c.next).map BackedBlock.block) := by
        rw [List.map_append, List.map_append, List.map_cons, List.map_cons]
        refine (List.Sublist.refl _).append ((joinPrev_blocks _ _ _).trans ?_)
        rw [(joinNext_fst _ _ _).1]
        exact ((joinNext_blocks _ _ _).cons_cons _).cons_cons _
      obtain ⟨hnodes, hlow, hhigh⟩ := searchStop_sides hs hl.sorted hbb hnext
      have hsorted := hl.sorted
      rw [hnodes] at hsorted
      have hlinked := pairwise_link hsorted hlow hhigh
      rw [← List.append_cons] at hlinked
      exact List.pairwise_map.mp ((List.pairwise_map.mpr hlinked).sublist hsub)
    · intro hbs
      exact absurd h (queueBb_zero hbs (fun n hn => by rw [hl.fills hbs n hn, ht hbs]) hs)

end Queueing

/-! ## One chunk -/

/-- The computation returns, with a value or with an error. -/
def Faultless {α : Type} (x : Except Stop α) : Prop := ∀ e, x = .error e → ¬ ∃ f, e = .fault f

variable {α : Type} {e : Stop} {st : ChunkLoop}

@[simp] theorem faultless_ok (a : α) : Faultless (.ok a) := by
  intro e h
  cases h

@[simp] theorem faultless_err (ret : Int) : Faultless (.error (.err ret) : Except Stop α) := by
  rintro e h ⟨f, rfl⟩
  cases h

@[simp] theorem not_faultless_fault (f : Fault) :
    ¬ Faultless (.error (.fault f) : Except Stop α) := fun h => h _ rfl ⟨f, rfl⟩

theorem faultless_readAll (file : List UInt8) (pos len : Nat) : Faultless (readAll file pos len) := by
  unfold readAll
  split
  · exact faultless_ok _
  · exact faultless_err _

/-- The computation faults exactly if `S` does not hold, and a value it returns meets `Q`. -/
structure Comes {α : Type} (S : Prop) (Q : α → Prop) (x : Except Stop α) : Prop where
  faultless_iff : Faultless x ↔ S
  meets : ∀ a, x = .ok a → Q a

section Comes

variable {α β : Type} {S : Prop} {P : α → Prop} {Q : β → Prop}

@[simp] theorem comes_ok {a : α} : Comes S P (.ok a) ↔ S ∧ P a :=
  ⟨fun h => ⟨h.faultless_iff.mp (faultless_ok a), h.meets a rfl⟩,
    fun h => ⟨iff_of_true (faultless_ok a) h.1, fun _ ha => Except.ok.inj ha ▸ h.2⟩⟩

@[simp] theorem comes_err {ret : Int} : Comes S P (.error (.err ret)) ↔ S :=
  ⟨fun h => h.faultless_iff.mp (faultless_err ret),
    fun h => ⟨iff_of_true (faultless_err ret) h, fun _ ha => by cases ha⟩⟩

@[simp] theorem comes_fault {f : Fault} : Comes S P (.error (.fault f)) ↔ ¬ S :=
  ⟨fun h => mt h.faultless_iff.mpr (not_faultless_fault f),
    fun h => ⟨iff_of_false (not_faultless_fault f) h, fun _ ha => by cases ha⟩⟩

theorem Comes.error (h : Comes S P (.error e)) : Comes S Q (.error e) := by
  cases e with
  | err ret => exact comes_err.mpr (comes_err.mp h)
  | fault f => exact comes_fault.mpr (comes_fault.mp h)

theorem Faultless.comes_error {x : Except Stop α} (h : Faultless x) (he : x = .error e) (hS : S) :
    Comes S Q (.error e) := by
  cases e with
  | err ret => exact comes_err.mpr hS
  | fault f => exact absurd ⟨f, rfl⟩ (h _ he)

end Comes

theorem comes_returnBlocks {S : Prop} {Q : Reader → Prop} {n : UInt32} {x : Except Stop Reader}
    (h : Comes S Q x) : Comes S (fun res => Q res.2) (returnBlocks n x) := by
  cases x with
  | ok r => exact comes_ok.mpr (comes_ok.mp h)
  | error e => exact h.error

/-- The checksum over the blocks can be taken: their bytes are counted in an `int64_t`. -/
def CanSum (r : Reader) (blocks : UInt32) : Prop :=
  r.crc ≠ none → blocks.toNat * r.s.blockSize.toNat < 2 ^ 63

/-- The chunk with header `h` and `dataSize` further bytes is safe for the reader. -/
def SafeChunk (freed : FreedRead) (file : List UInt8) (r : Reader) (h : ChunkHeader)
    (dataSize curBlock : UInt32) : Prop :=
  if h.chunkType = chunkTypeRaw then
    r.s.blockSize ≠ 0 ∧ (dataSize % r.s.blockSize = 0 → dataSize / r.s.blockSize = h.chunkSz →
      CanQueue freed r.s.list curBlock)
  else if h.chunkType = chunkTypeFill then
    dataSize = 4 → r.pos + 4 ≤ file.length → CanQueue freed r.s.list curBlock ∧ CanSum r h.chunkSz
  else if h.chunkType = chunkTypeDontCare then
    dataSize = 0 → CanSum r h.chunkSz
  else if h.chunkType = chunkTypeCrc32 then r.crc ≠ none
  else True

section Chunks

variable {freed : FreedRead} {file : List UInt8} {fd : Int} {r r' : Reader} {c : AddCall}

theorem add_fault (h : r.add freed c = .error e) : ∃ f, e = .fault f := by
  unfold Reader.add at h
  split at h <;> cases h
  exact ⟨_, rfl⟩

theorem comes_add (freed : FreedRead) (hl : ReaderList r.s.list)
    (ht : r.s.blockSize = 0 → (c.bb r.fresh).backing.type = .fill) :
    Comes (CanQueue freed r.s.list (c.bb r.fresh).block) (fun r' => ReaderList r'.s.list ∧
      r'.s.blockSize = r.s.blockSize ∧ r'.crc = r.crc) (r.add freed c) := by
  rw [← queueBb_ok_iff hl ht]
  simp only [Reader.add, SparseFile.add, AddCall.run_eq]
  cases hq : queueBb freed r.s.list (c.bb r.fresh) with
  | error e => simp
  | ok list => exact comes_ok.mpr ⟨⟨list, rfl⟩, hl.queueBb ht hq, queueBb_blockSize hq, rfl⟩

theorem toInt64_neg {n : Nat} (h : 2 ^ 63 ≤ n) (h' : n < 2 ^ 64) : toInt64 n < 0 := by
  unfold toInt64
  rw [Int.bmod_def]
  omega

theorem sumCopybuf_neg {crc : UInt32} (hc : r.crc = some crc) (copybuf : Nat → UInt8) {len : Int}
    (hneg : len < 0) : ∃ f, r.sumCopybuf copybuf len = .error (.fault f) := by
  simp only [Reader.sumCopybuf, hc]
  rw [copyCrcLoop, if_neg (Int.ne_of_lt hneg), if_pos hneg]
  exact ⟨_, rfl⟩

theorem comes_sumCopybuf {copybuf : Nat → UInt8}
    (hper : ∀ i, copybuf (copyBufSize + i) = copybuf i) (r : Reader) (blocks : UInt32) :
    Comes (CanSum r blocks) (fun r' => r'.s = r.s)
      (r.sumCopybuf copybuf (toInt64 (blocks.toNat * r.s.blockSize.toNat))) := by
  have hmul : blocks.toNat * r.s.blockSize.toNat < 2 ^ 32 * 2 ^ 32 :=
    Nat.mul_lt_mul'' blocks.toNat_lt r.s.blockSize.toNat_lt
  rw [← Int.natCast_mul]
  unfold CanSum
  generalize blocks.toNat * r.s.blockSize.toNat = n at hmul
  rcases Nat.lt_or_ge n (2 ^ 63) with hlt | hge
  · rw [toInt64_of_lt hlt, sumCopybuf_eq r hper]
    exact comes_ok.mpr ⟨fun _ => hlt, rfl⟩
  · have hneg := toInt64_neg hge (by omega)
    cases hc : r.crc with
    | none =>
      simp only [Reader.sumCopybuf, hc]
      exact comes_ok.mpr ⟨fun h => absurd rfl h, rfl⟩
    | some crc =>
      obtain ⟨f, hf⟩ := sumCopybuf_neg hc copybuf hneg
      rw [hf]
      refine comes_fault.mpr fun h => ?_
      have := h (Option.some_ne_none crc)
      omega

theorem faultless_rawCrcLoop (file : List UInt8) (fuel : Nat) :
    ∀ (len pos : Nat) (crc : UInt32), Faultless (rawCrcLoop file fuel len pos crc) := by
  induction fuel with
  | zero => intro len pos crc; exact faultless_ok _
  | succ fuel ih =>
    intro len pos crc
    unfold rawCrcLoop
    split
    · exact faultless_ok _
    · dsimp only
      split
      · rename_i e he
        exact fun e' he' => Except.error.inj he' ▸ faultless_readAll _ _ _ e he
      · exact ih _ _ _

theorem comes_processRaw (hl : ReaderList r.s.list) (chunkSize : UInt32) (offset : Int)
    (blocks block : UInt32) :
    Comes (r.s.blockSize ≠ 0 ∧ (chunkSize % r.s.blockSize = 0 → chunkSize / r.s.blockSize = blocks →
        CanQueue freed r.s.list block)) (fun r' => ReaderList r'.s.list)
      (processRawChunk freed file fd r chunkSize offset blocks block) := by
  unfold processRawChunk
  split_ifs with hbs hmod hdiv
  · simp [hbs]
  · simp [hbs, hmod]
  · simp [hbs, hdiv]
  have hadd := comes_add freed (c := .fd fd offset (blocks * r.s.blockSize) block) hl
    fun h => absurd h hbs
  simp only [ne_eq, hbs, not_false_eq_true, not_not.mp hmod, not_not.mp hdiv, true_and, forall_const]
  cases ha : r.add freed (.fd fd offset (blocks * r.s.blockSize) block) with
  | error e =>
    rw [ha] at hadd
    exact hadd.error
  | ok r' =>
    rw [ha, comes_ok] at hadd
    dsimp only
    split
    · exact comes_ok.mpr ⟨hadd.1, hadd.2.1⟩
    · split
      · rename_i e he
        exact (faultless_rawCrcLoop _ _ _ _ _).comes_error he hadd.1
      · exact comes_ok.mpr ⟨hadd.1, hadd.2.1⟩

theorem comes_processFill (hl : ReaderList r.s.list) (chunkSize blocks block : UInt32) :
    Comes (chunkSize = 4 → r.pos + 4 ≤ file.length → CanQueue freed r.s.list block ∧ CanSum r blocks)
      (fun r' => ReaderList r'.s.list) (processFillChunk freed file r chunkSize blocks block) := by
  unfold processFillChunk
  split_ifs with h4
  · simp [h4]
  by_cases hpos : r.pos + 4 ≤ file.length
  swap
  · simp [readAll, hpos]
  simp only [readAll, hpos, or_true, ↓reduceIte, not_not.mp h4, forall_const]
  generalize UInt32.ofNat _ = v
  have hadd := comes_add freed (r := { r with pos := r.pos + 4 })
    (c := .fill v (lowWord (toInt64 (blocks.toNat * r.s.blockSize.toNat))) block) hl fun _ => rfl
  cases ha : Reader.add freed { r with pos := r.pos + 4 }
      (.fill v (lowWord (toInt64 (blocks.toNat * r.s.blockSize.toNat))) block) with
  | error e =>
    obtain ⟨f, rfl⟩ := add_fault ha
    rw [ha, comes_fault] at hadd
    exact comes_fault.mpr fun h => hadd h.1
  | ok r' =>
    obtain ⟨hcan, hl', hbs, hcrc⟩ := comes_ok.mp (ha ▸ hadd)
    have hsum := comes_sumCopybuf (fillCopybuf_periodic v) r' blocks
    rw [CanSum, hbs, hcrc] at hsum
    exact ⟨hsum.faultless_iff.trans (and_iff_right hcan).symm, fun a h => by rwa [hsum.meets a h]⟩

theorem comes_processSkip (chunkSize blocks : UInt32) :
    Comes (chunkSize = 0 → CanSum r blocks) (fun r' => r'.s = r.s)
      (processSkipChunk r chunkSize blocks) := by
  unfold processSkipChunk
  split_ifs with h0
  · simp [h0]
  · rw [not_not.mp h0, forall_prop_of_true rfl]
    exact comes_sumCopybuf (fun _ => rfl) r blocks

theorem comes_processCrc32 (file : List UInt8) (r : Reader) (chunkSize crc : UInt32) :
    Comes True (fun r' => r'.s = r.s) (processCrc32Chunk file r chunkSize crc) := by
  unfold processCrc32Chunk
  split_ifs
  · exact comes_err.mpr trivial
  split
  · rename_i e he
    exact (faultless_readAll _ _ _).comes_error he trivial
  split_ifs
  · exact comes_err.mpr trivial
  · exact comes_ok.mpr ⟨trivial, rfl⟩

/-- `process_chunk` returns exactly on the safe chunks, and keeps a list of the reader. -/
theorem comes_processChunk (freed : FreedRead) (file : List UInt8) (fd : Int)
    (hl : ReaderList r.s.list) (offset : Int) (chunkHdrSz : UInt16) (h : ChunkHeader)
    (curBlock : UInt32) :
    Comes (SafeChunk freed file r h (h.totalSz - chunkHdrSz.toUInt32) curBlock)
      (fun res => ReaderList res.2.s.list)
      (processChunk freed file fd r offset chunkHdrSz h curBlock) := by
  unfold processChunk SafeChunk
  dsimp only
  split_ifs
  · exact comes_returnBlocks (comes_processRaw hl _ _ _ _)
  · exact comes_returnBlocks (comes_processFill hl _ _ _)
  · have hskip := comes_processSkip (r := r) (h.totalSz - chunkHdrSz.toUInt32) h.chunkSz
    refine comes_returnBlocks (Q := fun r' => ReaderList r'.s.list)
      ⟨hskip.faultless_iff, fun r' hr' => ?_⟩
    rwa [hskip.meets r' hr']
  · cases hc : r.crc with
    | none => simp
    | some crc =>
      have hsum := comes_processCrc32 file r (h.totalSz - chunkHdrSz.toUInt32) crc
      simp only [ne_eq, reduceCtorEq, not_false_eq_true]
      split
      · rename_i e he
        exact Comes.error (he ▸ hsum)
      · rename_i r' hr'
        refine comes_ok.mpr ⟨trivial, ?_⟩
        rwa [hsum.meets r' hr']
  · exact comes_ok.mpr ⟨trivial, hl⟩

end Chunks

/-! ## Whole imports -/

/-- The next chunk of the loop is safe, if its header can be read. -/
def SafeTurn (freed : FreedRead) (file : List UInt8) (chunkHdrSz : UInt16) (st : ChunkLoop) : Prop :=
  ∀ buf pos, readAll file st.reader.pos chunkHeaderLen = .ok (buf, pos) →
    SafeChunk freed file { st.reader with pos := pos + (chunkHdrSz.toNat - chunkHeaderLen) }
      (ChunkHeader.ofBytes buf) ((ChunkHeader.ofBytes buf).totalSz - chunkHdrSz.toUInt32) st.curBlock

section Turns

variable {freed : FreedRead} {file : List UInt8} {fd : Int} {chunkHdrSz : UInt16}

theorem comes_readChunk (hl : ReaderList st.reader.s.list) :
    Comes (SafeTurn freed file chunkHdrSz st) (fun st' => ReaderList st'.reader.s.list)
      (readChunk freed file fd chunkHdrSz st) := by
  unfold readChunk SafeTurn
  cases hr : readAll file st.reader.pos chunkHeaderLen with
  | error e => exact (faultless_readAll _ _ _).comes_error hr fun _ _ h => by cases h
  | ok res =>
    obtain ⟨buf, pos⟩ := res
    simp only [Except.ok.injEq, Prod.mk.injEq, and_imp, forall_eq',
      forall_apply_eq_imp_iff]
    have hchunk := comes_processChunk freed file fd
      (r := { st.reader with pos := pos + (chunkHdrSz.toNat - chunkHeaderLen) }) hl
      (pos + (chunkHdrSz.toNat - chunkHeaderLen) : Nat) chunkHdrSz (ChunkHeader.ofBytes buf)
      st.curBlock
    split
    · rename_i e he
      exact Comes.error (he ▸ hchunk)
    · rename_i ret r he
      rw [he, comes_ok] at hchunk
      split_ifs
      · exact comes_err.mpr hchunk.1
      · exact comes_ok.mpr hchunk

theorem readChunks_eq_run (n : Nat) (st : ChunkLoop) :
    readChunks freed file fd chunkHdrSz n st =
      run (fun st (_ : Unit) => readChunk freed file fd chunkHdrSz st) st (List.replicate n ()) := by
  induction n generalizing st with
  | zero => rfl
  | succ n ih =>
    rw [List.replicate_succ, readChunks, run]
    cases readChunk freed file fd chunkHdrSz st with
    | error e => rfl
    | ok st' => exact ih st'

end Turns

/-- Every turn of the loop over `n` chunks is safe. -/
def SafeTurns (freed : FreedRead) (file : List UInt8) (fd : Int) (chunkHdrSz : UInt16) (n : Nat)
    (st : ChunkLoop) : Prop :=
  Along (fun st (_ : Unit) => readChunk freed file fd chunkHdrSz st)
    (fun st _ => SafeTurn freed file chunkHdrSz st) st (List.replicate n ())

/-- The loop over the chunks returns exactly if its turns are safe. -/
theorem faultless_readChunks_iff {freed : FreedRead} {file : List UInt8} {fd : Int}
    {chunkHdrSz : UInt16} (hl : ReaderList st.reader.s.list) (n : Nat) :
    Faultless (readChunks freed file fd chunkHdrSz n st) ↔
      SafeTurns freed file fd chunkHdrSz n st := by
  rw [readChunks_eq_run]
  exact run_avoids_iff_along (I := fun st => ReaderList st.reader.s.list)
    (fun _ _ _ hi => (comes_readChunk hi).meets _) (fun _ _ hi => (comes_readChunk hi).faultless_iff)
    _ _ hl

def headerAt (file : List UInt8) (pos : Nat) : Option SparseHeader :=
  match readAll file pos sparseHeaderLen with
  | .error _ => none
  | .ok (buf, _) =>
    if (SparseHeader.ofBytes buf).accepted then some (SparseHeader.ofBytes buf) else none

/-- The reader in front of the chunks: the new file comes from the header `h` that
`sparse_file_import` reads, its chunks from the header `h'` at the start of the file. -/
def importStart (h h' : SparseHeader) (crc : Bool) : ChunkLoop :=
  ⟨⟨sparseFileNew h.blkSz (toInt64 (h.totalBlks.toNat * h.blkSz.toNat)), 0,
    sparseHeaderLen + (h'.fileHdrSz.toNat - sparseHeaderLen), if crc then some 0 else none⟩, 0⟩

theorem nullOnErr_ok_iff (x : Except Stop (SparseFile × Nat)) :
    (∃ o, nullOnErr x = .ok o) ↔ Faultless x := by
  cases x with
  | ok s => simp [nullOnErr]
  | error e => cases e <;> simp [nullOnErr]

theorem faultless_readSparse_iff (freed : FreedRead) (file : List UInt8) (fd : Int)
    (h : SparseHeader) (crc : Bool) :
    Faultless (sparseFileReadSparse freed file fd
        (sparseFileNew h.blkSz (toInt64 (h.totalBlks.toNat * h.blkSz.toNat))) 0 0 crc) ↔
      ∀ h' ∈ headerAt file 0,
        SafeTurns freed file fd h'.chunkHdrSz h'.totalChunks.toNat (importStart h h' crc) := by
  unfold sparseFileReadSparse headerAt
  cases hr : readAll file 0 sparseHeaderLen with
  | error e =>
    refine iff_of_true (fun e' he' => ?_) (by simp)
    exact Except.error.inj he' ▸ faultless_readAll _ _ _ e hr
  | ok res =>
    obtain ⟨buf, pos⟩ := res
    have hpos : pos = sparseHeaderLen := by
      unfold readAll at hr
      split at hr
      · cases hr
        rfl
      · cases hr
    dsimp only
    by_cases ha : (SparseHeader.ofBytes buf).accepted = true
    · rw [if_neg (not_not.mpr ha), if_pos ha]
      simp only [Option.mem_some_iff, forall_eq']
      have hl : ReaderList (importStart h (SparseHeader.ofBytes buf) crc).reader.s.list :=
        ⟨List.Pairwise.nil, fun _ n hn => by cases hn⟩
      rw [← faultless_readChunks_iff hl, importStart, hpos]
      split
      · rename_i e he
        rw [he]
        cases e <;> simp
      · rename_i st he
        rw [he]
        split <;> simp
    · rw [if_pos ha, if_neg ha]
      simp

/-- An import returns exactly if every chunk it takes up is safe. -/
theorem import_returns_iff (freed : FreedRead) (file : List UInt8) (fd : Int) (pos : Nat)
    (crc : Bool) :
    (∃ o, sparseFileImport freed file fd pos crc = .ok o) ↔
      ∀ h ∈ headerAt file pos, ∀ h' ∈ headerAt file 0,
        SafeTurns freed file fd h'.chunkHdrSz h'.totalChunks.toNat (importStart h h' crc) := by
  unfold sparseFileImport
  rw [headerAt]
  cases hr : readAll file pos sparseHeaderLen with
  | error e => simp
  | ok res =>
    obtain ⟨buf, p⟩ := res
    dsimp only
    by_cases ha : (SparseHeader.ofBytes buf).accepted = true
    · rw [if_neg (not_not.mpr ha), if_pos ha, nullOnErr_ok_iff]
      simp only [Option.mem_some_iff, forall_eq']
      rw [← faultless_readSparse_iff]
      simp [sparseFileRead]
    · rw [if_pos ha, if_neg ha]
      simp

/-- A checksum chunk without a checksum, a raw chunk without a block size, and two fills of
no blocks, one behind the other. -/
theorem import_faults :
    sparseFileImport .trap
        ((⟨sparseHeaderMagic, 1, 0, 28, 12, 4, 0, 1, 0⟩ : SparseHeader).bytes ++
          (⟨chunkTypeCrc32, 0, 0, 16⟩ : ChunkHeader).bytes) 3 0 false = .error .nullDeref ∧
      sparseFileImport .trap
        ((⟨sparseHeaderMagic, 1, 0, 28, 12, 0, 0, 1, 0⟩ : SparseHeader).bytes ++
          (⟨chunkTypeRaw, 0, 0, 12⟩ : ChunkHeader).bytes) 3 0 false = .error .divByZero ∧
      sparseFileImport .trap
        ((⟨sparseHeaderMagic, 1, 0, 28, 12, 4, 0, 2, 0⟩ : SparseHeader).bytes ++
          (⟨chunkTypeFill, 0, 0, 16⟩ : ChunkHeader).bytes ++ [0, 0, 0, 0] ++
          (⟨chunkTypeFill, 0, 0, 16⟩ : ChunkHeader).bytes ++ [0, 0, 0, 0]) 3 0 false =
        .error .assertion := by
  decide +kernel

end SystemCore.Libsparse
