import SystemCore.Libsparse.Rounds
import SystemCore.Libsparse.BlockMap

/-!
# Resparsing partitions the image

A split keeps the order of a list and the map it describes as long as the second part
starts at a 32-bit block number, as it does in a file of at most `2^32` blocks. A call on
such a file leaves the described blocks spread over the files in `out_s` and what stays
behind, each of them once.
-/
namespace SystemCore.Libsparse

open Lib Lib.Segments Lib.CeilDiv BlockMap List

/-- Block numbers do not fall, and every node ends at or before the block of the later
ones. -/
def Ascending (bs : UInt32) (nodes : List BackedBlock) : Prop :=
  nodes.Pairwise fun a b => a.block ≤ b.block ∧ endBlock bs a ≤ b.block.toNat

instance (bs : UInt32) (nodes : List BackedBlock) : Decidable (Ascending bs nodes) :=
  inferInstanceAs (Decidable (nodes.Pairwise _))

theorem le_endBlock (bs : UInt32) (bb : BackedBlock) : bb.block.toNat ≤ endBlock bs bb :=
  Nat.le_add_right _ _

variable {bs : UInt32} {l : List BackedBlock}

theorem ascending_iff {nodes : List BackedBlock} :
    Ascending bs nodes ↔ nodes.Pairwise fun a b => endBlock bs a ≤ b.block.toNat := by
  constructor
  · exact List.Pairwise.imp fun h => h.2
  · exact List.Pairwise.imp fun h =>
      ⟨UInt32.le_iff_toNat_le.mpr ((le_endBlock bs _).trans h), h⟩

/-! ## Splitting a node -/

section Split

variable {bs m : UInt32} {bb : BackedBlock}

theorem alignDown_div (hbs : 0 < bs.toNat) (m : UInt32) :
    (alignDown m bs / bs).toNat = m.toNat / bs.toNat := by
  rw [UInt32.toNat_div, alignDown_toNat, Nat.mul_div_cancel_left _ hbs]

/-- The first part fills its blocks. -/
theorem endBlock_firstPart (hbs : 0 < bs.toNat) (h : alignDown m bs < bb.len) :
    endBlock bs (firstPart bs m bb) = bb.block.toNat + m.toNat / bs.toNat := by
  rw [endBlock, firstPart_block, firstPart_len_of_lt h,
    ceilDiv_of_dvd hbs (alignDown_dvd m bs), alignDown_toNat, Nat.mul_div_cancel_left _ hbs]

/-- The blocks of a node are those of the two parts. -/
theorem endBlock_eq_add (hbs : 0 < bs.toNat) (h : alignDown m bs < bb.len) (addr : Nat) :
    endBlock bs bb = bb.block.toNat + m.toNat / bs.toNat +
      (restPart bs m addr bb).len.toNat ⌈/⌉ bs.toNat := by
  rw [endBlock, ceilDiv_split hbs m (Nat.le_of_lt h : _ ≤ bb.len.toNat), restPart_len h,
    Nat.add_assoc]

theorem restPart_len_pos (h : alignDown m bs < bb.len) (addr : Nat) :
    0 < (restPart bs m addr bb).len.toNat := by
  rw [restPart_len h]
  exact Nat.sub_pos_of_lt h

theorem restPart_block (hbs : 0 < bs.toNat) (m : UInt32) (addr : Nat) (bb : BackedBlock) :
    (restPart bs m addr bb).block.toNat = (bb.block.toNat + m.toNat / bs.toNat) % 2 ^ 32 := by
  rw [restPart, UInt32.toNat_add, alignDown_div hbs]

theorem endBlock_firstPart_le (hbs : 0 < bs.toNat) (m : UInt32) (bb : BackedBlock) :
    endBlock bs (firstPart bs m bb) ≤ endBlock bs bb := by
  by_cases h : alignDown m bs < bb.len
  · rw [endBlock_firstPart hbs h, endBlock_eq_add hbs h 0]
    exact Nat.le_add_right _ _
  · rw [firstPart_of_le (UInt32.not_lt.mp h)]

theorem endBlock_restPart_le (hbs : 0 < bs.toNat) (h : alignDown m bs < bb.len) (addr : Nat) :
    endBlock bs (restPart bs m addr bb) ≤ endBlock bs bb := by
  rw [endBlock, restPart_block hbs, endBlock_eq_add hbs h addr]
  exact Nat.add_le_add_right (Nat.mod_le _ _) _

/-- The second part starts at a block number when the node ends at or below `2^32`. -/
theorem restPart_block_eq (hbs : 0 < bs.toNat) (h : alignDown m bs < bb.len)
    (hend : endBlock bs bb ≤ 2 ^ 32) (addr : Nat) :
    (restPart bs m addr bb).block.toNat = bb.block.toNat + m.toNat / bs.toNat := by
  have hpos := ceilDiv_pos hbs (restPart_len_pos h addr)
  rw [endBlock_eq_add hbs h addr] at hend
  rw [restPart_block hbs, Nat.mod_eq_of_lt (by omega)]

theorem restPart_joins (hbs : 0 < bs.toNat) (h : alignDown m bs < bb.len)
    (hend : endBlock bs bb ≤ 2 ^ 32) (addr : Nat) :
    Seg.Joins (seg bs (firstPart bs m bb)) (seg bs (restPart bs m addr bb)) (seg bs bb) := by
  have hlt : (alignDown m bs).toNat < bb.len.toNat := h
  have hp := endBlock_firstPart hbs h
  have hall := endBlock_eq_add hbs h addr
  have hq := restPart_block_eq hbs h hend addr
  have hM := alignDown_toNat m bs
  have hlen := firstPart_len_of_lt h
  have hsize : (firstPart bs m bb).len.toNat ⌈/⌉ bs.toNat = m.toNat / bs.toNat := by
    rw [endBlock, firstPart_block] at hp
    omega
  have hrest := restPart_len h addr
  constructor
  · simp only [seg, firstPart_block, hsize, hq]
  · simp only [seg, firstPart_block]
  · simp only [seg, hsize]
    rw [endBlock] at hall
    omega
  · intro i hi
    simp only [seg, hsize] at hi
    have hfull : bs.toNat * i + bs.toNat ≤ (alignDown m bs).toNat := by
      rw [hM, ← Nat.mul_succ]
      exact Nat.mul_le_mul_left _ hi
    simp only [seg, firstPart_backing, hlen, BlockContent.mk.injEq, true_and]
    omega
  · intro i _
    have hoff : bs.toNat * (m.toNat / bs.toNat + i) = (alignDown m bs).toNat + bs.toNat * i := by
      rw [Nat.mul_add, hM]
    simp only [seg, hsize, hoff, hrest, BlockContent.mk.injEq]
    refine ⟨?_, by omega⟩
    simp only [restPart, advance_add]

theorem describes_split (hbs : 0 < bs.toNat) (hend : endBlock bs bb ≤ 2 ^ 32) (addr k : Nat)
    (v : BlockContent) : Describes bs (splitBb bs m addr bb) k v ↔ (seg bs bb).Maps k v := by
  rw [splitBb_eq]
  by_cases h : alignDown m bs < bb.len
  · rw [secondPart_of_lt addr h, (restPart_joins hbs h hend addr).union k v]
    simp
  · have hle := UInt32.not_lt.mp h
    rw [firstPart_of_le hle, secondPart_of_le addr hle]
    simp

theorem ascending_split (hbs : 0 < bs.toNat) (hend : endBlock bs bb ≤ 2 ^ 32) (addr : Nat)
    {x y : List BackedBlock} (h : Ascending bs (x ++ bb :: y)) :
    Ascending bs (x ++ (splitBb bs m addr bb ++ y)) := by
  rw [ascending_iff] at h ⊢
  rw [splitBb_eq]
  by_cases hlt : alignDown m bs < bb.len
  · rw [secondPart_of_lt addr hlt]
    have hp := endBlock_firstPart hbs hlt
    have hp' := endBlock_firstPart_le hbs m bb
    have hq := restPart_block_eq hbs hlt hend addr
    have hqe := endBlock_restPart_le hbs hlt addr
    simp only [cons_append, nil_append, pairwise_append, pairwise_cons,
      mem_cons] at h ⊢
    obtain ⟨hx, ⟨hy, hyy⟩, hxy⟩ := h
    refine ⟨hx, ⟨?_, ?_, hyy⟩, ?_⟩
    · rintro n (rfl | hn)
      · omega
      · exact hp'.trans (hy n hn)
    · exact fun n hn => hqe.trans (hy n hn)
    · rintro a ha n (rfl | rfl | hn)
      · rw [firstPart_block]
        exact hxy a ha bb (.inl rfl)
      · rw [hq]
        exact (hxy a ha bb (.inl rfl)).trans (Nat.le_add_right _ _)
      · exact hxy a ha n (.inr hn)
  · have hle := UInt32.not_lt.mp hlt
    rw [firstPart_of_le hle, secondPart_of_le addr hle]
    exact h

/-- No split makes a node end further on. -/
theorem Recut.ends_le (hbs : 0 < bs.toNat) {fresh fresh' k : Nat} {l' : List BackedBlock}
    (h : Recut bs fresh l fresh' l') (hl : ∀ n ∈ l, endBlock bs n ≤ k) :
    ∀ n ∈ l', endBlock bs n ≤ k := by
  refine h.forall_mem (fun m bb hbb => (endBlock_firstPart_le hbs m bb).trans hbb) ?_ hl
  exact fun m bb _ hlt hbb => (endBlock_restPart_le hbs hlt fresh).trans hbb

/-- A split keeps the order and the map of nodes that end at or below `2^32`. -/
theorem Recut.keeps_map (hbs : 0 < bs.toNat) {fresh fresh' : Nat} {l' : List BackedBlock}
    (h : Recut bs fresh l fresh' l') (hends : ∀ n ∈ l, endBlock bs n ≤ 2 ^ 32)
    (ha : Ascending bs l) :
    Ascending bs l' ∧ ∀ k v, Describes bs l' k v ↔ Describes bs l k v := by
  cases h with
  | same _ _ => exact ⟨ha, fun _ _ => Iff.rfl⟩
  | split x bb y m _ =>
    have hend := hends bb (by simp)
    refine ⟨ascending_split hbs hend fresh ha, fun k v => ?_⟩
    have hd := @describes_split bs m bb hbs hend fresh k v
    simp only [describes_append, describes_cons, hd]

/-- A block behind all nodes is not described. -/
theorem not_describes_of_ends_le {k : Nat} (h : ∀ n ∈ l, endBlock bs n ≤ k) (v : BlockContent) :
    ¬ Describes bs l k v := by
  rintro ⟨s, hs, ⟨-, hk⟩, -⟩
  obtain ⟨n, hn, rfl⟩ := mem_map.mp hs
  exact absurd hk (Nat.not_lt.mpr (h n hn))

end Split

/-! ## The rounds -/

/-- The run rule: rounds keep the order and the map. -/
theorem Rounds.keeps_map {env : Env} {bs maxLen : UInt32} {fresh fresh' : Nat}
    {nodes left : List BackedBlock} {ts : List (List BackedBlock)} {failed : Bool}
    (hbs : 0 < bs.toNat) (h : Rounds env bs maxLen fresh nodes ts fresh' left failed)
    (hends : ∀ n ∈ nodes, endBlock bs n ≤ 2 ^ 32) (ha : Ascending bs nodes) :
    Ascending bs (ts.flatten ++ left) ∧
      ∀ k v, Describes bs (ts.flatten ++ left) k v ↔ Describes bs nodes k v := by
  let I (_ : Nat) (l : List BackedBlock) : Prop := (∀ n ∈ l, endBlock bs n ≤ 2 ^ 32) ∧
    Ascending bs l ∧ ∀ k v, Describes bs l k v ↔ Describes bs nodes k v
  have hstep : ∀ {f l f' l'}, Recut bs f l f' l' → I f l → I f' l' := by
    rintro f l f' l' hr ⟨he, hl, hd⟩
    obtain ⟨hl', hd'⟩ := hr.keeps_map hbs he hl
    exact ⟨hr.ends_le hbs he, hl', fun k v => (hd' k v).trans (hd k v)⟩
  exact (h.keeps hstep [] ⟨hends, ha, fun _ _ => Iff.rfl⟩).2

/-! ## The call -/

/-- The lists are in order, no block is described by two of them, and together they
describe what `nodes` does. -/
structure Partition (bs : UInt32) (nodes : List BackedBlock) (lists : List (List BackedBlock)) :
    Prop where
  ascending : ∀ l ∈ lists, Ascending bs l
  disjoint : lists.Pairwise fun l l' => ∀ k v w, Describes bs l k v → ¬ Describes bs l' k w
  union : ∀ k v, (∃ l ∈ lists, Describes bs l k v) ↔ Describes bs nodes k v

theorem describes_flatten (bs : UInt32) (lists : List (List BackedBlock)) (k : Nat)
    (v : BlockContent) : Describes bs lists.flatten k v ↔ ∃ l ∈ lists, Describes bs l k v := by
  induction lists with
  | nil => simp
  | cons l lists ih => simp [ih]

theorem partition_flatten {lists : List (List BackedBlock)} (h : Ascending bs lists.flatten) :
    Partition bs lists.flatten lists := by
  have hp := pairwise_flatten.mp (ascending_iff.mp h)
  refine ⟨fun l hl => ascending_iff.mpr (hp.1 l hl), hp.2.imp ?_,
    fun k v => (describes_flatten bs lists k v).symm⟩
  rintro l l' hll k v w ⟨s, hs, ⟨-, hk⟩, -⟩ ⟨s', hs', ⟨hk', -⟩, -⟩
  obtain ⟨n, hn, rfl⟩ := mem_map.mp hs
  obtain ⟨n', hn', rfl⟩ := mem_map.mp hs'
  exact absurd (hk.trans_le (hll n hn n' hn')) (Nat.not_lt.mpr hk')

theorem spliceAfter_eq_append {start : UInt32} (h : ∀ n ∈ l, n.block ≤ start)
    (seg : List BackedBlock) : spliceAfter start seg l = l ++ seg := by
  induction l with
  | nil => rfl
  | cons bb l ih =>
    cases l with
    | nil => rfl
    | cons n rest =>
      have hn : ¬ start < n.block := UInt32.not_lt.mpr (h n (by simp))
      rw [spliceAfter, if_neg hn, ih fun x hx => h x (by simp [hx])]
      rfl

/-- Lists that follow one another are joined in their order. -/
theorem joinAll_eq (ts : List (List BackedBlock)) :
    ∀ l, Ascending bs (l ++ ts.flatten) → joinAll l ts = l ++ ts.flatten := by
  induction ts with
  | nil => simp [joinAll]
  | cons t ts ih =>
    intro l h
    rw [flatten_cons, ← append_assoc] at h
    have hjoin : joinInto l t = l ++ t := by
      cases t with
      | nil => simp [joinInto]
      | cons hd tl =>
        have hp := (pairwise_append.mp (pairwise_append.mp h).1).2.2
        exact spliceAfter_eq_append (fun n hn => (hp n hn hd (by simp)).1) _
    have hall := ih _ h
    rw [append_assoc] at hall
    rw [flatten_cons, ← hall]
    simp [joinAll, hjoin]

/-- The call returns, and what it stores and what stays behind partition the map of
`in_s`. -/
def Partitions (env : Env) (s : SparseFile) (maxLen : UInt32) (outSCount : Int) (fresh : Nat) :
    Prop :=
  ∃ rounds r, (∀ fuel, rounds ≤ fuel →
      sparseFileResparse env fuel s maxLen outSCount fresh = .ok (some r)) ∧
    r.out.length = min r.c outSCount.toNat ∧
    Partition s.blockSize s.list.dataBlocks ((r.out ++ [r.inS]).map (·.list.dataBlocks))

section Call

variable {env : Env} {s : SparseFile} {maxLen : UInt32} {outSCount : Int} {fresh fresh' : Nat}
  {ts : List (List BackedBlock)} {left : List BackedBlock} {failed : Bool} {r : Resparse}

/-- A block size of zero is divided by. -/
theorem sparseFileResparse_zero (env : Env) (maxLen : UInt32) (outSCount : Int) (fresh fuel : Nat)
    (h : s.blockSize = 0) (r : Resparse) :
    sparseFileResparse env fuel s maxLen outSCount fresh ≠ .ok (some r) := by
  have hround : ∀ x : Resparse, x.inS.blockSize = 0 →
      resparseRound env maxLen outSCount x = .error .divByZero := by
    intro x hx
    simp only [resparseRound, moveChunksUpToLen, sparseFileNew, backedBlockListNew, hx]
    rfl
  cases fuel with
  | zero => simp [sparseFileResparse, resparseLoop]
  | succ fuel =>
    have hfirst := hround ⟨s, sparseFileNew s.blockSize s.len, [], 0, fresh, false⟩ h
    simp [sparseFileResparse, resparseLoop, hfirst]

/-- Everything the call holds in the end has gone through the rounds. -/
theorem Resparsed.perm (h : Resparsed s outSCount ts fresh' left failed r) :
    ((r.out ++ [r.inS]).map (·.list.dataBlocks)).flatten.Perm (ts.flatten ++ left) := by
  have hout : (r.out.map (·.list.dataBlocks)) = ts.take outSCount.toNat := by
    rw [h.out, map_map]
    exact map_id'' (fun _ => rfl) _
  have hin : r.inS.list.dataBlocks.Perm ((ts.drop outSCount.toNat).flatten ++ left) := by
    rw [h.nodes]
    refine (joinInto_perm _ _).trans (perm_append_comm.trans ?_)
    simpa using (joinAll_perm [] (ts.drop outSCount.toNat)).append_right left
  rw [map_append, flatten_append, hout]
  have hall : (ts.take outSCount.toNat).flatten ++ ((ts.drop outSCount.toNat).flatten ++ left) =
      ts.flatten ++ left := by
    rw [← append_assoc, ← flatten_append, take_append_drop]
  rw [← hall]
  simpa using hin.append_left _

/-- With no failed block write, what stays behind is in order. -/
theorem Resparsed.nodes_eq (h : Resparsed s outSCount ts fresh' left false r)
    (hr : Rounds env s.blockSize maxLen fresh s.list.dataBlocks ts fresh' left false)
    (ha : Ascending s.blockSize (ts.flatten ++ left)) :
    r.inS.list.dataBlocks = (ts.drop outSCount.toNat).flatten ++ left := by
  rw [h.nodes]
  rcases hr.left_eq with rfl | ⟨-, rfl, -⟩
  · have hdrop : Ascending s.blockSize ([] ++ (ts.drop outSCount.toNat).flatten) := by
      rw [append_nil, ← take_append_drop outSCount.toNat ts, flatten_append] at ha
      exact (pairwise_append.mp ha).2.1
    rw [joinAll_eq _ _ hdrop, nil_append, append_nil]
    cases (ts.drop outSCount.toNat).flatten <;> rfl
  · cases outSCount.toNat with
    | zero => rfl
    | succ n => simp [joinAll, joinInto]

variable (hbs : 0 < s.blockSize.toNat) (ha : Ascending s.blockSize s.list.dataBlocks)
  (hp : Placed fresh s.list.dataBlocks)

include hbs ha hp in
/-- Rounds without a failed block write make the call partition the map. -/
theorem partitions_of_rounds (hends : ∀ n ∈ s.list.dataBlocks, endBlock s.blockSize n ≤ 2 ^ 32)
    (hr : Rounds env s.blockSize maxLen fresh s.list.dataBlocks ts fresh' left false) :
    Partitions env s maxLen outSCount fresh := by
  obtain ⟨r, hres, hcall⟩ := sparseFileResparse_eq env maxLen outSCount hbs hp hr
  obtain ⟨ho, hd⟩ := hr.keeps_map hbs hends ha
  have hlists : (r.out ++ [r.inS]).map (·.list.dataBlocks) =
      ts.take outSCount.toNat ++ [(ts.drop outSCount.toNat).flatten ++ left] := by
    rw [map_append, hres.out, map_map, map_singleton, hres.nodes_eq hr ho]
    congr 1
    exact map_id'' (fun _ => rfl) _
  have hflat : ((r.out ++ [r.inS]).map (·.list.dataBlocks)).flatten = ts.flatten ++ left := by
    rw [hlists]
    simp only [flatten_append, flatten_singleton]
    rw [← append_assoc, ← flatten_append, take_append_drop]
  have hpart := @partition_flatten s.blockSize ((r.out ++ [r.inS]).map (·.list.dataBlocks))
    (hflat ▸ ho)
  refine ⟨ts.length, r, fun fuel hfuel => by rw [hcall, if_pos hfuel], ?_, hpart.ascending,
    hpart.disjoint, fun k v => ?_⟩
  · rw [hres.out, hres.c, length_map, length_take, Nat.min_comm]
  · rw [hpart.union, hflat]
    exact hd k v

include hbs in
/-- What holds of the result of one run holds of all. -/
theorem holds_of_run (hmax : 80 + s.blockSize.toNat ≤ maxLen.toNat)
    (hp : Placed fresh s.list.dataBlocks) (P : Resparse → Bool) (fuel : Nat)
    (h : (match sparseFileResparse env fuel s maxLen outSCount fresh with
      | .ok (some r) => P r
      | _ => false) = true) : ∀ fuel' r',
      sparseFileResparse env fuel' s maxLen outSCount fresh = .ok (some r') → P r' = true := by
  obtain ⟨ts, fresh', left, failed, r0, -, -, hcall⟩ := exists_resparsed env outSCount hbs hmax hp
  have hf : P r0 = true := by
    rw [hcall] at h
    by_cases hfuel : ts.length ≤ fuel
    · rwa [if_pos hfuel] at h
    · rw [if_neg hfuel] at h
      cases h
  intro fuel' r' h'
  rw [hcall] at h'
  split at h'
  · cases h'
    exact hf
  · cases h'

end Call

/-- When no block write fails, the call partitions the image of a file of at most `2^32`
blocks. -/
theorem resparse_partitions (env : Env) (s : SparseFile) (maxLen : UInt32) (outSCount : Int)
    (fresh : Nat) (h0 : s.blockSize ≠ 0)
    (hends : ∀ bb ∈ s.list.dataBlocks, endBlock s.blockSize bb ≤ 2 ^ 32)
    (ha : Ascending s.blockSize s.list.dataBlocks) (hp : Placed fresh s.list.dataBlocks)
    (hmax : 28 + 4 * 12 + 4 + s.blockSize.toNat ≤ maxLen.toNat)
    (hok : ∀ fuel r, sparseFileResparse env fuel s maxLen outSCount fresh = .ok (some r) →
      r.failed = false) : Partitions env s maxLen outSCount fresh := by
  have hbs := toNat_pos_of_ne h0
  obtain ⟨ts, fresh', left, failed, r, hr, hres, hcall⟩ :=
    exists_resparsed env outSCount hbs hmax hp
  have hf : failed = false := by
    rw [← hres.failed]
    exact hok ts.length r (by rw [hcall, if_pos le_rfl])
  subst hf
  exact partitions_of_rounds hbs ha hp hends hr

/-- Four blocks at block 0 are cut in two and stored. -/
theorem resparse_partitions_four_blocks :
    Partitions zeroEnv ⟨16384, ⟨[⟨0, 0, 16384, .data 0⟩], none, 4096⟩⟩ 8260 2 1 := by
  have hp : Placed 1 [⟨0, 0, 16384, .data 0⟩] := ⟨by decide, by decide⟩
  have hrun := @holds_of_run zeroEnv ⟨16384, ⟨[⟨0, 0, 16384, .data 0⟩], none, 4096⟩⟩ 8260 2 1
    (by decide) (by decide) hp (fun r => !r.failed) 3 (by decide +kernel)
  simp only [Bool.not_eq_true'] at hrun
  exact resparse_partitions zeroEnv _ 8260 2 1 (by decide) (by decide) (by decide) hp (by decide) hrun

/-- Of four blocks at block `2^32 - 2`, the last two move to the front of the image. -/
theorem resparse_moves_wrapped_blocks :
    let s : SparseFile := ⟨17592186052608, ⟨[⟨0, 4294967294, 16384, .data 0⟩], none, 4096⟩⟩
    Ascending s.blockSize s.list.dataBlocks ∧ Placed 1 s.list.dataBlocks ∧
      (∀ fuel r, sparseFileResparse zeroEnv fuel s 8260 2 1 = .ok (some r) → r.failed = false) ∧
      ¬ Partitions zeroEnv s 8260 2 1 := by
  intro s
  have hp : Placed 1 s.list.dataBlocks := ⟨by decide, by decide⟩
  have hrun := @holds_of_run zeroEnv s 8260 2 1 (by decide) (by decide) hp
    (fun r => !r.failed && (r.out ++ [r.inS]).all fun f =>
      f.list.dataBlocks.all fun n => decide (endBlock 4096 n ≤ 2 ^ 32)) 3 (by decide +kernel)
  simp only [Bool.and_eq_true, Bool.not_eq_true', all_eq_true, decide_eq_true_eq] at hrun
  refine ⟨by decide, hp, fun fuel r hr => (hrun fuel r hr).1, ?_⟩
  rintro ⟨n, r, hret, -, hpart⟩
  -- block 2^32 is described by the node and by none of the files
  have hblock : Describes 4096 s.list.dataBlocks (2 ^ 32) ⟨.data 8192, 4096⟩ :=
    ⟨_, mem_singleton.mpr rfl, ⟨by decide, by decide⟩, rfl⟩
  obtain ⟨l, hl, hd⟩ := (hpart.union _ _).mpr hblock
  obtain ⟨file, hfile, rfl⟩ := mem_map.mp hl
  exact not_describes_of_ends_le ((hrun n r (hret n le_rfl)).2 file hfile) _ hd

end SystemCore.Libsparse
