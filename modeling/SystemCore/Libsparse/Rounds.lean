import SystemCore.Libsparse.Cutting
import SystemCore.Libsparse.Layout
import SystemCore.Lib.Runs

/-!
# The rounds of sparse_file_resparse

Every round takes nodes from the front of what is left, and splits at most one node to
do so. `Rounds` lists what the rounds take; it says which files the call stores, what
it puts back, and that it returns at all.
-/
namespace SystemCore.Libsparse

open Lib.CeilDiv Lib.Runs List

/-! ## One round -/

/-- The list `l'` is `l` with at most one node split in its place, at an address that
was new. -/
inductive Recut (bs : UInt32) : Nat → List BackedBlock → Nat → List BackedBlock → Prop
  | same {fresh fresh' : Nat} (l : List BackedBlock) (h : fresh ≤ fresh') : Recut bs fresh l fresh' l
  | split {fresh fresh' : Nat} (x : List BackedBlock) (bb : BackedBlock) (y : List BackedBlock)
      (maxLen : UInt32) (h : fresh < fresh') :
      Recut bs fresh (x ++ bb :: y) fresh' (x ++ (splitBb bs maxLen fresh bb ++ y))

section Recut

variable {bs : UInt32} {fresh fresh' : Nat} {l l' : List BackedBlock}

theorem Recut.prepend (h : Recut bs fresh l fresh' l') (pre : List BackedBlock) :
    Recut bs fresh (pre ++ l) fresh' (pre ++ l') := by
  cases h with
  | same _ hf => exact .same _ hf
  | split x bb y maxLen hf =>
    rw [← append_assoc, ← append_assoc]
    exact .split _ bb y maxLen hf

theorem Recut.fresh_le (h : Recut bs fresh l fresh' l') : fresh ≤ fresh' := by
  cases h with
  | same _ hf => exact hf
  | split _ _ _ _ hf => exact hf.le

/-- What both parts of a node have from it, all nodes have. -/
theorem Recut.forall_mem {P : BackedBlock → Prop} (h : Recut bs fresh l fresh' l')
    (hfirst : ∀ m bb, P bb → P (firstPart bs m bb))
    (hrest : ∀ m bb, fresh < fresh' → alignDown m bs < bb.len → P bb → P (restPart bs m fresh bb))
    (hl : ∀ n ∈ l, P n) : ∀ n ∈ l', P n := by
  cases h with
  | same _ _ => exact hl
  | split x bb y m hf =>
    simp only [splitBb_eq, forall_mem_append, forall_mem_cons] at hl ⊢
    refine ⟨hl.1, ⟨hfirst m bb hl.2.1, fun n hn => ?_⟩, hl.2.2⟩
    obtain ⟨hlt, rfl⟩ := mem_secondPart.mp hn
    exact hrest m bb hf hlt hl.2.1

/-- The parts of a node keep its address or have the new one. -/
theorem Recut.placed (h : Recut bs fresh l fresh' l') (hp : Placed fresh l) : Placed fresh' l' where
  old := by
    refine h.forall_mem (fun m bb hbb => ?_) (fun _ _ hf _ _ => hf) fun n hn =>
      (hp.old n hn).trans_le h.fresh_le
    rwa [firstPart_addr]
  nodup := by
    cases h with
    | same _ _ => exact hp.nodup
    | split x bb y m _ =>
      have hnew : fresh ∉ (x ++ bb :: y).map (·.addr) := by
        rintro hmem
        obtain ⟨n, hn, he⟩ := mem_map.mp hmem
        exact absurd (hp.old n hn) (by omega)
      have hnodup := hp.nodup
      rw [splitBb_eq, secondPart]
      split
      · simpa using hnodup
      · rw [cons_append, append_cons, singleton_append, map_append,
          map_cons, nodup_middle, nodup_cons, ← map_append]
        simpa using And.intro hnew hnodup

end Recut

/-- How a round ends: at a node that cannot be read, with a counter that does not open, with all
nodes, in a node that is cut, or in front of one that does not fit. -/
inductive Round (env : Env) (bs maxLen : UInt32) (fresh : Nat) (nodes : List BackedBlock) :
    Outcome → Prop
  | failed {bb : BackedBlock} (hp : pack env bs (maxLen - 56) [] nodes = .failed)
      (hbb : bb ∈ nodes) (hr : readable env bb = false) :
      Round env bs maxLen fresh nodes ⟨[], nodes, fresh, false, true⟩
  | closed (h : 2 ^ 31 ≤ bs.toNat) : Round env bs maxLen fresh nodes ⟨[], nodes, fresh, false, false⟩
  | whole (h : Walked env bs (maxLen - 56) nodes) :
      Round env bs maxLen fresh nodes ⟨nodes, [], fresh + 1, false, false⟩
  | cut {a b : List BackedBlock} {bb : BackedBlock} {room : Int}
      (h : CutAt env bs (maxLen - 56) nodes a bb b room) :
      Round env bs maxLen fresh nodes ⟨a ++ [firstPart bs (lowWord room) bb],
        secondPart bs (lowWord room) fresh bb ++ b, fresh + 1, true, false⟩
  | stop {a b : List BackedBlock} {bb : BackedBlock} (h : Meets env bs (maxLen - 56) nodes a bb b)
      (hc : cuts env bs (maxLen - 56) a = false) :
      Round env bs maxLen fresh nodes ⟨a, bb :: b, fresh + 1, true, false⟩

section Round

variable {env : Env} {bs maxLen : UInt32} {fresh fresh' : Nat} {nodes t rest : List BackedBlock}
  {more failed : Bool}

theorem round_of_eq {o : Outcome} (h : roundOf env bs maxLen fresh nodes = o) :
    Round env bs maxLen fresh nodes o := by
  subst h
  by_cases hbs : bs.toNat < 2 ^ 31
  · rcases pack_cases env bs (maxLen - 56) nodes with ⟨hp, bb, hbb, hr⟩ | ⟨-, h⟩ | ⟨a, bb, b, -, h⟩
    · rw [roundOf, if_pos hbs, hp]
      exact .failed hp hbb hr
    · rw [h.roundOf_eq hbs]
      exact .whole h
    · cases hc : cuts env bs (maxLen - 56) a with
      | true =>
        have hcut : CutAt env bs (maxLen - 56) nodes a bb b _ := ⟨h, hc, rfl⟩
        rw [hcut.roundOf_eq hbs]
        exact .cut hcut
      | false =>
        rw [h.roundOf_eq hbs hc]
        exact .stop h hc
  · rw [roundOf, if_neg hbs]
    exact .closed (Nat.le_of_not_lt hbs)

/-- A round takes the front of the list and leaves the back, but for one split. -/
theorem Round.recut (h : Round env bs maxLen fresh nodes ⟨t, rest, fresh', more, failed⟩) :
    Recut bs fresh nodes fresh' (t ++ rest) := by
  cases h with
  | failed => exact .same nodes le_rfl
  | closed => exact .same nodes le_rfl
  | whole =>
    rw [append_nil]
    exact .same nodes (Nat.le_succ _)
  | @cut a b bb room h =>
    rw [h.nodes_eq]
    have hs : Recut bs fresh _ (fresh + 1) _ :=
      .split a bb b (lowWord room) (Nat.lt_succ_self fresh)
    rw [splitBb_eq] at hs
    simpa using hs
  | stop h =>
    rw [h.nodes_eq]
    exact .same _ (Nat.le_succ _)

/-- Blocks and nodes that are left to go through. -/
def weight (bs : UInt32) (nodes : List BackedBlock) : Nat :=
  (nodes.map fun bb => bb.len.toNat ⌈/⌉ bs.toNat + 1).sum

theorem weight_append (bs : UInt32) (l l' : List BackedBlock) :
    weight bs (l ++ l') = weight bs l + weight bs l' := by
  simp [weight]

theorem weight_cons (bs : UInt32) (bb : BackedBlock) (l : List BackedBlock) :
    weight bs (bb :: l) = bb.len.toNat ⌈/⌉ bs.toNat + 1 + weight bs l := by
  simp [weight]

theorem weight_pos {l : List BackedBlock} (h : l ≠ []) : 0 < weight bs l := by
  cases l with
  | nil => exact absurd rfl h
  | cons bb l =>
    rw [weight_cons]
    omega

/-- A split leaves the blocks behind the first part. -/
theorem ceilDiv_split (hbs : 0 < bs.toNat) (m : UInt32) {len : Nat}
    (h : (alignDown m bs).toNat ≤ len) : len ⌈/⌉ bs.toNat =
      m.toNat / bs.toNat + (len - (alignDown m bs).toNat) ⌈/⌉ bs.toNat := by
  rw [alignDown_toNat] at h ⊢
  rw [← ceilDiv_mul_add hbs, Nat.add_sub_cancel' h]

theorem weight_secondPart (hbs : 0 < bs.toNat) (m : UInt32) (fresh : Nat) (bb : BackedBlock) :
    weight bs (secondPart bs m fresh bb) = 0 ∨
      weight bs (secondPart bs m fresh bb) + m.toNat / bs.toNat =
        bb.len.toNat ⌈/⌉ bs.toNat + 1 := by
  unfold secondPart
  split
  · exact .inl rfl
  · rename_i h
    have hle : alignDown m bs ≤ bb.len := UInt32.le_of_lt (UInt32.not_le.mp h)
    refine .inr ?_
    have hdiv := @ceilDiv_split bs hbs m bb.len.toNat hle
    rw [weight_cons, restPart, UInt32.toNat_sub_of_le _ _ hle, hdiv]
    simp only [weight, map_nil, sum_nil]
    omega

/-- The room in an empty file. -/
theorem roomOf_nil (hmax : 80 + bs.toNat ≤ maxLen.toNat) :
    (maxLen - 56).toNat = maxLen.toNat - 56 ∧
      roomOf env bs (maxLen - 56) [] = ((maxLen.toNat - 68 : Nat) : Int) := by
  have hsub : (maxLen - 56).toNat = maxLen.toNat - 56 :=
    UInt32.toNat_sub_of_le _ _ (UInt32.le_iff_toNat_le.mpr (by simp; omega))
  refine ⟨hsub, ?_⟩
  simp only [roomOf, hsub, countOf]
  omega

/-- A round that returns a block has made way. -/
theorem Round.weight_lt (hbs : 0 < bs.toNat) (hmax : 80 + bs.toNat ≤ maxLen.toNat)
    (h : Round env bs maxLen fresh nodes ⟨t, rest, fresh', true, failed⟩) :
    weight bs rest < weight bs nodes := by
  cases h with
  | @cut a b bb room h =>
    rw [h.nodes_eq, weight_append, weight_append, weight_cons]
    have hw := weight_secondPart hbs (lowWord room) fresh bb
    rcases eq_or_ne a [] with rfl | ha
    · -- the room of an empty file is at least a block
      obtain ⟨hsub, hnil⟩ := @roomOf_nil env bs maxLen hmax
      have hone : 1 ≤ (lowWord room).toNat / bs.toNat := by
        rw [← h.room_eq, hnil, lowWord_natCast,
          Nat.mod_eq_of_lt (by have := maxLen.toNat_lt; omega)]
        exact (Nat.one_le_div_iff hbs).mpr (by omega)
      omega
    · have hpos := @weight_pos bs a ha
      generalize (lowWord room).toNat / bs.toNat = j at hw
      omega
  | stop h hc =>
    rw [h.nodes_eq, weight_append]
    have ht : t ≠ [] := by
      rintro rfl
      simp [cuts] at hc
    exact Nat.lt_add_of_pos_left (weight_pos ht)

end Round

/-! ## All rounds -/

/-- From `nodes` on, the rounds take the lists `ts`, and the last one ends with `left`
and the next address `fresh'`; `failed` says that a block write stopped it. -/
inductive Rounds (env : Env) (bs maxLen : UInt32) : Nat → List BackedBlock →
    List (List BackedBlock) → Nat → List BackedBlock → Bool → Prop
  | last {fresh fresh' : Nat} {nodes t left : List BackedBlock} {failed : Bool}
      (h : roundOf env bs maxLen fresh nodes = ⟨t, left, fresh', false, failed⟩) :
      Rounds env bs maxLen fresh nodes [t] fresh' left failed
  | next {fresh fresh₁ fresh' : Nat} {nodes t rest left : List BackedBlock}
      {ts : List (List BackedBlock)} {failed : Bool}
      (h : roundOf env bs maxLen fresh nodes = ⟨t, rest, fresh₁, true, false⟩)
      (hrest : Rounds env bs maxLen fresh₁ rest ts fresh' left failed) :
      Rounds env bs maxLen fresh nodes (t :: ts) fresh' left failed

section Run

variable {env : Env} {bs maxLen : UInt32} {fresh fresh' : Nat} {nodes left : List BackedBlock}
  {ts : List (List BackedBlock)} {failed : Bool}

theorem exists_rounds (env : Env) (hbs : 0 < bs.toNat) (hmax : 80 + bs.toNat ≤ maxLen.toNat)
    (fresh : Nat) (nodes : List BackedBlock) :
    ∃ ts fresh' left failed, Rounds env bs maxLen fresh nodes ts fresh' left failed := by
  induction hn : weight bs nodes using Nat.strong_induction_on generalizing fresh nodes with
  | h n ih =>
    rcases ho : roundOf env bs maxLen fresh nodes with ⟨t, rest, fresh₁, more, failed⟩
    have hround := round_of_eq ho
    cases more with
    | false => exact ⟨_, _, _, _, .last ho⟩
    | true =>
      have hlt := hround.weight_lt hbs hmax
      rw [hn] at hlt
      obtain ⟨ts, fresh', left, f, h⟩ := ih _ hlt fresh₁ rest rfl
      obtain rfl : failed = false := by cases hround <;> rfl
      exact ⟨_, _, _, _, .next ho h⟩

/-- What a split keeps about a whole list, the rounds keep. -/
theorem Rounds.keeps {I : Nat → List BackedBlock → Prop}
    (hI : ∀ {f l f' l'}, Recut bs f l f' l' → I f l → I f' l')
    (h : Rounds env bs maxLen fresh nodes ts fresh' left failed) :
    ∀ pre, I fresh (pre ++ nodes) → I fresh' (pre ++ (ts.flatten ++ left)) := by
  induction h with
  | last ho =>
    intro pre hp
    simpa using hI ((round_of_eq ho).recut.prepend pre) hp
  | next ho hrest ih =>
    intro pre hp
    have hq := hI ((round_of_eq ho).recut.prepend pre) hp
    rw [← append_assoc] at hq
    simpa using ih _ hq

/-- All nodes have been taken when no block write failed, unless nothing was. -/
theorem Rounds.left_eq (h : Rounds env bs maxLen fresh nodes ts fresh' left false) :
    left = [] ∨ 2 ^ 31 ≤ bs.toNat ∧ ts = [[]] ∧ left = nodes := by
  generalize hf : false = failed at h
  induction h with
  | last ho =>
    subst hf
    have hround := round_of_eq ho
    cases hround with
    | closed hb => exact .inr ⟨hb, rfl, rfl⟩
    | whole => exact .inl rfl
  | next ho hrest ih =>
    rcases ih hf with h | ⟨hb, -, -⟩
    · exact .inl h
    · -- a counter that does not open ends the first round
      rw [roundOf, if_neg (Nat.not_lt.mpr hb)] at ho
      cases ho

end Run

/-- One round on the next address and the nodes, for as long as it returns a block. -/
def roundStep (env : Env) (bs maxLen : UInt32) (st : Nat × List BackedBlock) (_ : Unit) :
    Except Unit (Nat × List BackedBlock) :=
  if (roundOf env bs maxLen st.1 st.2).more then
    .ok ((roundOf env bs maxLen st.1 st.2).fresh, (roundOf env bs maxLen st.1 st.2).left)
  else .error ()

/-- The first `n` rounds start on nodes that meet `P`. -/
def InRounds (env : Env) (bs maxLen : UInt32) (P : List BackedBlock → Prop) (n fresh : Nat)
    (nodes : List BackedBlock) : Prop :=
  Along (roundStep env bs maxLen) (fun st _ => P st.2) (fresh, nodes) (List.replicate n ())

theorem inRounds_succ (env : Env) (bs maxLen : UInt32) (P : List BackedBlock → Prop) (n fresh : Nat)
    (nodes : List BackedBlock) : InRounds env bs maxLen P (n + 1) fresh nodes ↔
      P nodes ∧ ((roundOf env bs maxLen fresh nodes).more = true →
        InRounds env bs maxLen P n (roundOf env bs maxLen fresh nodes).fresh
          (roundOf env bs maxLen fresh nodes).left) := by
  simp only [InRounds, replicate_succ, Along, roundStep]
  cases (roundOf env bs maxLen fresh nodes).more <;> simp

/-! ## The loop -/

/-- `backed_block_list_move` of a whole list `seg` into the list `l`. -/
def joinInto (l : List BackedBlock) : List BackedBlock → List BackedBlock
  | [] => l
  | hd :: tl => spliceAfter hd.block (hd :: tl) l

/-- The lists `ts` moved into `l` one after the other. -/
def joinAll (l : List BackedBlock) (ts : List (List BackedBlock)) : List BackedBlock :=
  ts.foldl joinInto l

theorem joinInto_perm (l seg : List BackedBlock) : (joinInto l seg).Perm (l ++ seg) := by
  cases seg with
  | nil => simp [joinInto]
  | cons hd tl => exact (spliceAfter_perm _ _ _).trans perm_append_comm

theorem joinAll_perm (l : List BackedBlock) (ts : List (List BackedBlock)) :
    (joinAll l ts).Perm (l ++ ts.flatten) := by
  induction ts generalizing l with
  | nil => simp [joinAll]
  | cons t ts ih =>
    have h := (ih (joinInto l t)).trans ((joinInto_perm l t).append_right ts.flatten)
    simpa [joinAll] using h

theorem backedBlockListMove_all (seg l : List BackedBlock) (lu lu' : Option Nat) (bs : UInt32) :
    ∃ src lu'', backedBlockListMove ⟨seg, lu, bs⟩ ⟨l, lu', bs⟩ none none =
      .ok (src, ⟨joinInto l seg, lu'', bs⟩) ∧ (lu' = none → lu'' = none) := by
  cases seg with
  | nil => exact ⟨_, lu', rfl, id⟩
  | cons hd tl => exact ⟨_, none, rfl, fun _ => rfl⟩

/-- A state of the loop, in terms of its lists. -/
def stateOf (L : Int) (bs : UInt32) (lu : Option Nat) (nodes tmp : List BackedBlock)
    (outs : List (List BackedBlock)) (c fresh : Nat) (failed : Bool) : Resparse :=
  ⟨⟨L, ⟨nodes, lu, bs⟩⟩, fileOf L bs tmp, outs.map (fileOf L bs), c, fresh, failed⟩

variable {s : SparseFile} {ts : List (List BackedBlock)} {fresh fresh' : Nat} {maxLen : UInt32}

section Loop

variable (env : Env) {bs : UInt32} (maxLen : UInt32) (L outSCount : Int)

theorem resparseRound_eq (hbs : 0 < bs.toNat) {nodes : List BackedBlock}
    (hp : (nodes.map (·.addr)).Nodup) (lu : Option Nat) (tmp : List BackedBlock)
    (outs : List (List BackedBlock)) (c fresh : Nat) (failed : Bool) :
    ∃ lu', resparseRound env maxLen outSCount (stateOf L bs lu nodes tmp outs c fresh failed) =
      .ok (stateOf L bs lu' (roundOf env bs maxLen fresh nodes).left
        (if c < outSCount then tmp else joinInto tmp (roundOf env bs maxLen fresh nodes).taken)
        (if c < outSCount then outs ++ [(roundOf env bs maxLen fresh nodes).taken] else outs)
        (c + 1) (roundOf env bs maxLen fresh nodes).fresh
        (failed || (roundOf env bs maxLen fresh nodes).failed),
        (roundOf env bs maxLen fresh nodes).more) := by
  obtain ⟨lu', hmove⟩ := moveChunksUpToLen_eq env hbs L lu maxLen fresh hp
  refine ⟨lu', ?_⟩
  simp only [resparseRound, stateOf, hmove]
  by_cases hc : (c : Int) < outSCount
  · simp only [hc, if_true, map_append]
    rfl
  · obtain ⟨src, lu'', hjoin, hlu⟩ := backedBlockListMove_all
      (roundOf env bs maxLen fresh nodes).taken tmp none none bs
    obtain rfl := hlu rfl
    simp only [hc, if_false, fileOf, hjoin]

/-- The loop goes through the rounds, and stores the lists until `out_s` is full. -/
theorem resparseLoop_eq (hbs : 0 < bs.toNat) {nodes left : List BackedBlock} {f : Bool}
    (h : Rounds env bs maxLen fresh nodes ts fresh' left f) (hp : Placed fresh nodes) :
    ∀ (lu : Option Nat) (tmp : List BackedBlock) (outs : List (List BackedBlock)) (c : Nat)
      (failed : Bool), ∃ lu', ∀ fuel,
      resparseLoop env maxLen outSCount fuel (stateOf L bs lu nodes tmp outs c fresh failed) =
        if ts.length ≤ fuel then
          .ok (some (stateOf L bs lu' left (joinAll tmp (ts.drop (outSCount - c).toNat))
            (outs ++ ts.take (outSCount - c).toNat) (c + ts.length) fresh' (failed || f)))
        else .ok none := by
  induction h with
  | last ho =>
    intro lu tmp outs c failed
    obtain ⟨lu', hr⟩ := resparseRound_eq env maxLen L outSCount hbs hp.nodup lu tmp outs c _ failed
    rw [ho] at hr
    refine ⟨lu', fun fuel => ?_⟩
    cases fuel with
    | zero => rfl
    | succ fuel =>
      simp only [resparseLoop, hr, length_singleton]
      by_cases hc : (c : Int) < outSCount
      · obtain ⟨k, hk⟩ : ∃ k, (outSCount - c).toNat = k + 1 :=
          ⟨(outSCount - c).toNat - 1, by omega⟩
        simp [hc, hk, joinAll]
      · have hk : (outSCount - c).toNat = 0 := by omega
        simp [hc, hk, joinAll]
  | @next _ fresh₁ _ _ t rest _ _ _ ho hrest ih =>
    intro lu tmp outs c failed
    obtain ⟨lu', hr⟩ := resparseRound_eq env maxLen L outSCount hbs hp.nodup lu tmp outs c _ failed
    have hp' := (round_of_eq ho).recut.placed hp
    have hleft : Placed fresh₁ rest := ⟨hp'.nodup.sublist ((sublist_append_right _ _).map _),
      fun n hn => hp'.old n (mem_append_right _ hn)⟩
    rw [ho, Bool.or_false] at hr
    obtain ⟨lu'', hloop⟩ := ih hleft lu' (if c < outSCount then tmp else joinInto tmp t)
      (if c < outSCount then outs ++ [t] else outs) (c + 1) failed
    refine ⟨lu'', fun fuel => ?_⟩
    cases fuel with
    | zero => rfl
    | succ fuel =>
      simp only [resparseLoop, hr, hloop, length_cons, Nat.add_le_add_iff_right]
      congr 3
      by_cases hc : (c : Int) < outSCount
      · have hk : (outSCount - c).toNat = (outSCount - ((c : Int) + 1)).toNat + 1 := by omega
        simp [hc, hk, Nat.add_comm 1, Nat.add_assoc]
      · have hk : (outSCount - c).toNat = 0 := by omega
        have hk' : (outSCount - ((c : Int) + 1)).toNat = 0 := by omega
        simp [hc, hk, hk', joinAll, Nat.add_comm 1, Nat.add_assoc]

end Loop

/-- The result of a call whose rounds took `ts`. -/
structure Resparsed (s : SparseFile) (outSCount : Int) (ts : List (List BackedBlock)) (fresh : Nat)
    (left : List BackedBlock) (failed : Bool) (r : Resparse) : Prop where
  c : r.c = ts.length
  out : r.out = (ts.take outSCount.toNat).map (fileOf s.len s.blockSize)
  nodes : r.inS.list.dataBlocks = joinInto left (joinAll [] (ts.drop outSCount.toNat))
  len : r.inS.len = s.len
  blockSize : r.inS.blockSize = s.blockSize
  fresh : r.fresh = fresh
  failed : r.failed = failed

/-- `sparse_file_resparse` returns after its rounds, and after no fewer. -/
theorem sparseFileResparse_eq (env : Env) (maxLen : UInt32) (outSCount : Int)
    {left : List BackedBlock} {failed : Bool} (hbs : 0 < s.blockSize.toNat)
    (hp : Placed fresh s.list.dataBlocks)
    (h : Rounds env s.blockSize maxLen fresh s.list.dataBlocks ts fresh' left failed) :
    ∃ r, Resparsed s outSCount ts fresh' left failed r ∧ ∀ fuel,
      sparseFileResparse env fuel s maxLen outSCount fresh =
        if ts.length ≤ fuel then .ok (some r) else .ok none := by
  obtain ⟨lu, hloop⟩ := resparseLoop_eq env maxLen s.len outSCount hbs h hp s.list.lastUsed [] [] 0
    false
  obtain ⟨src, lu', hjoin, -⟩ := backedBlockListMove_all (joinAll [] (ts.drop outSCount.toNat)) left
    none lu s.blockSize
  refine ⟨⟨⟨s.len, ⟨joinInto left (joinAll [] (ts.drop outSCount.toNat)), lu', s.blockSize⟩⟩,
    fileOf s.len s.blockSize (joinAll [] (ts.drop outSCount.toNat)),
    (ts.take outSCount.toNat).map (fileOf s.len s.blockSize), ts.length, fresh', failed⟩,
    ⟨rfl, rfl, rfl, rfl, rfl, rfl, rfl⟩, fun fuel => ?_⟩
  have hstart : (⟨s, sparseFileNew s.blockSize s.len, [], 0, fresh, false⟩ : Resparse) =
      stateOf s.len s.blockSize s.list.lastUsed s.list.dataBlocks [] [] 0 fresh false := rfl
  rw [sparseFileResparse, hstart, hloop]
  by_cases hfuel : ts.length ≤ fuel
  · rw [if_pos hfuel, if_pos hfuel]
    simp only [stateOf, fileOf, Int.natCast_zero, Int.sub_zero, hjoin]
    simp
  · rw [if_neg hfuel, if_neg hfuel]

/-- Every call returns, after rounds that `Rounds` describes. -/
theorem exists_resparsed (env : Env) (outSCount : Int) (hbs : 0 < s.blockSize.toNat)
    (hmax : 80 + s.blockSize.toNat ≤ maxLen.toNat) (hp : Placed fresh s.list.dataBlocks) :
    ∃ ts fresh' left failed r,
      Rounds env s.blockSize maxLen fresh s.list.dataBlocks ts fresh' left failed ∧
      Resparsed s outSCount ts fresh' left failed r ∧ ∀ fuel,
        sparseFileResparse env fuel s maxLen outSCount fresh =
          if ts.length ≤ fuel then .ok (some r) else .ok none := by
  obtain ⟨ts, fresh', left, failed, h⟩ := exists_rounds env hbs hmax fresh s.list.dataBlocks
  obtain ⟨r, hr, hcall⟩ := sparseFileResparse_eq env maxLen outSCount hbs hp h
  exact ⟨ts, fresh', left, failed, r, h, hr, hcall⟩

end SystemCore.Libsparse
