import SystemCore.Libsparse.ResparseSize

/-!
# Counting the files first

`load_sparse_files` resparses once to count the files and once more to store them. The
first pass leaves its cuts in the list, and the second takes the same nodes again: a part
that was cut to the room either does not fit again, and is taken whole, or leaves less
than a block. A node that cannot be read is moved by neither pass.
-/
namespace SystemCore.Libsparse

open Lib.CeilDiv BlockMap List

/-! ## The parts of a node -/

section Parts

variable {env : Env} {bs m : UInt32} {bb : BackedBlock}

/-- A length below `2^31` is mapped with what lies before it in its page. -/
theorem mappable_iff {file : Option (Nat → UInt8)} {len : UInt32} {offset : Int}
    (hlen : len.toNat < 2 ^ 31) : mappable file len offset = true ↔ file.isSome = true ∧
      0 ≤ offset ∧ 0 < len.toNat + offset % 4096 ∧ len.toNat + offset % 4096 < 2 ^ 31 := by
  have h0 : 0 ≤ offset % 4096 := Int.emod_nonneg _ (by decide)
  have h1 : offset % 4096 < 4096 := Int.emod_lt_of_pos _ (by decide)
  have hword := lowWord_toNat h0 (by omega)
  have hsum : ((len + lowWord (offset % 4096)).toNat : Int) = len.toNat + offset % 4096 := by
    rw [UInt32.toNat_add]
    omega
  simp only [mappable, Bool.and_eq_true, decide_eq_true_eq]
  refine and_congr_right fun _ => ?_
  unfold toInt
  have := (len + lowWord (offset % 4096)).toNat_lt
  split <;> omega

/-- A fill, or data short enough to be counted as it is. -/
def Countable (bb : BackedBlock) : Prop :=
  bb.backing.type = .fill ∨ bb.backing.type ≠ .fill ∧ bb.len.toNat < 2 ^ 31

variable (hr : readable env bb = true) (hc : Countable bb)
  (hpos : 0 < (alignDown m bs).toNat) (hlt : alignDown m bs < bb.len)

include hr hc in
/-- A part of a node can be read when the node can: it starts no later in its page than the
node, moved on by what lies before the part. -/
theorem readable_part {part : BackedBlock} {d : Nat} (hback : part.backing = bb.backing.advance d)
    (hpos : 0 < part.len.toNat) (hlen : d + part.len.toNat ≤ bb.len.toNat) :
    readable env part = true := by
  have hmap : ∀ {file : Option (Nat → UInt8)} {o : Int}, bb.len.toNat < 2 ^ 31 →
      mappable file bb.len o = true → mappable file part.len (o + d) = true := by
    intro file o hsmall h
    rw [mappable_iff hsmall] at h
    rw [mappable_iff (by omega)]
    have := Int.emod_nonneg (o + d) (by decide : (4096 : Int) ≠ 0)
    exact ⟨h.1, by omega, by omega, by omega⟩
  unfold readable at hr ⊢
  rw [hback]
  rcases hc with hc | ⟨-, hsmall⟩
  · cases hb : bb.backing <;> rw [hb] at hc <;> first | rfl | cases hc
  · cases hb : bb.backing <;> rw [hb] at hr <;> first | rfl | exact hmap hsmall hr

include hr hc hpos in
/-- What is kept of a node can be read when the node can. -/
theorem firstPart_readable : readable env (firstPart bs m bb) = true := by
  by_cases hle : bb.len ≤ alignDown m bs
  · rwa [firstPart_of_le hle]
  · have hlt : alignDown m bs < bb.len := UInt32.not_le.mp hle
    have hlen := firstPart_len_of_lt hlt
    refine readable_part (d := 0) hr hc ?_ (hlen ▸ hpos) ?_
    · rw [firstPart_backing]
      cases bb.backing <;> simp [Backing.advance]
    · rw [hlen, Nat.zero_add]
      exact Nat.le_of_lt hlt

include hr hc hlt in
theorem restPart_readable (addr : Nat) : readable env (restPart bs m addr bb) = true := by
  have hlt' : (alignDown m bs).toNat < bb.len.toNat := hlt
  refine readable_part hr hc rfl (restPart_len_pos hlt addr) ?_
  rw [restPart_len hlt]
  omega

/-- Whole blocks of data that can be read and are counted as they are. -/
structure Solid (env : Env) (bs : UInt32) (bb : BackedBlock) : Prop where
  readable : readable env bb = true
  data : bb.backing.type ≠ .fill
  small : bb.len.toNat < 2 ^ 31
  aligned : bs.toNat ∣ bb.len.toNat
  pos : 0 < bb.len.toNat

variable (h : Solid env bs bb)

include h

theorem Solid.count (hbs : 0 < bs.toNat) (hbs' : bs.toNat < 2 ^ 31) :
    nodeCount env bs bb = 12 + (bb.len.toNat : Int) := by
  rw [nodeCount_data h.data, payload_of_lt hbs hbs' h.aligned h.small]

include hpos in
theorem Solid.firstPart : Solid env bs (firstPart bs m bb) where
  readable := firstPart_readable h.readable (.inr ⟨h.data, h.small⟩) hpos
  data := by
    rw [firstPart_backing]
    exact h.data
  small := by
    rw [firstPart_len]
    exact (Nat.min_le_left _ _).trans_lt h.small
  aligned := firstPart_aligned h.aligned m
  pos := by
    rw [firstPart_len]
    exact lt_min h.pos hpos

include hlt in
theorem Solid.restPart (addr : Nat) : Solid env bs (restPart bs m addr bb) where
  readable := restPart_readable h.readable (.inr ⟨h.data, h.small⟩) hlt addr
  data := by
    have hdata := h.data
    change (bb.backing.advance _).type ≠ .fill
    cases hb : bb.backing <;> rw [hb] at hdata
    all_goals first | exact absurd rfl hdata | exact fun h => by cases h
  small := by
    rw [restPart_len hlt]
    exact (Nat.sub_le _ _).trans_lt h.small
  aligned := restPart_aligned h.aligned hlt addr
  pos := restPart_len_pos hlt addr

end Parts

/-! ## The room of a cut -/

section Cut

variable {env : Env} {bs maxLen : UInt32} {nodes a b : List BackedBlock} {bb : BackedBlock}
  {room : Int}

theorem blockSize_lt (hmax : 16 * bs.toNat + 128 ≤ maxLen.toNat) : bs.toNat < 2 ^ 31 := by
  have := maxLen.toNat_lt
  omega

theorem len_toNat (hmax : 16 * bs.toNat + 128 ≤ maxLen.toNat) :
    (maxLen - 56).toNat = maxLen.toNat - 56 :=
  (@roomOf_nil zeroEnv bs maxLen (by omega)).1

/-- A node is cut where there is room for two blocks, and is counted as it is. -/
theorem CutAt.roomy (hbs : 0 < bs.toNat) (hmax : 16 * bs.toNat + 128 ≤ maxLen.toNat)
    (hal : Aligned bs nodes) (h : CutAt env bs (maxLen - 56) nodes a bb b room) :
    Countable bb ∧ room < (alignDown (lowWord room) bs).toNat + bs.toNat ∧
      0 < (alignDown (lowWord room) bs).toNat := by
  have hbs' := blockSize_lt hmax
  have hlen := len_toNat hmax
  have hbig : 2 * bs.toNat + 9 < room := by
    rw [← h.room_eq]
    rcases cuts_iff.mp h.cut with rfl | hc
    · rw [(@roomOf_nil env bs maxLen (by omega)).2]
      omega
    · omega
  obtain ⟨-, hhigh, hsmall⟩ := h.room_bounds hbs hbs' (by omega) hal
  have hword := lowWord_toNat (by omega) hhigh
  have hdown := @lt_alignDown_add (lowWord room) bs hbs
  refine ⟨?_, by omega, by omega⟩
  by_cases hf : bb.backing.type = .fill
  · exact .inl hf
  · refine .inr ⟨hf, ?_⟩
    rcases hsmall with hsmall | hsmall | ⟨hfill, -⟩
    · exact hsmall
    · omega
    · exact absurd hfill hf

end Cut

/-! ## Nodes that can be read -/

variable {n : BackedBlock}

section Readable

variable {env : Env} {bs maxLen : UInt32} {fresh fresh' : Nat} {nodes left t rest : List BackedBlock}
  {ts : List (List BackedBlock)} {more failed : Bool}

end Readable

/-! ## The second pass -/

section Again

variable {env : Env} {bs maxLen : UInt32} {fresh fresh' : Nat} {nodes left : List BackedBlock}
  {ts : List (List BackedBlock)} {bb : BackedBlock}

/-- The list `again` begins like `nodes`, or with the part of the first node that fills an
empty file. -/
def BeginsLike (env : Env) (bs maxLen : UInt32) (nodes again : List BackedBlock) : Prop :=
  nodes = [] ∧ again = [] ∨ ∃ n rest h rest', nodes = n :: rest ∧ again = h :: rest' ∧
    (h = n ∨ ∃ room, CutAt env bs (maxLen - 56) nodes [] n rest room ∧
      h = firstPart bs (lowWord room) n)

variable (hbs : 0 < bs.toNat) (hmax : 16 * bs.toNat + 128 ≤ maxLen.toNat)
  (h : Rounds env bs maxLen fresh nodes ts fresh' left false) (hal : Aligned bs nodes)

include h in
/-- What the rounds take begins like the nodes they start on. -/
theorem Rounds.beginsLike (hbs' : bs.toNat < 2 ^ 31) :
    BeginsLike env bs maxLen nodes ts.flatten := by
  have hself : ∀ l : List BackedBlock, BeginsLike env bs maxLen l l := by
    intro l
    cases l with
    | nil => exact .inl ⟨rfl, rfl⟩
    | cons n rest => exact .inr ⟨n, rest, n, rest, rfl, rfl, .inl rfl⟩
  generalize hf : false = failed at h
  cases h with
  | last ho =>
    subst hf
    have hround := round_of_eq ho
    cases hround with
    | closed hb => omega
    | whole => simpa using hself nodes
  | @next _ _ _ _ t _ _ _ _ ho hrest =>
    have hround := round_of_eq ho
    cases hround with
    | @cut a b bb room h =>
      cases a with
      | nil => exact .inr ⟨bb, b, _, _, h.nodes_eq, rfl, .inr ⟨room, h, rfl⟩⟩
      | cons n a => exact .inr ⟨n, a ++ bb :: b, n, _, h.nodes_eq, rfl, .inl rfl⟩
    | @stop _ b bb h hc =>
      cases t with
      | nil => simp [cuts] at hc
      | cons n a => exact .inr ⟨n, a ++ bb :: b, n, _, h.nodes_eq, rfl, .inl rfl⟩

include hbs hmax hal in
/-- A first node that is too long is data, and what is taken of it fills the file. -/
theorem CutAt.solid {rest : List BackedBlock} {room : Int}
    (h : CutAt env bs (maxLen - 56) nodes [] n rest room) :
    Solid env bs n ∧ Solid env bs (firstPart bs (lowWord room) n) ∧
      maxLen.toNat - 68 < (alignDown (lowWord room) bs).toNat + bs.toNat := by
  have hbs' := blockSize_lt hmax
  obtain ⟨hcount, hlt, hpos⟩ := h.roomy hbs hmax hal
  have hover := h.tooLong
  rw [countOf_snoc] at hover
  have hgap := gapCount_cases (lastBlockOf bs [] 0) n.block
  have hlen := len_toNat hmax
  have hnil : countOf env bs [] 0 = 0 := rfl
  have hroom := h.room_eq
  rw [(@roomOf_nil env bs maxLen (by omega)).2] at hroom
  have hfill : n.backing.type ≠ .fill := by
    intro hf
    rw [nodeCount_fill hf] at hover
    omega
  have haln := hal n (by simp [h.nodes_eq])
  have hsmall := (hcount.resolve_left hfill).2
  rw [nodeCount_data hfill, payload_of_lt hbs hbs' haln hsmall] at hover
  have hsolid : Solid env bs n := ⟨h.readable, hfill, hsmall, haln, by omega⟩
  exact ⟨hsolid, hsolid.firstPart hpos, by omega⟩

include hbs hmax hal in
/-- A round that stops in front of a node stops there again. -/
theorem Meets.roundOf_again {a b again : List BackedBlock}
    (hm : Meets env bs (maxLen - 56) nodes a bb b) (hc : cuts env bs (maxLen - 56) a = false)
    (hb : BeginsLike env bs maxLen (bb :: b) again) (fresh : Nat) :
    roundOf env bs maxLen fresh (a ++ again) = ⟨a, again, fresh + 1, true, false⟩ := by
  have hbs' := blockSize_lt hmax
  have hlen := len_toNat hmax
  rcases hb with ⟨h, -⟩ | ⟨n, rest, h, rest', hl, rfl, hh⟩
  · cases h
  obtain ⟨rfl, rfl⟩ := List.cons.inj hl
  have hmeets : Meets env bs (maxLen - 56) (a ++ h :: rest') a h rest' := by
    rcases hh with rfl | ⟨room, hcut, rfl⟩
    · exact ⟨rfl, hm.walked, hm.readable, hm.tooLong⟩
    · have halb : Aligned bs (bb :: b) := fun x hx =>
        hal x (by rw [hm.nodes_eq]; exact mem_append_right _ hx)
      obtain ⟨-, hpart, hlong⟩ := hcut.solid hbs hmax halb
      refine ⟨rfl, hm.walked, hpart.readable, ?_⟩
      by_cases hle : bb.len ≤ alignDown (lowWord room) bs
      · rw [firstPart_of_le hle]
        exact hm.tooLong
      · -- the nodes before it leave an eighth at most, and the part fills all but a block
        have hplen := firstPart_len_of_lt (UInt32.not_le.mp hle)
        have hgap := gapCount_cases (lastBlockOf bs a 0) bb.block
        have hroom := mt (fun h => cuts_iff.mpr (.inr h)) (Bool.not_eq_true _ ▸ hc)
        rw [countOf_snoc, hpart.count hbs hbs', hplen, firstPart_block]
        unfold roomOf at hroom
        omega
  exact hmeets.roundOf_eq hbs' hc fresh

include hbs hmax in
/-- The next node of the second pass, behind a part that was cut off, is the rest or a part
of it. -/
theorem BeginsLike.next_solid {rest again : List BackedBlock} (hn : Solid env bs n)
    (hal : Aligned bs rest) (h : BeginsLike env bs maxLen (n :: rest) again) :
    ∃ x rest', again = x :: rest' ∧ Solid env bs x := by
  rcases h with ⟨h, -⟩ | ⟨n', rest₁, x, rest', hl, rfl, hx⟩
  · cases h
  obtain ⟨rfl, rfl⟩ := List.cons.inj hl
  refine ⟨x, rest', rfl, ?_⟩
  rcases hx with rfl | ⟨room, hcut, rfl⟩
  · exact hn
  · exact (hcut.solid hbs hmax (forall_mem_cons.mpr ⟨hn.aligned, hal⟩)).2.1

include hbs hmax hal in
/-- A round that cuts a node takes the part again, and no more. -/
theorem CutAt.roundOf_again {a b again : List BackedBlock} {room : Int} {fresh₁ : Nat}
    (h : CutAt env bs (maxLen - 56) nodes a bb b room)
    (hb : BeginsLike env bs maxLen (secondPart bs (lowWord room) fresh₁ bb ++ b) again)
    (fresh : Nat) :
    roundOf env bs maxLen fresh (a ++ [firstPart bs (lowWord room) bb] ++ again) =
      ⟨a ++ [firstPart bs (lowWord room) bb], again, fresh + 1, true, false⟩ := by
  have hbs' := blockSize_lt hmax
  have hlen := len_toNat hmax
  obtain ⟨hcountable, hclose, hpos⟩ := h.roomy hbs hmax hal
  have hroom := h.room_eq
  unfold roomOf at hroom
  generalize hm : lowWord room = m at *
  have hread := firstPart_readable h.readable hcountable hpos
  have hover := h.tooLong
  have hsum := countOf_snoc env bs a (firstPart bs m bb) 0
  rw [countOf_snoc] at hover
  rw [firstPart_block] at hsum
  by_cases hfit : countOf env bs (a ++ [firstPart bs m bb]) 0 ≤ (maxLen - 56).toNat
  · have hlt : alignDown m bs < bb.len := by
      by_contra hle
      rw [firstPart_of_le (UInt32.not_lt.mp hle)] at hsum hfit
      omega
    have hdata : bb.backing.type ≠ .fill := by
      intro hf
      have hf' : (firstPart bs m bb).backing.type = .fill := by rw [firstPart_backing]; exact hf
      rw [nodeCount_fill hf] at hover
      rw [nodeCount_fill hf'] at hsum
      omega
    have hsolid : Solid env bs bb := ⟨h.readable, hdata,
      (hcountable.resolve_left hdata).2, hal bb (by simp [h.nodes_eq]),
      Nat.zero_lt_of_lt hlt⟩
    have hpcount := (hsolid.firstPart hpos).count hbs hbs'
    rw [firstPart_len_of_lt hlt] at hpcount
    have hgap := gapCount_cases (lastBlockOf bs a 0) bb.block
    -- less than a block of room is left behind the part
    have htight : (maxLen - 56).toNat < countOf env bs (a ++ [firstPart bs m bb]) 0 + bs.toNat := by
      omega
    rw [secondPart_of_lt _ hlt, singleton_append] at hb
    obtain ⟨x, rest', rfl, hx⟩ := hb.next_solid hbs hmax (hsolid.restPart hlt fresh₁)
      fun n hn => hal n (by simp [h.nodes_eq, hn])
    have hxbs := Nat.le_of_dvd hx.pos hx.aligned
    have hmeets : Meets env bs (maxLen - 56) (a ++ [firstPart bs m bb] ++ x :: rest')
        (a ++ [firstPart bs m bb]) x rest' := by
      refine ⟨rfl, walked_snoc.mpr ⟨h.walked, hread, hfit⟩, hx.readable, ?_⟩
      have hgap' := gapCount_cases (lastBlockOf bs (a ++ [firstPart bs m bb]) 0) x.block
      rw [countOf_snoc, hx.count hbs hbs']
      omega
    refine hmeets.roundOf_eq hbs' (Bool.eq_false_iff.mpr (mt cuts_iff.mp ?_)) fresh
    unfold roomOf
    simp only [append_eq_nil_iff, cons_ne_nil, and_false, false_or]
    omega
  · -- the part does not fit either, and is short enough to be taken whole
    have hcut : CutAt env bs (maxLen - 56) (a ++ firstPart bs m bb :: again) a
        (firstPart bs m bb) again room := ⟨⟨rfl, h.walked, hread, by omega⟩, h.cut, h.room_eq⟩
    have hle : (firstPart bs m bb).len ≤ alignDown m bs := by
      apply UInt32.le_iff_toNat_le.mpr
      rw [firstPart_len]
      exact Nat.min_le_right _ _
    rw [append_assoc, singleton_append, hcut.roundOf_eq hbs' fresh, hm, firstPart_of_le hle,
      secondPart_of_le fresh hle]
    rfl

include hbs hmax h in
/-- Over what the rounds have taken, the rounds take the same again. -/
theorem Rounds.again : Aligned bs nodes →
    ∀ fresh₂, ∃ fresh₂', Rounds env bs maxLen fresh₂ ts.flatten ts fresh₂' [] false := by
  have hbs' := blockSize_lt hmax
  generalize hf : false = failed at h
  induction h with
  | last ho =>
    intro _ fresh₂
    subst hf
    have hround := round_of_eq ho
    cases hround with
    | closed hlong => omega
    | whole hw =>
      rw [flatten_singleton]
      exact ⟨_, .last (hw.roundOf_eq hbs' fresh₂)⟩
  | next ho hrest ih =>
    intro hal fresh₂
    subst hf
    have hround := round_of_eq ho
    obtain ⟨fresh₂', hagain⟩ := ih rfl (hround.aligned hal) (fresh₂ + 1)
    have hb := hrest.beginsLike hbs'
    refine ⟨fresh₂', .next ?_ hagain⟩
    cases hround with
    | cut h => exact h.roundOf_again hbs hmax hal hb fresh₂
    | stop h hc => exact h.roundOf_again hbs hmax hal hc hb fresh₂

end Again

/-! ## Both passes -/

section Passes

variable {env : Env} {s : SparseFile} {maxLen : UInt32} {fresh fresh' : Nat}
  {ts : List (List BackedBlock)} {left : List BackedBlock} {failed : Bool} {r : Resparse}
  (h : Resparsed s 0 ts fresh' left failed r) (hbs : 0 < s.blockSize.toNat)
  (hmax : 80 + s.blockSize.toNat ≤ maxLen.toNat) (hp : Placed fresh s.list.dataBlocks)

include h in
/-- The counting pass puts everything back. -/
theorem Resparsed.nodes_perm : r.inS.list.dataBlocks.Perm (ts.flatten ++ left) := by
  have hp := h.perm
  have hout : r.out = [] := by rw [h.out]; rfl
  simpa [hout] using hp

include h hp in
theorem Resparsed.placed
    (hr : Rounds env s.blockSize maxLen fresh s.list.dataBlocks ts fresh' left failed) :
    Placed r.fresh r.inS.list.dataBlocks := by
  have hall := hr.keeps (I := Placed) (fun hc hl => hc.placed hl) [] hp
  have hperm := h.nodes_perm
  rw [h.fresh]
  exact ⟨(hperm.map _).nodup_iff.mpr hall.nodup, fun n hn => hall.old n (hperm.mem_iff.mp hn)⟩

end Passes

end SystemCore.Libsparse
