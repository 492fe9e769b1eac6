import SystemCore.Libsparse.Resparse
import SystemCore.Libsparse.Tiling

/-!
# The length of the files that resparsing makes

`move_chunks_up_to_len` keeps back 56 bytes for the header, the skip chunk at the end and
the checksum chunk, and 12 bytes for the header of the node it cuts, but none for the
skip chunk in front of that node. The files stay within the limit unless all of these
chunks are there and the cut leaves less than 12 bytes of the room.
-/
namespace SystemCore.Libsparse

open Lib.CeilDiv

def Aligned (bs : UInt32) (nodes : List BackedBlock) : Prop :=
  ∀ bb ∈ nodes, bs.toNat ∣ bb.len.toNat

instance (bs : UInt32) (nodes : List BackedBlock) : Decidable (Aligned bs nodes) :=
  inferInstanceAs (Decidable (∀ bb ∈ nodes, _))

section Aligned

variable {env : Env} {bs : UInt32} {bb : BackedBlock}

theorem nodeCount_fill (h : bb.backing.type = .fill) : nodeCount env bs bb = 16 := by
  unfold nodeCount content
  cases hb : bb.backing with
  | fill v => rfl
  | data p => rw [hb] at h; cases h
  | file f path o => rw [hb] at h; cases h
  | fd d o => rw [hb] at h; cases h

theorem nodeCount_data (h : bb.backing.type ≠ .fill) :
    nodeCount env bs bb = 12 + (toInt bb.len + toInt (align bb.len bs - bb.len)) := by
  unfold nodeCount content
  cases hb : bb.backing with
  | fill v => rw [hb] at h; exact absurd rfl h
  | data p => rfl
  | file f path o => rfl
  | fd d o => rfl

theorem firstPart_aligned (h : bs.toNat ∣ bb.len.toNat) (m : UInt32) :
    bs.toNat ∣ (firstPart bs m bb).len.toNat := by
  unfold firstPart
  split
  · exact h
  · exact alignDown_dvd m bs

theorem restPart_aligned {m : UInt32} (h : bs.toNat ∣ bb.len.toNat)
    (hlt : alignDown m bs < bb.len) (addr : Nat) : bs.toNat ∣ (restPart bs m addr bb).len.toNat := by
  rw [restPart_len hlt]
  exact Nat.dvd_sub h (alignDown_dvd m bs)

/-- Splits are made at whole blocks. -/
theorem Recut.aligned {fresh fresh' : Nat} {l l' : List BackedBlock}
    (h : Recut bs fresh l fresh' l') (hl : Aligned bs l) : Aligned bs l' := by
  refine h.forall_mem (P := fun n => bs.toNat ∣ n.len.toNat) ?_ ?_ hl
  · exact fun m bb hbb => firstPart_aligned hbb m
  · exact fun m bb _ hlt hbb => restPart_aligned hbb hlt fresh

theorem Round.aligned {maxLen : UInt32} {fresh fresh' : Nat} {nodes t rest : List BackedBlock}
    {more failed : Bool} (h : Round env bs maxLen fresh nodes ⟨t, rest, fresh', more, failed⟩)
    (hal : Aligned bs nodes) : Aligned bs rest :=
  fun n hn => h.recut.aligned hal n (List.mem_append_right _ hn)

variable {len : UInt32} (hbs : 0 < bs.toNat) (hbs' : bs.toNat < 2 ^ 31) (h : bs.toNat ∣ len.toNat)

include hbs hbs' h in
theorem payload_of_lt (hlen : len.toNat < 2 ^ 31) :
    toInt len + toInt (align len bs - len) = len.toNat := by
  rw [align_of_dvd hbs (by omega) h, UInt32.sub_self, toInt_of_lt hlen]
  exact Int.add_zero _

include hbs hbs' h in
/-- A length from `2^31` on is negative as an `int`, and when rounding it up wraps to zero
the padding only makes up for it. -/
theorem payload_of_le (hlen : 2 ^ 31 ≤ len.toNat) : toInt len + toInt (align len bs - len) ≤ 0 := by
  have hneg := toInt_of_le hlen
  have hlt := len.toNat_lt
  by_cases hwrap : len.toNat + bs.toNat ≤ 2 ^ 32
  · rw [align_of_dvd hbs hwrap h, UInt32.sub_self, hneg]
    change (len.toNat : Int) - 2 ^ 32 + 0 ≤ 0
    omega
  · have halign : align len bs = 0 := by
      apply UInt32.toNat_inj.mp
      rw [align_toNat, divRoundUp_wrap (by omega)]
      rfl
    have hpad : (align len bs - len).toNat = 2 ^ 32 - len.toNat := by
      rw [halign, UInt32.toNat_sub]
      simp only [UInt32.toNat_zero]
      omega
    rw [hneg, toInt_of_lt (by omega), hpad]
    omega

include hbs hbs' h in
/-- An aligned payload counts at most its length, and less than `2^31`. -/
theorem payload_le : toInt len + toInt (align len bs - len) ≤ len.toNat ∧
      toInt len + toInt (align len bs - len) < 2 ^ 31 := by
  rcases Nat.lt_or_ge len.toNat (2 ^ 31) with hlen | hlen
  · rw [payload_of_lt hbs hbs' h hlen]
    omega
  · have := payload_of_le hbs hbs' h hlen
    omega

end Aligned

/-! ## One round -/

/-- `sparse_file_len` of the file with these nodes is at most `max_len`, when it
returns. -/
def Bounded (env : Env) (L : Int) (bs maxLen : UInt32) (crc : Bool) (nodes : List BackedBlock) :
    Prop :=
  ∀ n, sparseFileLen env (fileOf L bs nodes) true crc = .ok n → n ≤ maxLen.toNat

/-- What a cut at `room` bytes keeps of a node: as many of its blocks as there is room
for. -/
def keptOf (bs : UInt32) (room : Int) (bb : BackedBlock) : Nat :=
  min bb.len.toNat (room.toNat - room.toNat % bs.toNat)

def keptPart (bs : UInt32) (room : Int) (bb : BackedBlock) : BackedBlock :=
  { bb with len := UInt32.ofNat (keptOf bs room bb) }

/-- The node `bb` is cut at `room` bytes behind the nodes `front`, with a gap in front of it
and a skip chunk behind it, and its header does not fit in what the cut leaves. -/
structure OverrunsAt (env : Env) (L : Int) (bs maxLen : UInt32) (front : List BackedBlock)
    (bb : BackedBlock) (room : Int) : Prop where
  cut : front = [] ∨ ((maxLen - 56).toNat / 8 : Nat) < room
  gap : lastBlockOf bs front 0 < bb.block
  tight : bb.backing.type = .fill ∨ room % bs.toNat < 12
  blocks : (bs.toNat : Int) ∣ L
  skip : ((bb.block.toNat + keptOf bs room bb / bs.toNat) % 2 ^ 32 * bs.toNat : Nat) < L
  readable : readable env (keptPart bs room bb) = true

/-- A file with a checksum is made where the first node that does not fit overruns. -/
def Overruns (env : Env) (L : Int) (bs maxLen : UInt32) (crc : Bool) (nodes : List BackedBlock) :
    Prop :=
  crc = true ∧ bs.toNat < 2 ^ 31 ∧ ∃ front bb rest, Meets env bs (maxLen - 56) nodes front bb rest ∧
    OverrunsAt env L bs maxLen front bb (roomOf env bs (maxLen - 56) front)

section Round

variable {env : Env} {L : Int} {bs maxLen : UInt32} {crc : Bool} {nodes : List BackedBlock}

theorem endCount_cases (s : SparseFile) : s.endCount = 0 ∨ s.endCount = 12 := by
  unfold SparseFile.endCount
  split
  · exact Or.inr rfl
  · exact Or.inl rfl

theorem endCount_eq_iff (s : SparseFile) :
    s.endCount = 12 ↔ 0 < s.pad ∧ s.pad.tmod s.blockSize.toNat = 0 := by
  unfold SparseFile.endCount
  split
  · rename_i h
    exact iff_of_true rfl h
  · rename_i h
    exact iff_of_false (by decide) h

theorem gapCount_cases (lastBlock block : UInt32) :
    gapCount lastBlock block = 0 ∨ gapCount lastBlock block = 12 ∧ lastBlock < block := by
  unfold gapCount
  split
  · rename_i h
    exact Or.inr ⟨rfl, h⟩
  · exact Or.inl rfl

variable (hbs : 0 < bs.toNat) (hbs' : bs.toNat < 2 ^ 31) (hmax : 80 + bs.toNat ≤ maxLen.toNat)
  (hal : Aligned bs nodes)

include hbs hbs' in
/-- The bound is one on the length of a file that can be read. -/
theorem bounded_iff :
    Bounded env L bs maxLen crc nodes ↔ ((∀ bb ∈ nodes, readable env bb = true) →
      0 ≤ (fileOf L bs nodes).pad → lengthOf env (fileOf L bs nodes) crc ≤ maxLen.toNat) := by
  unfold Bounded
  by_cases hr : ∀ bb ∈ nodes, readable env bb = true
  · have hlen := @sparseFileLen_of_readable env (fileOf L bs nodes) crc hbs hbs' hr
    rw [hlen]
    by_cases hpad : (fileOf L bs nodes).pad < 0
    · rw [if_pos hpad]
      exact iff_of_true (fun n h => by cases h) (fun _ h => absurd h (by omega))
    · rw [if_neg hpad]
      constructor
      · exact fun h _ _ => h _ rfl
      · intro h n hn
        cases hn
        exact h hr (by omega)
  · have hr' : ∃ bb ∈ nodes, readable env bb = false := by
      push Not at hr
      simpa using hr
    have hlen := @sparseFileLen_of_refused env (fileOf L bs nodes) crc hbs hbs' hr'
    rw [hlen]
    refine iff_of_true (fun n h => ?_) (fun h => absurd h hr)
    cases h
    omega

include hbs hbs' in
/-- Nodes that leave the 56 bytes free. -/
theorem bounded_of_count (h : countOf env bs nodes 0 + 56 ≤ maxLen.toNat) :
    Bounded env L bs maxLen crc nodes := by
  rw [bounded_iff hbs hbs']
  intro _ _
  have hcount : lengthOf env (fileOf L bs nodes) crc = 28 + countOf env bs nodes 0 +
    (fileOf L bs nodes).endCount + (if crc then 16 else 0) := rfl
  rw [hcount]
  have hend := endCount_cases (fileOf L bs nodes)
  split <;> omega

include hbs hbs' in
theorem nodeCount_lt {bb : BackedBlock} (h : bs.toNat ∣ bb.len.toNat) :
    nodeCount env bs bb < 12 + 2 ^ 31 := by
  unfold nodeCount
  cases content env bb with
  | data bytes =>
    have := (payload_le hbs hbs' h).2
    simp only [Content.count]
    omega
  | fill v => simp [Content.count]

theorem firstPart_kept {room : Int} (h0 : 0 ≤ room) (h : room < 2 ^ 32) (bb : BackedBlock) :
    firstPart bs (lowWord room) bb = keptPart bs room bb := by
  have hroom := lowWord_toNat h0 h
  have hdown : (alignDown (lowWord room) bs).toNat = room.toNat - room.toNat % bs.toNat := by
    have hword : (lowWord room).toNat = room.toNat := by omega
    have hdiv := Nat.div_add_mod room.toNat bs.toNat
    rw [alignDown_toNat, hword]
    omega
  unfold firstPart keptPart keptOf
  rw [← hdown]
  split
  · rename_i hle
    rw [Nat.min_eq_left (UInt32.le_iff_toNat_le.mp hle), UInt32.ofNat_toNat]
  · rename_i hlt
    have hlt' := UInt32.lt_iff_toNat_lt.mp (UInt32.not_le.mp hlt)
    rw [Nat.min_eq_right hlt'.le, UInt32.ofNat_toNat]

theorem keptOf_dvd {room : Int} (h : bs.toNat ∣ bb.len.toNat) : bs.toNat ∣ keptOf bs room bb := by
  unfold keptOf
  rcases min_choice bb.len.toNat (room.toNat - room.toNat % bs.toNat) with e | e
  · rwa [e]
  · rw [e]
    exact Nat.dvd_sub_mod _

include hbs hbs' in
/-- The file ends in a skip chunk when it has whole blocks, some of them behind its last
node. -/
theorem endCount_snoc (a : List BackedBlock) {n : BackedBlock} (hlen : n.len.toNat < 2 ^ 31)
    (hd : bs.toNat ∣ n.len.toNat) : (fileOf L bs (a ++ [n])).endCount = 12 ↔
      (bs.toNat : Int) ∣ L ∧
        ((n.block.toNat + n.len.toNat / bs.toNat) % 2 ^ 32 * bs.toNat : Nat) < L := by
  have hlast : (fileOf L bs (a ++ [n])).lastBlock.toNat =
      (n.block.toNat + n.len.toNat / bs.toNat) % 2 ^ 32 := by
    change (lastBlockOf bs (a ++ [n]) 0).toNat = _
    rw [lastBlockOf_append]
    change (n.block + divRoundUp n.len bs).toNat = _
    rw [UInt32.toNat_add, divRoundUp_of_dvd hbs (by omega) hd]
  have hpad : (fileOf L bs (a ++ [n])).pad =
      L - ((n.block.toNat + n.len.toNat / bs.toNat) % 2 ^ 32 * bs.toNat : Nat) := by
    rw [Nat.cast_mul, ← hlast]
    rfl
  have hcount : (fileOf L bs (a ++ [n])).endCount = 12 ↔ 0 < (fileOf L bs (a ++ [n])).pad ∧
      (fileOf L bs (a ++ [n])).pad.tmod bs.toNat = 0 := endCount_eq_iff _
  have hk : (bs.toNat : Int) ∣ ((n.block.toNat + n.len.toNat / bs.toNat) % 2 ^ 32 * bs.toNat : Nat) :=
    Int.natCast_dvd_natCast.mpr (Nat.dvd_mul_left _ _)
  rw [hcount, hpad, ← Int.dvd_iff_tmod_eq_zero, Int.sub_pos, and_comm]
  refine and_congr_left fun _ => ⟨fun h => ?_, fun h => Int.dvd_sub h hk⟩
  have hadd := Int.dvd_add h hk
  rwa [Int.sub_add_cancel] at hadd

section Cut

variable {a b : List BackedBlock} {bb : BackedBlock} {room : Int}
  (h : CutAt env bs (maxLen - 56) nodes a bb b room)

include hbs hbs' hmax hal h

/-- The room is a word. A node that is not counted as it is was too long for a room of a few
bytes only. -/
theorem CutAt.room_bounds : 4 ≤ room ∧ room < 2 ^ 32 ∧ (bb.len.toNat < 2 ^ 31 ∨ room < 12 ∨
    bb.backing.type = .fill ∧ room < 16) := by
  obtain ⟨hsub, hnil⟩ := @roomOf_nil env bs maxLen hmax
  have halb := hal bb (by simp [h.nodes_eq])
  have hover := h.tooLong
  have hroom := h.room_eq
  rw [countOf_snoc] at hover
  have hgap := gapCount_cases (lastBlockOf bs a 0) bb.block
  have hcount := @nodeCount_lt env bs hbs hbs' bb halb
  have hlow : 4 ≤ room := by
    rcases cuts_iff.mp h.cut with rfl | hc
    · rw [hnil] at hroom
      omega
    · omega
  unfold roomOf at hroom
  refine ⟨hlow, by omega, ?_⟩
  by_cases hf : bb.backing.type = .fill
  · rw [nodeCount_fill hf] at hover
    exact .inr (.inr ⟨hf, by omega⟩)
  · rcases Nat.lt_or_ge bb.len.toNat (2 ^ 31) with hsmall | hbig
    · exact .inl hsmall
    · have hneg := payload_of_le hbs hbs' halb hbig
      rw [nodeCount_data hf] at hover
      exact .inr (.inl (by omega))

theorem CutAt.keptPart_len : keptOf bs room bb < 2 ^ 31 ∧
    (keptPart bs room bb).len.toNat = keptOf bs room bb := by
  obtain ⟨hlow, -, hlen⟩ := h.room_bounds hbs hbs' hmax hal
  have hlt : keptOf bs room bb < 2 ^ 31 := by
    unfold keptOf
    omega
  refine ⟨hlt, ?_⟩
  change (UInt32.ofNat _).toNat = _
  rw [UInt32.toNat_ofNat', Nat.mod_eq_of_lt (by omega)]

theorem CutAt.nodeCount_keptPart :
    bb.backing.type = .fill ∧ nodeCount env bs (keptPart bs room bb) = 16 ∨
      bb.backing.type ≠ .fill ∧
        nodeCount env bs (keptPart bs room bb) = 12 + keptOf bs room bb := by
  obtain ⟨hlt, hlen⟩ := h.keptPart_len hbs hbs' hmax hal
  by_cases hf : bb.backing.type = .fill
  · exact .inl ⟨hf, nodeCount_fill hf⟩
  · have hf' : (keptPart bs room bb).backing.type ≠ .fill := hf
    have hd := hlen ▸ @keptOf_dvd bs bb room (hal bb (by simp [h.nodes_eq]))
    refine .inr ⟨hf, ?_⟩
    rw [nodeCount_data hf', payload_of_lt hbs hbs' hd (by omega), hlen]

/-- Behind a gap, the header of what is kept does not fit in what the cut leaves exactly if
the room is short of 12 bytes behind its last whole block, or the node is a fill. -/
theorem CutAt.tight_iff (hg : lastBlockOf bs a 0 < bb.block) :
    room < nodeCount env bs (keptPart bs room bb) ↔
      bb.backing.type = .fill ∨ room % bs.toNat < 12 := by
  obtain ⟨hlow, -, hlen⟩ := h.room_bounds hbs hbs' hmax hal
  have hover := h.tooLong
  have hroom := h.room_eq
  unfold roomOf at hroom
  rw [countOf_snoc, gapCount, if_pos hg] at hover
  rcases h.nodeCount_keptPart hbs hbs' hmax hal with ⟨hf, hcount⟩ | ⟨hf, hcount⟩
  · rw [nodeCount_fill hf] at hover
    refine iff_of_true ?_ (.inl hf)
    rw [hcount]
    omega
  · have hmod : room % bs.toNat = (room.toNat % bs.toNat : Nat) := by
      rw [Int.natCast_mod, Int.toNat_of_nonneg (by omega)]
    have hle := Nat.mod_le room.toNat bs.toNat
    rw [hcount, hmod, or_iff_right hf]
    unfold keptOf
    rcases Nat.lt_or_ge bb.len.toNat (2 ^ 31) with hsmall | hbig
    · -- a node that is kept whole was too long for its gap only
      rw [nodeCount_data hf, payload_of_lt hbs hbs' (hal bb (by simp [h.nodes_eq])) hsmall] at hover
      omega
    · omega

/-- What a cut takes is within the limit exactly if it does not overrun. -/
theorem CutAt.bounded_iff :
    Bounded env L bs maxLen crc (a ++ [keptPart bs room bb]) ↔
      ¬ (crc = true ∧ OverrunsAt env L bs maxLen a bb room) := by
  obtain ⟨hsub, -⟩ := @roomOf_nil env bs maxLen hmax
  obtain ⟨hlow, -, -⟩ := h.room_bounds hbs hbs' hmax hal
  obtain ⟨hlt, hlen⟩ := h.keptPart_len hbs hbs' hmax hal
  have htight := h.tight_iff hbs hbs' hmax hal
  have hroom := h.room_eq
  unfold roomOf at hroom
  have hend := @endCount_snoc L bs hbs hbs' a (keptPart bs room bb)
    (by omega) (hlen ▸ keptOf_dvd (hal bb (by simp [h.nodes_eq])))
  rw [hlen] at hend
  have hle : nodeCount env bs (keptPart bs room bb) ≤ room + 12 := by
    have hkept : keptOf bs room bb ≤ room.toNat := (Nat.min_le_right _ _).trans (Nat.sub_le _ _)
    rcases h.nodeCount_keptPart hbs hbs' hmax hal with ⟨-, h⟩ | ⟨-, h⟩ <;> omega
  have hcount := countOf_snoc env bs a (keptPart bs room bb) 0
  set n := keptPart bs room bb with hn
  have hlength : lengthOf env (fileOf L bs (a ++ [n])) crc = 28 + countOf env bs (a ++ [n]) 0 +
      (fileOf L bs (a ++ [n])).endCount + (if crc then 16 else 0) := rfl
  have hgap : gapCount (lastBlockOf bs a 0) n.block = 0 ∨
    gapCount (lastBlockOf bs a 0) n.block = 12 ∧ lastBlockOf bs a 0 < bb.block := gapCount_cases _ _
  rw [Libsparse.bounded_iff hbs hbs', hlength, hcount]
  constructor
  · rintro hb ⟨rfl, ho⟩
    have hread : ∀ x ∈ a ++ [n], readable env x = true := by
      intro x hx
      rcases List.mem_append.mp hx with hx | hx
      · exact h.walked.readable x hx
      · rw [List.mem_singleton.mp hx]
        exact ho.readable
    have he := hend.mpr ⟨ho.blocks, ho.skip⟩
    have hover := (htight ho.gap).mpr ho.tight
    have hbound := hb hread ((endCount_eq_iff _).mp he).1.le
    have hg : gapCount (lastBlockOf bs a 0) n.block = 12 := if_pos ho.gap
    rw [he, hg, if_pos rfl] at hbound
    omega
  · intro hno hr _
    by_contra hbig
    have hcases := endCount_cases (fileOf L bs (a ++ [n]))
    cases crc with
    | false =>
      rw [if_neg (by decide)] at hbig
      omega
    | true =>
      rw [if_pos rfl] at hbig
      obtain ⟨hg, hg'⟩ := hgap.resolve_left (by omega)
      have he : (fileOf L bs (a ++ [n])).endCount = 12 := hcases.resolve_left (by omega)
      obtain ⟨hblocks, hskip⟩ := hend.mp he
      exact hno ⟨rfl, h.room_eq ▸ cuts_iff.mp h.cut, hg', (htight hg').mp (by omega), hblocks, hskip,
        hr n (by simp)⟩

end Cut

include hbs hmax hal in
/-- A file that a round takes is within the limit exactly if the round does not overrun. -/
theorem Round.bounded_iff {fresh fresh' : Nat} {t rest : List BackedBlock} {more failed : Bool}
    (h : Round env bs maxLen fresh nodes ⟨t, rest, fresh', more, failed⟩) :
    Bounded env L bs maxLen crc t ↔ ¬ Overruns env L bs maxLen crc nodes := by
  obtain ⟨hsub, -⟩ := @roomOf_nil env bs maxLen hmax
  by_cases hbs' : bs.toNat < 2 ^ 31
  case neg =>
    refine iff_of_true (fun n hn => ?_) (fun h => hbs' h.2.1)
    rw [@sparseFileLen_of_long env (fileOf L bs t) crc (Nat.le_of_not_lt hbs')] at hn
    cases hn
    omega
  -- without a cut the nodes leave the 56 bytes free
  have hfree : ∀ {l : List BackedBlock}, Walked env bs (maxLen - 56) l →
      Bounded env L bs maxLen crc l := by
    intro l hw
    have hfits := hw.fits l List.prefix_rfl
    exact bounded_of_count hbs hbs' (by omega)
  cases h with
  | failed hp =>
    refine iff_of_true (hfree walked_nil) ?_
    rintro ⟨-, -, a, bb, b, hm, -⟩
    cases hp.symm.trans hm.pack_eq
  | closed hlong => omega
  | whole hw =>
    refine iff_of_true (hfree hw) ?_
    rintro ⟨-, -, a, bb, b, hm, -⟩
    cases hw.pack_eq.symm.trans hm.pack_eq
  | @cut a b bb room h =>
    obtain ⟨hlow, hhigh, -⟩ := h.room_bounds hbs hbs' hmax hal
    rw [firstPart_kept (by omega) hhigh, h.bounded_iff hbs hbs' hmax hal, not_iff_not]
    constructor
    · exact fun ho => ⟨ho.1, hbs', a, bb, b, h.toMeets, h.room_eq.symm ▸ ho.2⟩
    · rintro ⟨hcrc, -, a', bb', b', hm, ho⟩
      obtain ⟨rfl, rfl, rfl⟩ := h.toMeets.unique hm
      exact ⟨hcrc, h.room_eq ▸ ho⟩
  | @stop a b bb h hc =>
    refine iff_of_true (hfree h.walked) ?_
    rintro ⟨-, -, a', bb', b', hm, ho⟩
    obtain ⟨rfl, -, -⟩ := h.unique hm
    rw [cuts_iff.mpr ho.cut] at hc
    cases hc

end Round

/-! ## The call -/

def SizesBounded (env : Env) (s : SparseFile) (maxLen : UInt32) (outSCount : Int) (fresh : Nat)
    (crc : Bool) : Prop :=
  ∀ fuel r, sparseFileResparse env fuel s maxLen outSCount fresh = .ok (some r) →
    ∀ t ∈ r.out, ∀ n, sparseFileLen env t true crc = .ok n → n ≤ maxLen.toNat

/-- The files of the first `n` rounds are within the limit exactly if these rounds do not
overrun. -/
theorem Rounds.bounded_iff {env : Env} {L : Int} {bs maxLen : UInt32} {crc : Bool}
    {nodes left : List BackedBlock} {ts : List (List BackedBlock)} {fresh fresh' : Nat}
    {failed : Bool} (hbs : 0 < bs.toNat) (hmax : 80 + bs.toNat ≤ maxLen.toNat)
    (h : Rounds env bs maxLen fresh nodes ts fresh' left failed) :
    ∀ n, Aligned bs nodes → ((∀ t ∈ ts.take n, Bounded env L bs maxLen crc t) ↔
      InRounds env bs maxLen (fun l => ¬ Overruns env L bs maxLen crc l) n fresh nodes) := by
  induction h with
  | last ho =>
    intro n hal
    cases n with
    | zero => exact iff_of_true (by simp) trivial
    | succ n =>
      rw [inRounds_succ, ho, ← (round_of_eq ho).bounded_iff hbs hmax hal]
      simp
  | next ho hrest ih =>
    intro n hal
    cases n with
    | zero => exact iff_of_true (by simp) trivial
    | succ n =>
      rw [inRounds_succ, ho, ← (round_of_eq ho).bounded_iff hbs hmax hal,
        ← ih n ((round_of_eq ho).aligned hal)]
      simp

/-- The files that are stored are within `max_len` exactly if no round that stores one
overruns. -/
theorem resparse_sizes_iff (env : Env) (s : SparseFile) (maxLen : UInt32) (outSCount : Int)
    (fresh : Nat) (crc : Bool) (hal : Aligned s.blockSize s.list.dataBlocks)
    (hp : Placed fresh s.list.dataBlocks)
    (hmax : 28 + 4 * 12 + 4 + s.blockSize.toNat ≤ maxLen.toNat) :
    SizesBounded env s maxLen outSCount fresh crc ↔ (s.blockSize ≠ 0 →
      InRounds env s.blockSize maxLen (fun l => ¬ Overruns env s.len s.blockSize maxLen crc l)
        outSCount.toNat fresh s.list.dataBlocks) := by
  by_cases h0 : s.blockSize = 0
  · refine iff_of_true (fun fuel r h => ?_) (fun h => absurd h0 h)
    exact absurd h (sparseFileResparse_zero env maxLen outSCount fresh fuel h0 r)
  · have hbs := toNat_pos_of_ne h0
    obtain ⟨ts, fresh', left, failed, r, hr, hres, hcall⟩ :=
      exists_resparsed env outSCount hbs hmax hp
    have hiff := @Rounds.bounded_iff env s.len s.blockSize maxLen crc _ _ _ _ _ _ hbs hmax hr
      outSCount.toNat hal
    rw [forall_prop_of_true h0, ← hiff]
    constructor
    · intro h t ht
      refine h ts.length r (by rw [hcall, if_pos le_rfl]) (fileOf s.len s.blockSize t) ?_
      rw [hres.out]
      exact List.mem_map_of_mem ht
    · intro h fuel r' hr' t ht
      rw [hcall] at hr'
      split at hr'
      · cases hr'
        rw [hres.out] at ht
        obtain ⟨l, hl, rfl⟩ := List.mem_map.mp ht
        exact h l hl
      · cases hr'

/-- Four blocks at block 0, with a checksum: the first file has no gap. -/
theorem resparse_sizes_four_blocks :
    SizesBounded zeroEnv ⟨16384, ⟨[⟨0, 0, 16384, .data 0⟩], none, 4096⟩⟩ 8260 1 1 true := by
  have hp : Placed 1 [⟨0, 0, 16384, .data 0⟩] := ⟨by decide, by decide⟩
  refine (resparse_sizes_iff zeroEnv _ 8260 1 1 true (by decide) hp (by decide)).mpr fun _ => ?_
  refine (inRounds_succ _ _ _ _ 0 _ _).mpr ⟨?_, fun _ => trivial⟩
  rintro ⟨-, -, a, bb, b, hm, ho⟩
  -- the only node is the first, at block 0
  have hnodes : [(⟨0, 0, 16384, .data 0⟩ : BackedBlock)] = a ++ bb :: b := hm.nodes_eq
  have hbb : bb ∈ [(⟨0, 0, 16384, .data 0⟩ : BackedBlock)] := by simp [hnodes]
  have hgap := ho.gap
  rw [List.mem_singleton.mp hbb] at hgap
  exact absurd hgap (UInt32.not_lt.mpr UInt32.zero_le)

/-- Four blocks at block 1 of ten, with a checksum: the first file has 8272 bytes. -/
theorem resparse_exceeds_max_len :
    let s : SparseFile := ⟨40960, ⟨[⟨0, 1, 16384, .data 0⟩], none, 4096⟩⟩
    Sorted s.blockSize s.list.dataBlocks ∧ Aligned s.blockSize s.list.dataBlocks ∧
      Placed 1 s.list.dataBlocks ∧ ¬ SizesBounded zeroEnv s 8260 1 1 true := by
  intro s
  refine ⟨by decide, by decide, ⟨by decide, by decide⟩, fun h => ?_⟩
  have hcall : sparseFileResparse zeroEnv 3 s 8260 1 1 = .ok (some
      ⟨⟨40960, ⟨[⟨1, 3, 8192, .data 8192⟩], none, 4096⟩⟩,
        ⟨40960, ⟨[⟨1, 3, 8192, .data 8192⟩], none, 4096⟩⟩,
        [⟨40960, ⟨[⟨0, 1, 8192, .data 0⟩], none, 4096⟩⟩], 3, 4, false⟩) := by decide +kernel
  have hlen : sparseFileLen zeroEnv ⟨40960, ⟨[⟨0, 1, 8192, .data 0⟩], none, 4096⟩⟩ true true =
      .ok 8272 := by
    refine (sparseFileLen_of_readable true (by decide) (by decide) (by decide)).trans ?_
    decide +kernel
  exact absurd (h 3 _ hcall _ (by simp) 8272 hlen) (by decide)

end SystemCore.Libsparse
