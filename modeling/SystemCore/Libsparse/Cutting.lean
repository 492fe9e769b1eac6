import SystemCore.Libsparse.Counter
import SystemCore.Libsparse.Queue

/-!
# One call of move_chunks_up_to_len

The loop over the nodes adds up what they count until one of them cannot be read, all
of them fit, or one of them is too long. `pack` says which, in terms of the list alone,
and `roundOf` which nodes the call then takes and which it leaves.
-/
namespace SystemCore.Libsparse

open List

/-! ## The two parts of a split -/

/-- What `backed_block_split` leaves in the node itself. -/
def firstPart (bs maxLen : UInt32) (bb : BackedBlock) : BackedBlock :=
  if bb.len ≤ alignDown maxLen bs then bb else { bb with len := alignDown maxLen bs }

/-- The node that `backed_block_split` allocates at `addr`. -/
def restPart (bs maxLen : UInt32) (addr : Nat) (bb : BackedBlock) : BackedBlock :=
  ⟨addr, bb.block + alignDown maxLen bs / bs, bb.len - alignDown maxLen bs,
    bb.backing.advance (alignDown maxLen bs).toNat⟩

/-- The nodes behind the first part, if there are any. -/
def secondPart (bs maxLen : UInt32) (addr : Nat) (bb : BackedBlock) : List BackedBlock :=
  if bb.len ≤ alignDown maxLen bs then [] else [restPart bs maxLen addr bb]

theorem splitBb_eq (bs maxLen : UInt32) (addr : Nat) (bb : BackedBlock) :
    splitBb bs maxLen addr bb = firstPart bs maxLen bb :: secondPart bs maxLen addr bb := by
  unfold splitBb firstPart secondPart
  dsimp only
  split <;> rfl

section Parts

variable (bs maxLen : UInt32) (bb : BackedBlock)

@[simp] theorem firstPart_addr : (firstPart bs maxLen bb).addr = bb.addr := by
  unfold firstPart
  split <;> rfl

@[simp] theorem firstPart_block : (firstPart bs maxLen bb).block = bb.block := by
  unfold firstPart
  split <;> rfl

@[simp] theorem firstPart_backing : (firstPart bs maxLen bb).backing = bb.backing := by
  unfold firstPart
  split <;> rfl

@[simp] theorem restPart_addr (addr : Nat) : (restPart bs maxLen addr bb).addr = addr := rfl

theorem firstPart_len :
    (firstPart bs maxLen bb).len.toNat = min bb.len.toNat (alignDown maxLen bs).toNat := by
  unfold firstPart
  split
  · rename_i h
    exact (Nat.min_eq_left h).symm
  · rename_i h
    exact (Nat.min_eq_right (UInt32.not_le.mp h).le).symm

variable {bs maxLen bb}

theorem firstPart_of_le (h : bb.len ≤ alignDown maxLen bs) : firstPart bs maxLen bb = bb := if_pos h

theorem firstPart_len_of_lt (h : alignDown maxLen bs < bb.len) :
    (firstPart bs maxLen bb).len.toNat = (alignDown maxLen bs).toNat := by
  rw [firstPart, if_neg (UInt32.not_le.mpr h)]

theorem restPart_len (h : alignDown maxLen bs < bb.len) (addr : Nat) :
    (restPart bs maxLen addr bb).len.toNat = bb.len.toNat - (alignDown maxLen bs).toNat :=
  UInt32.toNat_sub_of_le _ _ (UInt32.le_of_lt h)

theorem secondPart_of_le (addr : Nat) (h : bb.len ≤ alignDown maxLen bs) :
    secondPart bs maxLen addr bb = [] := if_pos h

theorem secondPart_of_lt (addr : Nat) (h : alignDown maxLen bs < bb.len) :
    secondPart bs maxLen addr bb = [restPart bs maxLen addr bb] := if_neg (UInt32.not_le.mpr h)

theorem mem_secondPart {addr : Nat} {n : BackedBlock} : n ∈ secondPart bs maxLen addr bb ↔
    alignDown maxLen bs < bb.len ∧ n = restPart bs maxLen addr bb := by
  rw [secondPart, ← UInt32.not_le]
  split <;> simp [*]

end Parts

/-! ## The walk over the nodes -/

/-- How the walk ends: at a node that cannot be read, behind the last node, or at the
first node that does not fit behind those `before` it. -/
inductive Packed where
  | failed
  | whole
  | full (before : List BackedBlock) (bb : BackedBlock) (after : List BackedBlock)

/-- Walk on from the nodes `taken`. -/
def pack (env : Env) (bs len : UInt32) : List BackedBlock → List BackedBlock → Packed
  | _, [] => .whole
  | taken, bb :: rest =>
    if readable env bb then
      if countOf env bs (taken ++ [bb]) 0 ≤ len.toNat then pack env bs len (taken ++ [bb]) rest
      else .full taken bb rest
    else .failed

/-- What is left for the payload of the next node. -/
def roomOf (env : Env) (bs len : UInt32) (taken : List BackedBlock) : Int :=
  len.toNat - (countOf env bs taken 0 + 12)

/-- The node that does not fit is taken, up to the room, when it is the first or the
room is more than an eighth. -/
def cuts (env : Env) (bs len : UInt32) (taken : List BackedBlock) : Bool :=
  decide (taken = [] ∨ roomOf env bs len taken > (len / 8).toNat)

theorem cuts_iff {env : Env} {bs len : UInt32} {taken : List BackedBlock} :
    cuts env bs len taken = true ↔ taken = [] ∨ (len.toNat / 8 : Nat) < roomOf env bs len taken := by
  rw [cuts, decide_eq_true_eq, UInt32.toNat_div]
  rfl

def lastAddr (nodes : List BackedBlock) : Option Nat := nodes.getLast?.map (·.addr)

/-- The end of the loop of `move_chunks_up_to_len` over `nodes`. -/
def Packed.moveEnd (env : Env) (bs len : UInt32) (nodes : List BackedBlock) : Packed → MoveEnd
  | .failed => .failed
  | .whole => .move (lastAddr nodes) none false
  | .full a bb _ =>
    if cuts env bs len a then .move (some bb.addr) (some (lowWord (roomOf env bs len a))) true
    else .move (lastAddr a) none true

theorem lastAddr_snoc (l : List BackedBlock) (bb : BackedBlock) :
    lastAddr (l ++ [bb]) = some bb.addr := by
  simp [lastAddr]

theorem lastAddr_eq_none {l : List BackedBlock} : lastAddr l = none ↔ l = [] := by
  simp [lastAddr]

theorem moveLoop_eq (env : Env) (bs len : UInt32) (rest : List BackedBlock) :
    ∀ (taken : List BackedBlock) (out : OutputFile Int), out.sparse = true → out.blockSize = bs →
      moveLoop env bs len rest out (lastAddr taken) (countOf env bs taken 0)
        (lastBlockOf bs taken 0) = (pack env bs len taken rest).moveEnd env bs len (taken ++ rest) := by
  induction rest with
  | nil =>
    intro taken out _ _
    rw [append_nil]
    rfl
  | cons bb rest ih =>
    intro taken out hs hb
    have hcount : (if lastBlockOf bs taken 0 < bb.block then (12 : Int) else 0) =
      gapCount (lastBlockOf bs taken 0) bb.block := rfl
    simp only [moveLoop, pack, hcount]
    cases hr : readable env bb with
    | false =>
      obtain ⟨ret, hret, h⟩ := sparseFileWriteBlock_refused counterOps
        { out with dev := gapCount (lastBlockOf bs taken 0) bb.block } hr
      simp only [h, if_pos hret.ne]
      rfl
    | true =>
      obtain ⟨o, ho, hc⟩ := @writeBlock_counts env
        { out with dev := gapCount (lastBlockOf bs taken 0) bb.block } bb hs hr
      have hsum : countOf env bs taken 0 + o.dev = countOf env bs (taken ++ [bb]) 0 := by
        rw [hc.dev, countOf_snoc, ← hb]
      have hnext : nextBlock bs bb = lastBlockOf bs (taken ++ [bb]) 0 := by
        rw [lastBlockOf_append]
        rfl
      simp only [ho, hsum, hnext, ← lastAddr_snoc taken bb]
      rw [if_neg (by simp), if_pos trivial]
      by_cases hfit : countOf env bs (taken ++ [bb]) 0 ≤ len.toNat
      · rw [if_neg (by omega), if_pos hfit, ih _ o (hc.sparse.trans hs) (hc.blockSize.trans hb)]
        simp
      · rw [if_pos (by omega), if_neg hfit]
        simp only [Packed.moveEnd, lastAddr_eq_none, lastAddr_snoc, cuts, decide_eq_true_eq]
        rfl

/-- The nodes `a` can be read, and all that is counted up to each of them fits. -/
structure Walked (env : Env) (bs len : UInt32) (a : List BackedBlock) : Prop where
  readable : ∀ n ∈ a, readable env n = true
  fits : ∀ l, l <+: a → countOf env bs l 0 ≤ len.toNat

/-- The node `bb` behind `a` is the first that does not fit. -/
structure Meets (env : Env) (bs len : UInt32) (nodes a : List BackedBlock) (bb : BackedBlock)
    (b : List BackedBlock) : Prop where
  nodes_eq : nodes = a ++ bb :: b
  walked : Walked env bs len a
  readable : readable env bb = true
  tooLong : len.toNat < countOf env bs (a ++ [bb]) 0

/-- The node `bb` is cut to `room` bytes. -/
structure CutAt (env : Env) (bs len : UInt32) (nodes a : List BackedBlock) (bb : BackedBlock)
    (b : List BackedBlock) (room : Int) : Prop extends Meets env bs len nodes a bb b where
  cut : cuts env bs len a = true
  room_eq : roomOf env bs len a = room

variable {nodes : List BackedBlock}

section Walk

variable {env : Env} {bs len : UInt32} {a : List BackedBlock}

theorem walked_nil : Walked env bs len [] where
  readable := by simp
  fits l h := by simp [prefix_nil.mp h, countOf]

variable {bb : BackedBlock} {b : List BackedBlock}

theorem walked_snoc : Walked env bs len (a ++ [bb]) ↔ Walked env bs len a ∧
    readable env bb = true ∧ countOf env bs (a ++ [bb]) 0 ≤ len.toNat := by
  constructor
  · intro h
    refine ⟨⟨fun n hn => h.readable n (mem_append_left _ hn), fun l hl => ?_⟩,
      h.readable bb (by simp), h.fits _ prefix_rfl⟩
    exact h.fits l (hl.trans (prefix_append a [bb]))
  · rintro ⟨h, hr, hfit⟩
    refine ⟨fun n hn => ?_, fun l hl => ?_⟩
    · rcases mem_append.mp hn with hn | hn
      · exact h.readable n hn
      · rwa [mem_singleton.mp hn]
    · rcases prefix_concat_iff.mp hl with rfl | hl
      · exact hfit
      · exact h.fits l hl

/-- The walk gets through such nodes, whatever comes behind. -/
theorem Walked.same (h : Walked env bs len a) (rest : List BackedBlock) :
    pack env bs len [] (a ++ rest) = pack env bs len a rest := by
  induction a using reverseRecOn generalizing rest with
  | nil => rfl
  | append_singleton a bb ih =>
    obtain ⟨h, hr, hfit⟩ := walked_snoc.mp h
    rw [append_assoc, ih h]
    simp [pack, hr, hfit]

theorem pack_cases_from (rest : List BackedBlock) : ∀ taken, Walked env bs len taken →
    (pack env bs len taken rest = .failed ∧ ∃ bb ∈ rest, readable env bb = false) ∨
      (pack env bs len taken rest = .whole ∧ Walked env bs len (taken ++ rest)) ∨
      ∃ a bb b, pack env bs len taken rest = .full a bb b ∧
        Meets env bs len (taken ++ rest) a bb b := by
  induction rest with
  | nil =>
    intro taken h
    exact .inr (.inl ⟨rfl, by rwa [append_nil]⟩)
  | cons bb rest ih =>
    intro taken h
    cases hr : readable env bb with
    | false => exact .inl ⟨by simp [pack, hr], bb, by simp, hr⟩
    | true =>
      by_cases hfit : countOf env bs (taken ++ [bb]) 0 ≤ len.toNat
      · have hp : pack env bs len taken (bb :: rest) = pack env bs len (taken ++ [bb]) rest := by
          simp [pack, hr, hfit]
        have he : taken ++ bb :: rest = taken ++ [bb] ++ rest := by simp
        rw [hp, he]
        rcases ih _ (walked_snoc.mpr ⟨h, hr, hfit⟩) with ⟨h1, n, hn, hnr⟩ | h1
        · exact .inl ⟨h1, n, mem_cons_of_mem _ hn, hnr⟩
        · exact .inr h1
      · exact .inr (.inr ⟨taken, bb, rest, by simp [pack, hr, hfit], rfl, h, hr, by omega⟩)

theorem pack_cases (env : Env) (bs len : UInt32) (nodes : List BackedBlock) :
    (pack env bs len [] nodes = .failed ∧ ∃ bb ∈ nodes, readable env bb = false) ∨
      (pack env bs len [] nodes = .whole ∧ Walked env bs len nodes) ∨
      ∃ a bb b, pack env bs len [] nodes = .full a bb b ∧ Meets env bs len nodes a bb b := by
  simpa using pack_cases_from nodes [] walked_nil

/-- A node that does not fit behind nodes the walk gets through ends it. -/
theorem Meets.pack_eq (h : Meets env bs len nodes a bb b) :
    pack env bs len [] nodes = .full a bb b := by
  rw [h.nodes_eq, h.walked.same]
  have hover := h.tooLong
  simp only [pack, h.readable, if_true]
  rw [if_neg (by omega)]

theorem Meets.unique {a' b' : List BackedBlock} {bb' : BackedBlock}
    (h : Meets env bs len nodes a bb b) (h' : Meets env bs len nodes a' bb' b') :
    a = a' ∧ bb = bb' ∧ b = b' := by
  simpa using h.pack_eq.symm.trans h'.pack_eq

theorem Walked.pack_eq (h : Walked env bs len nodes) : pack env bs len [] nodes = .whole := by
  have hs := h.same []
  rw [append_nil] at hs
  rw [hs]
  rfl

end Walk

/-! ## What the call takes -/

/-- What a call takes from a list and leaves in it, the next address, whether it
returned a block, and whether a block write failed. -/
structure Outcome where
  taken : List BackedBlock
  left : List BackedBlock
  fresh : Nat
  more : Bool
  failed : Bool

/-- The outcome on `nodes`, once the walk has ended. -/
def Packed.outcome (env : Env) (bs len : UInt32) (fresh : Nat) (nodes : List BackedBlock) :
    Packed → Outcome
  | .failed => ⟨[], nodes, fresh, false, true⟩
  | .whole => ⟨nodes, [], fresh + 1, false, false⟩
  | .full a bb b =>
    if cuts env bs len a then
      let maxLen := lowWord (roomOf env bs len a)
      ⟨a ++ [firstPart bs maxLen bb], secondPart bs maxLen fresh bb ++ b, fresh + 1, true, false⟩
    else ⟨a, bb :: b, fresh + 1, true, false⟩

/-- The outcome of `move_chunks_up_to_len` on `nodes`. Nothing is moved, and no error
is seen, when the counter cannot be opened. -/
def roundOf (env : Env) (bs maxLen : UInt32) (fresh : Nat) (nodes : List BackedBlock) : Outcome :=
  if bs.toNat < 2 ^ 31 then
    (pack env bs (maxLen - 56) [] nodes).outcome env bs (maxLen - 56) fresh nodes
  else ⟨[], nodes, fresh, false, false⟩

section Ends

variable {env : Env} {bs maxLen : UInt32} {a b : List BackedBlock} {bb : BackedBlock}
  (hbs : bs.toNat < 2 ^ 31)

include hbs

theorem CutAt.roundOf_eq {room : Int} (h : CutAt env bs (maxLen - 56) nodes a bb b room)
    (fresh : Nat) : roundOf env bs maxLen fresh nodes = ⟨a ++ [firstPart bs (lowWord room) bb],
      secondPart bs (lowWord room) fresh bb ++ b, fresh + 1, true, false⟩ := by
  rw [roundOf, if_pos hbs, h.pack_eq, ← h.room_eq]
  exact if_pos h.cut

theorem Meets.roundOf_eq (h : Meets env bs (maxLen - 56) nodes a bb b)
    (hc : cuts env bs (maxLen - 56) a = false) (fresh : Nat) :
    roundOf env bs maxLen fresh nodes = ⟨a, bb :: b, fresh + 1, true, false⟩ := by
  rw [roundOf, if_pos hbs, h.pack_eq]
  exact if_neg (by simp [hc])

theorem Walked.roundOf_eq (h : Walked env bs (maxLen - 56) nodes) (fresh : Nat) :
    roundOf env bs maxLen fresh nodes = ⟨nodes, [], fresh + 1, false, false⟩ := by
  rw [roundOf, if_pos hbs, h.pack_eq]
  rfl

end Ends

/-- A file of length `len` with these nodes, as `sparse_file_resparse` makes them. -/
def fileOf (len : Int) (bs : UInt32) (nodes : List BackedBlock) : SparseFile :=
  ⟨len, ⟨nodes, none, bs⟩⟩

/-- The addresses of the nodes are different, and older than `fresh`. -/
structure Placed (fresh : Nat) (nodes : List BackedBlock) : Prop where
  nodup : (nodes.map (·.addr)).Nodup
  old : ∀ n ∈ nodes, n.addr < fresh

section Lists

variable {bs : UInt32} {lu : Option Nat} {a b : List BackedBlock} {last : BackedBlock}

theorem addr_notMem {bb : BackedBlock} (h : ((a ++ bb :: b).map (·.addr)).Nodup) :
    (∀ n ∈ a, n.addr ≠ bb.addr) ∧ ∀ n ∈ b, n.addr ≠ bb.addr := by
  simp only [map_append, map_cons, nodup_append, nodup_cons, mem_cons,
    mem_map] at h
  obtain ⟨_, ⟨hb, _⟩, hab⟩ := h
  exact ⟨fun n hn => hab _ ⟨n, hn, rfl⟩ _ (.inl rfl), fun n hn he => hb ⟨n, hn, he⟩⟩

/-- Splitting a node whose address is not shared replaces it by its parts. -/
theorem backedBlockSplit_eq {bb : BackedBlock} (hbs : 0 < bs.toNat)
    (h : ((a ++ bb :: b).map (·.addr)).Nodup) (maxLen : UInt32) (addr : Nat) :
    backedBlockSplit ⟨a ++ bb :: b, lu, bs⟩ bb.addr maxLen addr =
      .ok ⟨a ++ firstPart bs maxLen bb :: (secondPart bs maxLen addr bb ++ b), lu, bs⟩ := by
  have hne : bs ≠ 0 := fun h => by simp [h] at hbs
  obtain ⟨ha, hb⟩ := addr_notMem h
  have hkeep : ∀ l : List BackedBlock, (∀ n ∈ l, n.addr ≠ bb.addr) → (l.flatMap fun n =>
      if n.addr = bb.addr then splitBb bs maxLen addr n else [n]) = l := by
    intro l hl
    induction l with
    | nil => rfl
    | cons n l ih =>
      rw [flatMap_cons, if_neg (hl n (by simp)), ih fun m hm => hl m (by simp [hm])]
      rfl
  have hany : (a ++ bb :: b).all (fun n => n.addr != bb.addr) = false := by simp
  simp only [backedBlockSplit, if_neg hne, hany, Bool.false_eq_true, if_false]
  rw [flatMap_append, flatMap_cons, hkeep a ha, hkeep b hb, if_pos rfl, splitBb_eq]
  rfl

/-- Moving the nodes from the head to the one behind `a`. -/
theorem segment_upto (ha : ∀ n ∈ a, n.addr ≠ last.addr) :
    segment (a ++ last :: b) ((a ++ last :: b).head?.map (·.addr)) (some last.addr) =
      some ([], a ++ [last], b) := by
  have hbefore : nodesBefore (a ++ last :: b) (some last.addr) = a := by
    simp only [nodesBefore]
    rw [takeWhile_append_of_pos (by simpa using ha)]
    simp
  have hstart : nodesBefore (a ++ last :: b) ((a ++ last :: b).head?.map (·.addr)) = [] := by
    cases a <;> simp [nodesBefore]
  obtain ⟨hd, tl, hl⟩ : ∃ hd tl, a ++ last :: b = hd :: tl := by cases a <;> simp
  have hdrop : (hd :: tl).drop a.length = last :: b := by
    rw [← hl, drop_left]
  unfold segment
  rw [hstart]
  simp only [length_nil, drop_zero]
  rw [hl] at hbefore ⊢
  simp only [hbefore, hdrop]

theorem backedBlockListMove_upto {lu : Option Nat} (ha : ∀ n ∈ a, n.addr ≠ last.addr) :
    backedBlockListMove ⟨a ++ last :: b, lu, bs⟩ ⟨[], none, bs⟩
        ((a ++ last :: b).head?.map (·.addr)) (some last.addr) =
      .ok (⟨b, none, bs⟩, ⟨a ++ [last], none, bs⟩) := by
  have hseg := @segment_upto a b last ha
  have hattach : ∀ seg, attach ⟨[], none, bs⟩ seg = ⟨seg, none, bs⟩ := by
    intro seg
    cases seg <;> rfl
  have hdetach : detach ⟨a ++ last :: b, lu, bs⟩ ((a ++ last :: b).head?.map (·.addr))
      (some last.addr) = .ok (a ++ [last], ⟨b, none, bs⟩) := by
    unfold detach
    rw [hseg]
    obtain ⟨hd, tl, hl⟩ : ∃ hd tl, a ++ [last] = hd :: tl := by cases a <;> simp
    rw [hl]
    rfl
  unfold backedBlockListMove
  rw [hdetach]
  simp only [hattach]

end Lists

theorem backedBlockListMove_whole (h : (nodes.map (·.addr)).Nodup) (lu : Option Nat) (bs : UInt32) :
    ∃ lu', backedBlockListMove ⟨nodes, lu, bs⟩ ⟨[], none, bs⟩ (nodes.head?.map (·.addr))
      (lastAddr nodes) = .ok (⟨[], lu', bs⟩, ⟨nodes, none, bs⟩) := by
  rcases eq_nil_or_concat nodes with rfl | ⟨a, last, rfl⟩
  · exact ⟨lu, rfl⟩
  · rw [concat_eq_append] at h ⊢
    rw [lastAddr_snoc]
    exact ⟨none, backedBlockListMove_upto (addr_notMem h).1⟩

/-- A call of `move_chunks_up_to_len` into a new file. -/
theorem moveChunksUpToLen_eq (env : Env) {bs : UInt32} (hbs : 0 < bs.toNat) (L : Int)
    (lu : Option Nat) (maxLen : UInt32) (fresh : Nat) (h : (nodes.map (·.addr)).Nodup) :
    ∃ lu', moveChunksUpToLen env ⟨L, ⟨nodes, lu, bs⟩⟩ (sparseFileNew bs L) maxLen fresh =
      .ok ⟨⟨L, ⟨(roundOf env bs maxLen fresh nodes).left, lu', bs⟩⟩,
        fileOf L bs (roundOf env bs maxLen fresh nodes).taken,
        (roundOf env bs maxLen fresh nodes).fresh, (roundOf env bs maxLen fresh nodes).more,
        (roundOf env bs maxLen fresh nodes).failed⟩ := by
  by_cases hbs' : bs.toNat < 2 ^ 31
  · obtain ⟨out, ho, -, -, hb, hs⟩ := outputFileInit_counter L 0 false hbs hbs'
    have hloop : moveLoop env bs (maxLen - 56) nodes out none 0 0 = _ :=
      moveLoop_eq env bs (maxLen - 56) nodes [] out hs hb
    simp only [moveChunksUpToLen, sparseFileNew, backedBlockListNew, ho, hloop, roundOf,
      if_pos hbs', nil_append]
    rcases pack_cases env bs (maxLen - 56) nodes with ⟨hp, -⟩ | ⟨hp, -⟩ | ⟨a, bb, b, hp, hm⟩
    · simp only [hp]
      exact ⟨lu, rfl⟩
    · obtain ⟨lu', hmove⟩ := backedBlockListMove_whole h lu bs
      simp only [hp, Packed.moveEnd, Packed.outcome]
      refine ⟨lu', ?_⟩
      cases hl : lastAddr nodes <;> rw [hl] at hmove <;> simp only [hmove] <;> rfl
    · obtain rfl := hm.nodes_eq
      cases hc : cuts env bs (maxLen - 56) a with
      | true =>
        -- the node is split, and the part that keeps its address ends what is moved
        set m := lowWord (roomOf env bs (maxLen - 56) a) with hmdef
        have hsplit := @backedBlockSplit_eq bs lu a b bb hbs h m fresh
        have hmove := @backedBlockListMove_upto bs a (secondPart bs m fresh bb ++ b)
          (firstPart bs m bb) lu (by simpa using (addr_notMem h).1)
        rw [firstPart_addr] at hmove
        simp only [hp, Packed.moveEnd, Packed.outcome, hc, if_true, ← hmdef, hsplit, hmove]
        exact ⟨none, rfl⟩
      | false =>
        simp only [cuts, decide_eq_false_iff_not, not_or] at hc
        obtain ⟨x, last, rfl⟩ : ∃ x last, a = x ++ [last] :=
          (eq_nil_or_concat' a).resolve_left hc.1
        have hcut : cuts env bs (maxLen - 56) (x ++ [last]) = false := by
          simpa [cuts] using hc
        rw [append_assoc] at h
        have hmove := @backedBlockListMove_upto bs x (bb :: b) last lu (addr_notMem h).1
        rw [append_assoc, singleton_append] at hp ⊢
        simp only [hp, Packed.moveEnd, Packed.outcome, hcut, Bool.false_eq_true, if_false,
          lastAddr_snoc, hmove]
        exact ⟨none, rfl⟩
  · refine ⟨lu, ?_⟩
    simp only [moveChunksUpToLen, sparseFileNew, backedBlockListNew,
      outputFileInit_refused L 0 false counterOps 0 true (Nat.le_of_not_lt hbs'), roundOf, if_neg hbs']
    rfl

end SystemCore.Libsparse
