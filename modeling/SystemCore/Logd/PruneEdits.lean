import SystemCore.Logd.LogBuffer
import Mathlib.Logic.Relation

/-!
# What pruning does to the buffer

Pruning of a log id is a sequence of edits, each to one element of that log id that no reader
holds, or to two: an element is erased, a message is dropped, a count of dropped messages
is merged into an earlier one, a watermark is set; and readers are told to skip or to end.
Every fact about pruning is derived from what one edit does. Whether the loops find what
their pointers say is shown here too, and that they end.
-/
namespace SystemCore.Logd

open List Relation

variable {μ : Type} {id : LogId} {held : LogBufferElement μ → Prop} {b b' : LogBuffer μ}
  {e l : LogBufferElement μ} {addr pruneRows : Nat}

namespace LogBuffer

def setElements (l : List (LogBufferElement μ)) (b : LogBuffer μ) : LogBuffer μ :=
  { b with mLogElements := l }

/-- One edit of the elements of `id` that are not `held`. -/
inductive Edit (id : LogId) (held : LogBufferElement μ → Prop) :
    LogBuffer μ → LogBuffer μ → Prop
  | erase {b : LogBuffer μ} {e : LogBufferElement μ} {pre post : List (LogBufferElement μ)}
      (hb : b.mLogElements = pre ++ e :: post) (hid : e.mLogId = id) (hheld : ¬ held e) :
      Edit id held b ((b.setElements (pre ++ post)).erase e true)
  | merge {b : LogBuffer μ} {l e : LogBufferElement μ} {pre mid post : List (LogBufferElement μ)}
      (hb : b.mLogElements = pre ++ l :: (mid ++ e :: post))
      (hl : l.mLogId = id ∧ ¬ held l ∧ l.mMsg = none) (he : e.mLogId = id ∧ ¬ held e ∧ e.mMsg = none)
      (hkey : l.key = e.key) (hfit : e.getDropped.toNat + l.getDropped.toNat ≤ 65535) :
      Edit id held b ((b.setElements
        (pre ++ l.setDropped (e.getDropped + l.getDropped) :: (mid ++ post))).erase e false)
  | drop {b : LogBuffer μ} {e : LogBufferElement μ} {pre post : List (LogBufferElement μ)}
      (hb : b.mLogElements = pre ++ e :: post) (hid : e.mLogId = id) (hheld : ¬ held e)
      (hdropped : e.getDropped = 0) :
      Edit id held b { b.setElements (pre ++ e.setDropped 1 :: post) with stats := b.stats.drop e }
  | mark {b : LogBuffer μ} {e : LogBufferElement μ} (he : e ∈ b.mLogElements) (hid : e.mLogId = id) :
      Edit id held b (b.setMark id e.mUid (some e.addr))
  | readers {b : LogBuffer μ} (mTimes : List LogTimeEntry) : Edit id held b { b with mTimes }

def Edits (id : LogId) (held : LogBufferElement μ → Prop) : LogBuffer μ → LogBuffer μ → Prop :=
  ReflTransGen (Edit id held)

/-- A fact that every edit keeps is kept by pruning. -/
theorem Edits.keeps {P : LogBuffer μ → Prop}
    (hstep : ∀ b b', Edit id held b b' → P b → P b') (h : Edits id held b b') (hb : P b) : P b' := by
  induction h with
  | refl => exact hb
  | tail _ hedit ih => exact hstep _ _ hedit ih

/-! ## Edits and the iterator -/

variable {todo : List (LogBufferElement μ)}

@[simp] theorem keep_behind : (b.keep e).behind todo = b.behind (e :: todo) := by
  simp [keep, behind]

@[simp] theorem erase_mLogElements (s : Bool) :
    (b.erase e s).mLogElements = b.mLogElements := by
  unfold erase
  simp only []
  split <;> rfl

theorem erase_behind (s : Bool) : (b.erase e s).behind todo = (b.behind todo).erase e s := by
  unfold erase
  have h : (b.behind todo).mLastWorstUid = b.mLastWorstUid := rfl
  rw [h]
  by_cases hmark : b.mLastWorstUid e.mLogId e.mUid = some e.addr
  · simp only [if_pos hmark]
    rfl
  · simp only [if_neg hmark]
    rfl

theorem setMark_behind (id : LogId) (uid : UInt32) (mark : Option Nat) :
    (b.setMark id uid mark).behind todo = (b.behind todo).setMark id uid mark := rfl

end LogBuffer

open LogBuffer

/-! ## The addresses of elements -/

def AddrsDistinct (l : List (LogBufferElement μ)) : Prop := (l.map (·.addr)).Nodup

/-- The edits keep what they leave in its order, as far as the count of an element is of no
account. -/
theorem LogBuffer.Edit.map_sublist {α : Type} (h : Edit id held b b') (g : LogBufferElement μ → α)
    (hg : ∀ value e, g (e.setDropped value) = g e) :
    (b'.mLogElements.map g).Sublist (b.mLogElements.map g) := by
  cases h with
  | erase hb => simp [hb, setElements]
  | merge hb =>
    simp only [hb, erase_mLogElements, setElements, map_append, map_cons, hg]
    exact Sublist.append_left (Sublist.cons_cons _
      (Sublist.append_left (sublist_cons_self _ _) _)) _
  | drop hb => simp [hb, setElements, hg]
  | mark => exact Sublist.refl _
  | readers => exact Sublist.refl _

theorem LogBuffer.Edit.addrs_sublist (h : Edit id held b b') :
    (b'.mLogElements.map (·.addr)).Sublist (b.mLogElements.map (·.addr)) :=
  h.map_sublist (·.addr) fun _ _ => rfl

theorem LogBuffer.Edits.addrsDistinct (h : Edits id held b b')
    (hb : AddrsDistinct b.mLogElements) : AddrsDistinct b'.mLogElements :=
  h.keeps (P := fun b => AddrsDistinct b.mLogElements)
    (fun _ _ hedit hd => Nodup.sublist hedit.addrs_sublist hd) hb

/-! ## Messages -/

/-- How many elements are messages and not counts of dropped ones. -/
def LogBuffer.messages (b : LogBuffer μ) : Nat := b.mLogElements.countP fun e => e.getDropped = 0

/-- A count that takes up another is no message, unless it was one. -/
theorem getDropped_merged (hfit : e.getDropped.toNat + l.getDropped.toNat ≤ 65535)
    (hzero : (l.setDropped (e.getDropped + l.getDropped)).getDropped = 0) : l.getDropped = 0 := by
  change e.getDropped + l.getDropped = 0 at hzero
  have hsum := congrArg UInt16.toNat hzero
  rw [UInt16.toNat_add, Nat.mod_eq_of_lt (by omega)] at hsum
  refine UInt16.toNat_inj.mp ?_
  change l.getDropped.toNat = 0
  change e.getDropped.toNat + l.getDropped.toNat = 0 at hsum
  omega

theorem LogBuffer.Edit.messages_le (h : Edit id held b b') : b'.messages ≤ b.messages := by
  unfold messages
  cases h with
  | erase hb =>
    rw [hb, erase_mLogElements]
    exact (Sublist.append_left (sublist_cons_self _ _) _).countP_le
  | @merge l e pre mid post hb hl he hkey hfit =>
    rw [hb, erase_mLogElements]
    simp only [setElements, countP_append, countP_cons]
    have himp : (if decide ((l.setDropped (e.getDropped + l.getDropped)).getDropped = 0) = true
        then 1 else 0) ≤ if decide (l.getDropped = 0) = true then 1 else 0 := by
      split_ifs with hnew hold
      · exact Nat.le_refl 1
      · exact absurd (decide_eq_true (getDropped_merged hfit (of_decide_eq_true hnew))) hold
      · exact Nat.zero_le 1
      · exact Nat.le_refl 0
    omega
  | drop hb =>
    rw [hb]
    simp only [setElements, countP_append, countP_cons]
    rw [if_neg]
    · omega
    · rw [LogBufferElement.getDropped_setDropped]
      decide
  | mark => exact Nat.le_refl _
  | readers => exact Nat.le_refl _

theorem LogBuffer.Edits.messages_le (h : Edits id held b b') : b'.messages ≤ b.messages :=
  h.keeps (P := fun b' => b'.messages ≤ b.messages)
    (fun _ _ hedit hle => Nat.le_trans hedit.messages_le hle) (Nat.le_refl _)

/-! ## The watermarks -/

def MarksValid (b : LogBuffer μ) : Prop :=
  ∀ id uid addr, b.mLastWorstUid id uid = some addr →
    ∃ e ∈ b.mLogElements, e.addr = addr ∧ e.mLogId = id ∧ e.mUid = uid

theorem setMark_mLastWorstUid (b : LogBuffer μ) (id id' : LogId) (uid uid' : UInt32)
    (mark : Option Nat) :
    (b.setMark id uid mark).mLastWorstUid id' uid' =
      if id' = id ∧ uid' = uid then mark else b.mLastWorstUid id' uid' := by
  unfold setMark
  by_cases hid : id' = id
  · subst hid
    by_cases huid : uid' = uid
    · subst huid
      simp
    · simp [huid]
  · simp [hid]

theorem erase_mLastWorstUid (b : LogBuffer μ) (e : LogBufferElement μ) (s : Bool) (id : LogId)
    (uid : UInt32) :
    (b.erase e s).mLastWorstUid id uid =
      if id = e.mLogId ∧ uid = e.mUid ∧ b.mLastWorstUid id uid = some e.addr then none
      else b.mLastWorstUid id uid := by
  unfold erase
  by_cases h : b.mLastWorstUid e.mLogId e.mUid = some e.addr
  · simp only [if_pos h]
    rw [setMark_mLastWorstUid]
    by_cases hk : id = e.mLogId ∧ uid = e.mUid
    · rw [if_pos hk, if_pos ⟨hk.1, hk.2, by rw [hk.1, hk.2, h]⟩]
    · rw [if_neg hk, if_neg fun h' => hk ⟨h'.1, h'.2.1⟩]
  · simp only [if_neg h]
    rw [if_neg]
    rintro ⟨rfl, rfl, h'⟩
    exact h h'

/-- What a watermark tells of its element. -/
def place (e : LogBufferElement μ) : Nat × LogId × UInt32 := (e.addr, e.mLogId, e.mUid)

@[simp] theorem place_setDropped (value : UInt16) : place (e.setDropped value) = place e := rfl

theorem marksValid_iff : MarksValid b ↔ ∀ id uid addr, b.mLastWorstUid id uid = some addr →
    (addr, id, uid) ∈ b.mLogElements.map place := by
  simp [MarksValid, place]

/-- An element goes and its watermark with it. -/
theorem MarksValid.erase {l : List (LogBufferElement μ)} (h : MarksValid b) (s : Bool)
    (hl : (b.mLogElements.map place).Perm (place e :: l.map place)) :
    MarksValid ((b.setElements l).erase e s) := by
  rw [marksValid_iff] at h ⊢
  intro id uid addr hmark
  rw [erase_mLastWorstUid] at hmark
  split at hmark
  case isTrue => cases hmark
  case isFalse hne =>
    have hmark : b.mLastWorstUid id uid = some addr := hmark
    rw [erase_mLogElements]
    rcases mem_cons.mp (hl.mem_iff.mp (h id uid addr hmark)) with heq | hmem
    · cases heq
      exact absurd ⟨rfl, rfl, hmark⟩ hne
    · exact hmem

theorem LogBuffer.Edit.marksValid (h : Edit id held b b') (hb : MarksValid b) : MarksValid b' := by
  cases h with
  | erase hsplit =>
    refine hb.erase true ?_
    simp [hsplit]
  | @merge l e pre mid post hsplit =>
    refine hb.erase false ?_
    rw [hsplit]
    have hperm := @perm_middle _ (place e) (pre.map place ++ place l :: mid.map place) (post.map place)
    simpa using hperm
  | drop hsplit =>
    rw [marksValid_iff] at hb ⊢
    simpa [hsplit, setElements] using hb
  | @mark e he hid =>
    intro id' uid addr hmark
    rw [setMark_mLastWorstUid] at hmark
    split at hmark
    case isTrue hk =>
      obtain rfl := Option.some.inj hmark
      exact ⟨e, he, rfl, hid.trans hk.1.symm, hk.2.symm⟩
    case isFalse => exact hb id' uid addr hmark
  | readers => exact hb

/-- What pruning relies on: addresses tell elements apart, and the watermarks are at
elements. -/
structure Valid (b : LogBuffer μ) : Prop where
  distinct : AddrsDistinct b.mLogElements
  marks : MarksValid b

theorem LogBuffer.Edits.valid (h : Edits id held b b') (hb : Valid b) : Valid b' :=
  ⟨h.addrsDistinct hb.distinct, h.keeps (fun _ _ hedit => hedit.marksValid) hb.marks⟩

/-! ## The pointers of a pass -/

namespace Pass

variable {c : Batch μ} {p q : Pass μ}

/-- An element that a count may be merged into. -/
def Mergeable (c : Batch μ) (l : LogBufferElement μ) : Prop :=
  l.mLogId = c.id ∧ ¬ locked c.oldest l ∧ l.mMsg = none

theorem Mergeable.setDropped (h : Mergeable c l) (value : UInt16) :
    Mergeable c (l.setDropped value) :=
  ⟨h.1, h.2.1, rfl⟩

/-- Every pointer of `last` is to an element under its key. -/
def LastSound (c : Batch μ) (p : Pass μ) : Prop :=
  ∀ x ∈ p.last, ∃ l, p.element x.2 = some l ∧ l.key = x.1 ∧ Mergeable c l

theorem LastSound.filter (h : LastSound c p) (f : ElementKey × Nat → Bool) :
    LastSound c { p with last := p.last.filter f } :=
  fun x hx => h x (mem_of_mem_filter hx)

theorem element_of_elements (h : q.b.mLogElements = p.b.mLogElements) (addr : Nat) :
    q.element addr = p.element addr := by
  unfold element
  rw [h]

theorem LastSound.of_elements (h : LastSound c p) (hlast : q.last = p.last)
    (hq : q.b.mLogElements = p.b.mLogElements) : LastSound c q := by
  intro x hx
  rw [hlast] at hx
  rw [element_of_elements hq]
  exact h x hx

theorem element_keep (h : p.element addr = some l) : (p.keep e).element addr = some l := by
  unfold element at h ⊢
  simp only [keep, LogBuffer.keep, find?_append, h, Option.some_or]

theorem LastSound.keep (h : LastSound c p) (e : LogBufferElement μ) : LastSound c (p.keep e) := by
  intro x hx
  obtain ⟨l, hl, hrest⟩ := h x hx
  exact ⟨l, element_keep hl, hrest⟩

theorem LastSound.erase (h : LastSound c p) (e : LogBufferElement μ) (s : Bool) :
    LastSound c (p.erase e s) :=
  h.of_elements rfl (erase_mLogElements s)

/-- An element that is kept is found at its address when no element in front of it has that
address. -/
theorem element_keep_self (h : e.addr ∉ p.b.mLogElements.map (·.addr)) :
    (p.keep e).element e.addr = some e := by
  have hnone : p.b.mLogElements.find? (fun l => l.addr = e.addr) = none := by
    rw [find?_eq_none]
    intro l hl heq
    rw [decide_eq_true_eq] at heq
    exact h (heq ▸ mem_map_of_mem hl)
  unfold element
  simp [keep, LogBuffer.keep, find?_append, hnone]

theorem LastSound.add_keep (h : LastSound c p) (he : Mergeable c e)
    (hfresh : e.addr ∉ p.b.mLogElements.map (·.addr)) : LastSound c ((p.add e).keep e) := by
  intro x hx
  rcases mem_cons.mp hx with rfl | hx
  · exact ⟨e, element_keep_self hfresh, rfl, he⟩
  · exact (h.filter _).keep e x hx

theorem clear_spec (h : LastSound c p) (e : LogBufferElement μ) :
    ∃ f, p.clear e = .ok { p with last := p.last.filter f } := by
  unfold clear
  rw [if_pos]
  · exact ⟨_, rfl⟩
  · intro x hx
    obtain ⟨l, hl, -⟩ := h x hx
    rw [hl]
    rfl

theorem mem_of_lookup {k : ElementKey} :
    ∀ {last : List (ElementKey × Nat)}, last.lookup k = some addr → (k, addr) ∈ last
  | [], h => by cases h
  | (k', a) :: last, h => by
    rw [lookup_cons] at h
    split at h
    case h_1 heq =>
      obtain rfl := eq_of_beq heq
      obtain rfl := Option.some.inj h
      exact mem_cons_self
    case h_2 => exact mem_cons_of_mem _ (mem_of_lookup h)

variable {pre mid : List (LogBufferElement μ)}

theorem setDroppedAt_split (value : UInt16) (hpre : ∀ x ∈ pre, x.addr ≠ l.addr) :
    setDroppedAt l.addr value (pre ++ l :: mid) = pre ++ l.setDropped value :: mid := by
  induction pre with
  | nil => exact if_pos rfl
  | cons x pre ih =>
    rw [cons_append, setDroppedAt, if_neg (hpre x mem_cons_self),
      ih fun y hy => hpre y (mem_cons_of_mem x hy), cons_append]

/-- An element that is set to dropped is found where it was, and the others as they were. -/
theorem find_setDropped {x : LogBufferElement μ} (value : UInt16)
    (h : (pre ++ l :: mid).find? (fun y => y.addr = addr) = some x) :
    (pre ++ l.setDropped value :: mid).find? (fun y => y.addr = addr) = some x ∨
      x = l ∧ (pre ++ l.setDropped value :: mid).find? (fun y => y.addr = addr)
        = some (l.setDropped value) := by
  rw [find?_append] at h ⊢
  cases hpre : pre.find? fun y => y.addr = addr with
  | some y =>
    rw [hpre] at h
    exact .inl h
  | none =>
    rw [hpre, Option.none_or, find?_cons] at h
    rw [Option.none_or, find?_cons]
    by_cases hl : l.addr = addr
    · rw [decide_eq_true hl] at h
      have hl' : (l.setDropped value).addr = addr := hl
      rw [decide_eq_true hl']
      exact .inr ⟨(Option.some.inj h).symm, rfl⟩
    · rw [decide_eq_false hl] at h
      have hl' : ¬ (l.setDropped value).addr = addr := hl
      rw [decide_eq_false hl']
      exact .inl h

theorem LastSound.setDropped (h : LastSound c p) (hp : p.b.mLogElements = pre ++ l :: mid)
    (value : UInt16) :
    LastSound c { p with b := p.b.setElements (pre ++ l.setDropped value :: mid) } := by
  intro x hx
  obtain ⟨y, hy, hkey, hm⟩ := h x hx
  unfold element at hy
  rw [hp] at hy
  rcases find_setDropped value hy with hy | ⟨rfl, hy⟩
  · exact ⟨y, hy, hkey, hm⟩
  · exact ⟨_, hy, hkey, hm.setDropped value⟩

/-- What `merge` comes to: nothing but a pointer less, or an earlier count that takes up the
new one. -/
theorem merge_spec (h : LastSound c p) (e : LogBufferElement μ) (dropped : UInt16) :
    (∃ f, p.merge e dropped = .ok (false, { p with last := p.last.filter f })) ∨
    ∃ pre l mid, p.b.mLogElements = pre ++ l :: mid ∧ Mergeable c l ∧ l.key = e.key ∧
      dropped.toNat + l.getDropped.toNat ≤ 65535 ∧
      p.merge e dropped = .ok (true,
        { p with b := p.b.setElements (pre ++ l.setDropped (dropped + l.getDropped) :: mid) }) := by
  unfold merge
  split
  case h_1 =>
    refine .inl ⟨fun _ => true, ?_⟩
    rw [filter_true]
  case h_2 addr hlook =>
    obtain ⟨l, hl, hkey, hm⟩ := h _ (mem_of_lookup hlook)
    rw [hl]
    simp only []
    split
    case isTrue => exact .inl ⟨_, rfl⟩
    case isFalse hfit =>
      obtain ⟨haddr, pre, mid, hsplit, hpre⟩ := find?_eq_some_iff_append.mp hl
      obtain rfl := of_decide_eq_true haddr
      refine .inr ⟨pre, l, mid, hsplit, hm, hkey, by omega, ?_⟩
      rw [hsplit, setDroppedAt_split]
      · rfl
      · intro x hx heq
        have := hpre x hx
        rw [decide_eq_true heq] at this
        exact absurd this (by decide)

end Pass

/-! ## One turn -/

section Turn

variable {c : Batch μ} {p p' : Pass μ} (todo : List (LogBufferElement μ))

theorem edits_erase (hid : e.mLogId = id) (hheld : ¬ held e) :
    Edits id held (b.behind (e :: todo)) ((b.erase e true).behind todo) := by
  rw [erase_behind]
  exact ReflTransGen.single (Edit.erase rfl hid hheld)

/-- A turn on `e` from `p` to `p'`: its edits, its pointers, that a turn that kicks has pruned a
row, and that a turn takes no row without a message. -/
structure Turned (c : Batch μ) (p : Pass μ) (e : LogBufferElement μ)
    (todo : List (LogBufferElement μ)) (p' : Pass μ) : Prop where
  edits : Edits c.id (locked c.oldest) (p.b.behind (e :: todo)) (p'.b.behind todo)
  last : p'.LastSound c
  rows : p'.pruneRows ≤ p.pruneRows
  kick : p'.kick = true → p.kick = true ∨ p'.pruneRows < p.pruneRows
  ample : ∀ k, (p.b.behind (e :: todo)).messages + k < p.pruneRows →
    (p'.b.behind todo).messages + k < p'.pruneRows

/-- A turn ends without a fault, and the loop goes on only with rows left to prune. -/
def Turns (c : Batch μ) (p : Pass μ) (e : LogBufferElement μ) (todo : List (LogBufferElement μ))
    (r : Except Fault (Bool × Pass μ)) : Prop :=
  ∃ go p', r = .ok (go, p') ∧ Turned c p e todo p' ∧ (go = true → 0 < p'.pruneRows)

/-- A turn that takes no row. -/
theorem Turned.of_rows (hedits : Edits c.id (locked c.oldest) (p.b.behind (e :: todo)) (p'.b.behind todo))
    (hlast : p'.LastSound c) (hrows : p'.pruneRows = p.pruneRows) (hkick : p'.kick = p.kick) :
    Turned c p e todo p' where
  edits := hedits
  last := hlast
  rows := Nat.le_of_eq hrows
  kick := fun h => .inl (hkick ▸ h)
  ample := fun k hk => by
    rw [hrows]
    exact Nat.lt_of_le_of_lt (Nat.add_le_add_right hedits.messages_le k) hk

theorem Turned.of_keep (hb : p'.b = p.b.keep e) (hlast : p'.LastSound c)
    (hrows : p'.pruneRows = p.pruneRows) (hkick : p'.kick = p.kick) :
    Turned c p e todo p' := by
  refine Turned.of_rows todo ?_ hlast hrows hkick
  rw [hb, keep_behind]
  exact ReflTransGen.refl

theorem decRows_lt (h : 0 < pruneRows) : decRows pruneRows < pruneRows := by
  unfold decRows
  rw [if_neg (by omega)]
  omega

/-- A row for a message that goes. -/
theorem ample_decRows (hless : b'.messages < b.messages) (k : Nat) (hk : b.messages + k < pruneRows) :
    b'.messages + k < decRows pruneRows := by
  unfold decRows
  rw [if_neg (by omega)]
  omega

variable (hlast : p.LastSound c) (hid : e.mLogId = c.id) (hheld : ¬ locked c.oldest e)
  (hworst : e.mUid = c.worst) (hdropped : e.getDropped = 0)
  (hfresh : e.addr ∉ p.b.mLogElements.map (·.addr)) (hrows : 0 < p.pruneRows)

include hdropped in
/-- The element at the iterator is a message. -/
theorem messages_behind_cons : (b.behind (e :: todo)).messages = (b.behind todo).messages + 1 := by
  unfold messages behind
  simp only [countP_append, countP_cons, decide_eq_true hdropped, if_true]
  rfl

theorem messages_erase (s : Bool) : (b.erase e s).messages = b.messages := by
  unfold messages
  rw [erase_mLogElements]

include hlast hid hheld hrows in
theorem turnNaughty_spec : Turns c p e todo (c.turnNaughty p e) := by
  obtain ⟨f, hclear⟩ := Pass.clear_spec hlast e
  have hlt := decRows_lt hrows
  have hsound := (hlast.filter f).erase e true
  have hedits := edits_erase (b := p.b) todo hid hheld
  unfold Batch.turnNaughty
  rw [hclear]
  simp only []
  split_ifs with hdropped hzero hworst hsecond
  · exact ⟨_, _, rfl, Turned.of_rows todo hedits hsound rfl rfl, fun _ => hrows⟩
  all_goals
    have hless : ((p.b.erase e true).behind todo).messages < (p.b.behind (e :: todo)).messages := by
      rw [erase_behind, messages_erase, messages_behind_cons todo (not_not.mp hdropped)]
      exact Nat.lt_succ_self _
  · exact ⟨_, _, rfl, ⟨hedits, hsound.of_elements rfl rfl, Nat.le_of_lt hlt, .inl,
      ample_decRows hless⟩, fun h => by cases h⟩
  · exact ⟨_, _, rfl, ⟨hedits, hsound.of_elements rfl rfl, Nat.le_of_lt hlt, fun _ => .inr hlt,
      ample_decRows hless⟩, fun h => by cases h⟩
  · exact ⟨_, _, rfl, ⟨hedits, hsound.of_elements rfl rfl, Nat.le_of_lt hlt, fun _ => .inr hlt,
      ample_decRows hless⟩, fun _ => Nat.pos_of_ne_zero hzero⟩
  · exact ⟨_, _, rfl, ⟨hedits, hsound.of_elements rfl rfl, Nat.le_of_lt hlt, .inl,
      ample_decRows hless⟩, fun _ => Nat.pos_of_ne_zero hzero⟩

/-- Setting the watermark to the element at the iterator, or not. -/
theorem edits_setMark {uid : UInt32} {q : Prop} [Decidable q] (hid : e.mLogId = id)
    (huid : e.mUid = uid) (p : Pass μ) :
    Edits id held (p.b.behind (e :: todo))
      (((if q then p.setMark id uid e else p).keep e).b.behind todo) := by
  subst huid
  split
  case isTrue =>
    refine ReflTransGen.single ?_
    have hmem : e ∈ (p.b.behind (e :: todo)).mLogElements :=
      mem_append_right _ mem_cons_self
    show Edit id held _ ((p.b.setMark id e.mUid (some e.addr)).keep e |>.behind todo)
    rw [keep_behind, setMark_behind]
    exact Edit.mark hmem hid
  case isFalse =>
    show Edits id held _ ((p.b.keep e).behind todo)
    rw [keep_behind]
    exact ReflTransGen.refl

include hlast in
theorem turnDropped_spec (he : Pass.Mergeable c e) (hfresh : e.addr ∉ p.b.mLogElements.map (·.addr)) :
    Turned c p e todo (c.turnDropped p e) := by
  have hsound := hlast.add_keep he hfresh
  refine Turned.of_rows todo (edits_setMark todo he.1 rfl (p.add e)) ?_ ?_ ?_ <;>
    unfold Batch.turnDropped <;> simp only []
  · split
    · exact hsound.of_elements rfl rfl
    · exact hsound
  · split <;> rfl
  · split <;> rfl

/-- The message of the element at the iterator is dropped. -/
theorem edits_drop (hid : e.mLogId = id) (hheld : ¬ held e) (hdropped : e.getDropped = 0) :
    Edit id held (b.behind (e :: todo))
      ({ b with stats := b.stats.drop e }.behind (e.setDropped 1 :: todo)) :=
  Edit.drop rfl hid hheld hdropped

/-- The count at the iterator is merged into an earlier one. -/
theorem edits_merge {pre mid : List (LogBufferElement μ)}
    (hp : p.b.mLogElements = pre ++ l :: mid) (hl : Pass.Mergeable c l) (he : Pass.Mergeable c e)
    (hkey : l.key = e.key) (hfit : e.getDropped.toNat + l.getDropped.toNat ≤ 65535) :
    Edit c.id (locked c.oldest) (p.b.behind (e :: todo))
      (((p.b.setElements (pre ++ l.setDropped (e.getDropped + l.getDropped) :: mid)).erase e
        false).behind todo) := by
  have hb : (p.b.behind (e :: todo)).mLogElements = pre ++ l :: (mid ++ e :: todo) := by
    simp [behind, hp]
  have hedit := Edit.merge hb hl he hkey hfit
  rw [erase_behind]
  convert hedit using 2
  simp [behind, setElements]

include hlast hid hheld hworst hdropped hfresh in
/-- `dropWorst`: its edits, a message less, and what it leaves as it is. -/
theorem dropWorst_spec :
    ∃ p', c.dropWorst p e = .ok p' ∧
      Edits c.id (locked c.oldest) (p.b.behind (e :: todo)) (p'.b.behind todo) ∧
      (p'.b.behind todo).messages < (p.b.behind (e :: todo)).messages ∧
      p'.LastSound c ∧ p'.pruneRows = p.pruneRows ∧ p'.kick = p.kick := by
  have hcount := messages_behind_cons (b := p.b) todo hdropped
  unfold Batch.dropWorst
  split
  case isTrue =>
    refine ⟨_, rfl, edits_erase todo hid hheld, ?_, hlast.erase e true, rfl, rfl⟩
    rw [hcount]
    change ((p.b.erase e true).behind todo).messages < _
    rw [erase_behind, messages_erase]
    exact Nat.lt_succ_self _
  case isFalse =>
    have hdrop := edits_drop (b := p.b) todo hid hheld hdropped
    -- what is dropped first is no message any more, and nothing after that makes one
    have hless : ({ p.b with stats := p.b.stats.drop e }.behind (e.setDropped 1 :: todo)).messages <
        (p.b.behind (e :: todo)).messages := by
      rw [hcount]
      unfold messages behind
      rw [countP_append, countP_cons_of_neg (by simp), ← countP_append]
      exact Nat.lt_succ_self _
    have hsound : Pass.LastSound c { p with b := { p.b with stats := p.b.stats.drop e } } :=
      hlast.of_elements rfl rfl
    have he : Pass.Mergeable c (e.setDropped 1) := ⟨hid, hheld, rfl⟩
    simp only []
    rcases Pass.merge_spec hsound (e.setDropped 1) 1 with ⟨f, hm⟩ | ⟨pre, l, mid, hp, hl, hkey, hfit, hm⟩
    · rw [hm]
      refine ⟨_, rfl, ?_, ?_, ?_, ?_, ?_⟩
      · exact ReflTransGen.trans (ReflTransGen.single hdrop)
          (edits_setMark todo he.1 hworst (Pass.add (e.setDropped 1) { p with
            b := { p.b with stats := p.b.stats.drop e }, last := p.last.filter f }))
      · refine Nat.lt_of_le_of_lt (Edits.messages_le (?_ : Edits c.id (locked c.oldest) _ _)) hless
        exact edits_setMark todo he.1 hworst (Pass.add (e.setDropped 1) { p with
          b := { p.b with stats := p.b.stats.drop e }, last := p.last.filter f })
      · have hadd := (hsound.filter f).add_keep he hfresh
        split
        · exact hadd.of_elements rfl rfl
        · exact hadd
      · split <;> rfl
      · split <;> rfl
    · rw [hm]
      have hmerge := edits_merge todo hp hl he hkey hfit
      exact ⟨_, rfl, (ReflTransGen.single hdrop).tail hmerge,
        Nat.lt_of_le_of_lt hmerge.messages_le hless, (hsound.setDropped hp _).erase _ false, rfl, rfl⟩

include hlast hid hheld hworst hdropped hfresh hrows in
theorem turnWorst_spec : Turns c p e todo (c.turnWorst p e) := by
  have hlt := decRows_lt hrows
  unfold Batch.turnWorst
  simp only []
  split
  case isTrue hzero =>
    refine ⟨_, _, rfl, ⟨?_, (hlast.keep e).of_elements rfl rfl, Nat.le_of_lt hlt, .inl, fun k hk => ?_⟩,
      fun h => by cases h⟩
    · change Edits c.id (locked c.oldest) _ ((p.b.keep e).behind todo)
      rw [keep_behind]
      exact ReflTransGen.refl
    · -- the last row is not taken while there is a message
      have hcount := messages_behind_cons (b := p.b) todo hdropped
      change decRows p.pruneRows = 0 at hzero
      unfold decRows at hzero
      rw [if_neg (by omega)] at hzero
      omega
  case isFalse hzero =>
    obtain ⟨p', hp', hedits, hless, hsound, hrows', -⟩ := dropWorst_spec todo
      (p := { p with pruneRows := decRows p.pruneRows, kick := true })
      (hlast.of_elements rfl rfl) hid hheld hworst hdropped hfresh
    rw [hp']
    have hlt' : p'.pruneRows < p.pruneRows := by rw [hrows']; exact hlt
    have hample : ∀ k, (p.b.behind (e :: todo)).messages + k < p.pruneRows →
        (p'.b.behind todo).messages + k < p'.pruneRows := by
      rw [hrows']
      exact ample_decRows hless
    simp only []
    split
    · exact ⟨_, _, rfl, ⟨hedits, hsound, Nat.le_of_lt hlt', fun _ => .inr hlt', hample⟩,
        fun h => by cases h⟩
    · refine ⟨_, _, rfl, ⟨hedits, hsound.of_elements rfl rfl, Nat.le_of_lt hlt',
        fun _ => .inr hlt', hample⟩, fun _ => ?_⟩
      rw [hrows']
      exact Nat.pos_of_ne_zero hzero

include hlast hid hheld hfresh hrows in
theorem turnUnmerged_spec : Turns c p e todo (c.turnUnmerged p e) := by
  unfold Batch.turnUnmerged
  split_ifs with hnaughty hage hdropped hworst
  · exact turnNaughty_spec todo hlast hid hheld hrows
  · exact ⟨_, _, rfl, Turned.of_keep todo rfl (hlast.keep e) rfl rfl, fun _ => hrows⟩
  · have he : Pass.Mergeable c e :=
      ⟨hid, hheld, LogBufferElement.mMsg_eq_none_of_getDropped hdropped⟩
    refine ⟨_, _, rfl, turnDropped_spec todo hlast he hfresh, fun _ => ?_⟩
    unfold Batch.turnDropped
    simp only []
    split <;> exact hrows
  · obtain ⟨f, hclear⟩ := Pass.clear_spec (p := { p with leading := false })
      (hlast.of_elements rfl rfl) e
    rw [hclear]
    exact ⟨_, _, rfl, Turned.of_keep todo rfl (((hlast.filter f).keep e).of_elements rfl rfl) rfl rfl,
      fun _ => hrows⟩
  · exact turnWorst_spec todo hlast hid hheld (not_not.mp hworst) (not_not.mp hdropped) hfresh hrows

include hlast hfresh hrows in
theorem turn_spec : Turns c p e todo (c.turn p e) := by
  unfold Batch.turn
  split_ifs with hheld hid hleading hdropped
  · exact ⟨_, _, rfl, Turned.of_keep todo rfl (hlast.keep e) rfl rfl, fun _ => hrows⟩
  · exact ⟨_, _, rfl, Turned.of_keep todo rfl (hlast.keep e) rfl rfl, fun _ => hrows⟩
  · exact ⟨_, _, rfl, Turned.of_rows todo (edits_erase todo (not_not.mp hid) hheld)
      (hlast.erase e true) rfl rfl, fun _ => hrows⟩
  · exact turnUnmerged_spec todo hlast (not_not.mp hid) hheld hfresh hrows
  · have he : Pass.Mergeable c e :=
      ⟨not_not.mp hid, hheld, LogBufferElement.mMsg_eq_none_of_getDropped hdropped⟩
    rcases Pass.merge_spec hlast e e.getDropped with ⟨f, hm⟩ | ⟨pre, l, mid, hp, hl, hkey, hfit, hm⟩
    · rw [hm]
      obtain ⟨go, p', hp', ht, hgo⟩ :=
        turnUnmerged_spec (p := { p with last := p.last.filter f }) todo
          (hlast.filter f) he.1 hheld hfresh hrows
      exact ⟨go, p', hp', ⟨ht.edits, ht.last, ht.rows, ht.kick, ht.ample⟩, hgo⟩
    · rw [hm]
      have hmerge := ReflTransGen.single (edits_merge todo hp hl he hkey hfit)
      exact ⟨_, _, rfl, Turned.of_rows todo hmerge ((hlast.setDropped hp _).erase e false) rfl rfl,
        fun _ => hrows⟩

theorem addr_not_mem_of_distinct {front : List (LogBufferElement μ)}
    (h : AddrsDistinct (front ++ e :: todo)) : e.addr ∉ front.map (·.addr) := by
  intro hmem
  unfold AddrsDistinct at h
  rw [map_append, map_cons] at h
  exact (nodup_append.mp h).2.2 _ hmem _ mem_cons_self rfl

include hlast in
/-- The loop of a batch ends without a fault, and what it does are edits. -/
theorem loop_spec (hdistinct : AddrsDistinct (p.b.behind todo).mLogElements)
    (hrows : 0 < p.pruneRows) :
    ∃ p', c.loop p todo = .ok p' ∧ Edits c.id (locked c.oldest) (p.b.behind todo) p'.b ∧
      p'.pruneRows ≤ p.pruneRows ∧ (p'.kick = true → p.kick = true ∨ p'.pruneRows < p.pruneRows) ∧
      ∀ k, (p.b.behind todo).messages + k < p.pruneRows → p'.b.messages + k < p'.pruneRows := by
  induction todo generalizing p with
  | nil =>
    have hend : p.b.behind [] = p.b := by simp [behind]
    rw [hend]
    exact ⟨p, rfl, ReflTransGen.refl, Nat.le_refl _, .inl, fun _ => id⟩
  | cons e todo ih =>
    obtain ⟨go, p₁, hturn, hturned, hgo⟩ :=
      turn_spec todo hlast (addr_not_mem_of_distinct todo hdistinct) hrows
    unfold Batch.loop
    rw [hturn]
    cases go with
    | false => exact ⟨_, rfl, hturned.edits, hturned.rows, hturned.kick, hturned.ample⟩
    | true =>
      obtain ⟨p', hp', hedits, hle, hkick, hample⟩ :=
        ih hturned.last (hturned.edits.addrsDistinct hdistinct) (hgo rfl)
      refine ⟨p', hp', hturned.edits.trans hedits, Nat.le_trans hle hturned.rows, fun h => ?_,
        fun k hk => hample k (hturned.ample k hk)⟩
      rcases hkick h with hk | hlt
      · exact (hturned.kick hk).imp_right (Nat.lt_of_le_of_lt hle)
      · exact .inr (Nat.lt_of_lt_of_le hlt hturned.rows)

end Turn

/-! ## The batches -/

section Batches

theorem splitAt_spec {l : List (LogBufferElement μ)} (h : ∃ e ∈ l, e.addr = addr) :
    ∃ front todo, LogBuffer.splitAt addr l = some (front, todo) ∧ front ++ todo = l := by
  induction l with
  | nil => exact absurd h (by simp)
  | cons x l ih =>
    unfold LogBuffer.splitAt
    split
    case isTrue => exact ⟨[], x :: l, rfl, rfl⟩
    case isFalse hx =>
      obtain ⟨e, he, haddr⟩ := h
      rcases mem_cons.mp he with rfl | he
      · exact absurd haddr hx
      · obtain ⟨front, todo, hs, rfl⟩ := ih ⟨e, he, haddr⟩
        exact ⟨x :: front, todo, by rw [hs]; rfl, rfl⟩

theorem batchStart_spec (hmarks : MarksValid b) (id : LogId) (gc : Bool) (worst : UInt32) :
    ∃ front todo leading, b.batchStart id gc worst = .ok (front, todo, leading) ∧
      front ++ todo = b.mLogElements := by
  unfold batchStart
  split
  case isFalse => exact ⟨_, _, _, rfl, rfl⟩
  case isTrue =>
    split
    case h_1 => exact ⟨_, _, _, rfl, rfl⟩
    case h_2 mark hmark =>
      obtain ⟨e, he, haddr, -⟩ := hmarks id worst mark hmark
      obtain ⟨front, todo, hs, hsplit⟩ := splitAt_spec ⟨e, he, haddr⟩
      rw [hs]
      exact ⟨_, _, _, rfl, hsplit⟩

theorem batch_spec (hdistinct : AddrsDistinct b.mLogElements) (hmarks : MarksValid b) (env : Env μ)
    (oldest : Option (Nat × LogTimeEntry)) (id : LogId) (hrows : 0 < pruneRows)
    (worst : UInt32 × Nat × Nat) :
    ∃ p, b.batch env oldest id pruneRows worst = .ok p ∧ Edits id (locked oldest) b p.b ∧
      (p.kick = true → p.pruneRows < pruneRows) ∧
      ∀ k, b.messages + k < pruneRows → p.b.messages + k < p.pruneRows := by
  obtain ⟨front, todo, leading, hstart, hsplit⟩ :=
    batchStart_spec hmarks id (pruneRows ≤ 1 : Bool) worst.1
  unfold batch
  simp only []
  rw [hstart]
  have hb : ({ b with mLogElements := front } : LogBuffer μ).behind todo = b := by
    rw [behind, hsplit]
  obtain ⟨p, hp, hedits, -, hkick, hample⟩ := loop_spec
    (c := { env, oldest, id, gc := (pruneRows ≤ 1 : Bool), hasBlacklist := b.mPrune.hasNaughty,
            worst := worst.1, secondWorstSizes := worst.2.2,
            lastTime := (b.mLogElements.getLast?.map (·.mRealTime)).getD LogTime.EPOCH })
    (p := { b := { b with mLogElements := front }, pruneRows, leading, worstSizes := worst.2.1,
            kick := false, last := [] })
    todo (fun x hx => absurd hx not_mem_nil) (by rw [hb]; exact hdistinct) hrows
  rw [hb] at hedits hample
  exact ⟨p, hp, hedits, fun h => (hkick h).resolve_left Bool.false_ne_true, hample⟩

/-- Every batch that is followed by another has pruned a row, so the batches come to an
end. Rows enough for all messages are rows enough for what is left of them. -/
theorem worstLoop_spec (env : Env μ) (oldest : Option (Nat × LogTimeEntry)) (id : LogId)
    {fuel : Nat} (hfuel : pruneRows < fuel) (hb : Valid b) :
    ∃ b' pruneRows', b.worstLoop env oldest id fuel pruneRows = .ok (b', pruneRows') ∧
      Edits id (locked oldest) b b' ∧
      ∀ k, b.messages + k < pruneRows → b'.messages + k < pruneRows' := by
  induction fuel generalizing pruneRows b with
  | zero => exact absurd hfuel (Nat.not_lt_zero _)
  | succ fuel ih =>
    unfold worstLoop
    simp only []
    split_ifs with hzero hnone
    · exact ⟨_, _, rfl, ReflTransGen.refl, fun _ hk => hk⟩
    · exact ⟨_, _, rfl, ReflTransGen.refl, fun _ hk => hk⟩
    · obtain ⟨p, hp, hedits, hkick, hample⟩ := batch_spec hb.distinct hb.marks env oldest id
        (Nat.pos_of_ne_zero hzero) (b.findWorst env id)
      rw [hp]
      simp only []
      split
      case isTrue => exact ⟨_, _, rfl, hedits, hample⟩
      case isFalse hgo =>
        have hlt := hkick (Bool.not_eq_false _ |>.mp fun h => hgo (.inl h))
        obtain ⟨b', rows', hb', hedits', hample'⟩ := ih (show p.pruneRows < fuel by omega)
          (hedits.valid hb)
        exact ⟨b', rows', hb', hedits.trans hedits', fun k hk => hample' k (hample k hk)⟩

end Batches

/-! ## The other loops -/

section Loops

variable (oldest : Option (Nat × LogTimeEntry)) (id : LogId) (todo : List (LogBufferElement μ))

theorem behind_nil (b : LogBuffer μ) : b.behind [] = b := by
  simp [behind]

theorem atBegin_behind (b : LogBuffer μ) : b.atBegin.behind b.mLogElements = b := rfl

theorem pruneUidLoop_spec (callerUid : UInt32) (pruneRows : Nat) :
    Edits id (locked oldest) (b.behind todo)
      (pruneUidLoop oldest id callerUid pruneRows b todo) := by
  induction todo generalizing b pruneRows with
  | nil =>
    rw [behind_nil]
    exact ReflTransGen.refl
  | cons e todo ih =>
    unfold pruneUidLoop
    split_ifs with hheld hid huid hrows
    · exact ReflTransGen.refl
    · rw [← keep_behind]
      exact ih pruneRows
    · exact edits_erase todo (not_not.mp hid) hheld
    · exact (edits_erase todo (not_not.mp hid) hheld).trans (ih _)
    · rw [← keep_behind]
      exact ih pruneRows

theorem holdUp_spec (held : LogBufferElement μ → Prop) (pruneRows : Nat) :
    Edits id held b (b.holdUp oldest id pruneRows) := by
  unfold holdUp
  split
  case h_1 => exact ReflTransGen.refl
  case h_2 => split <;> exact ReflTransGen.single (Edit.readers _)

theorem expireLoop_spec (pruneRows : Nat) (whitelist : Bool) :
    Edits id (locked oldest) (b.behind todo)
      (expireLoop oldest id pruneRows whitelist b todo).1 := by
  induction todo generalizing b pruneRows whitelist with
  | nil =>
    rw [behind_nil]
    exact ReflTransGen.refl
  | cons e todo ih =>
    unfold expireLoop
    split_ifs with hrows hid hheld hwhite hnice
    · exact ReflTransGen.refl
    · rw [← keep_behind]
      exact ih pruneRows whitelist
    · exact ReflTransGen.refl
    · exact holdUp_spec oldest id _ pruneRows
    · rw [← keep_behind]
      exact ih pruneRows true
    · exact (edits_erase todo (not_not.mp hid) hheld).trans (ih _ _)

theorem expireAllLoop_spec (pruneRows : Nat) :
    Edits id (locked oldest) (b.behind todo) (expireAllLoop oldest id pruneRows b todo) := by
  induction todo generalizing b pruneRows with
  | nil =>
    rw [behind_nil]
    exact ReflTransGen.refl
  | cons e todo ih =>
    unfold expireAllLoop
    split_ifs with hrows hid hheld
    · exact ReflTransGen.refl
    · rw [← keep_behind]
      exact ih pruneRows
    · exact holdUp_spec oldest id _ pruneRows
    · exact (edits_erase todo (not_not.mp hid) hheld).trans (ih _)

theorem expire_spec (pruneRows : Nat) :
    Edits id (locked oldest) b (b.expire oldest id pruneRows) := by
  have hfirst := expireLoop_spec oldest id b.mLogElements (b := b.atBegin) pruneRows false
  unfold expire
  simp only []
  split
  case isTrue =>
    refine hfirst.trans ?_
    have hall := expireAllLoop_spec oldest id
      (expireLoop oldest id pruneRows false b.atBegin b.mLogElements).1.mLogElements
      (b := (expireLoop oldest id pruneRows false b.atBegin b.mLogElements).1.atBegin)
      (expireLoop oldest id pruneRows false b.atBegin b.mLogElements).2.1
    rwa [atBegin_behind] at hall
  case isFalse => exact hfirst

/-- Pruning ends without a fault, and what it does are edits of elements that no reader
holds. -/
theorem prune_spec (env : Env μ) (pruneRows : Nat) (callerUid : UInt32)
    (hb : Valid b) :
    ∃ b', b.prune env id pruneRows callerUid = .ok b' ∧ Edits id (locked (b.oldest id)) b b' := by
  unfold prune
  simp only []
  split
  case isTrue =>
    have huid := pruneUidLoop_spec (b.oldest id) id b.mLogElements (b := b.atBegin) callerUid
      pruneRows
    exact ⟨_, rfl, huid⟩
  case isFalse =>
    obtain ⟨b', rows, hworst, hedits, -⟩ := worstLoop_spec env (b.oldest id) id
      (Nat.lt_succ_self pruneRows) hb
    rw [hworst]
    exact ⟨_, rfl, hedits.trans (expire_spec (b.oldest id) id rows)⟩

end Loops

end SystemCore.Logd
