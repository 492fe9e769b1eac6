import Mathlib.Data.List.TakeWhile
import SystemCore.Libmincrypt.ModPow

/-!
# Unpacking an ECDSA signature

The signature is a sequence of two integers, with lengths of one byte. The loop that trims an
integer tests the byte in front of the count, so behind an integer of zeros it reads one byte more.
Behind `r` that is the tag of `s`; behind `s` the signature has ended.
-/
namespace SystemCore.Libmincrypt

open Lib List

/-! ## The source

A pointer into the signature is the list of the bytes from there to the end of the signature, and
`none` is a read behind that end. -/

/-- `while (*src == '\0' && src_len > 0)` -/
def skipZeros : List UInt8 → Nat → Option (List UInt8 × Nat)
  | [], _ => none
  | b :: src, 0 => some (b :: src, 0)
  | b :: src, srcLen + 1 => if b = 0 then skipZeros src srcLen else some (b :: src, srcLen + 1)

def memcpy (src : List UInt8) (n : Nat) : Option (List UInt8) :=
  if n ≤ src.length then some (src.take n) else none

/-- The bytes of `dst`, or no bytes where the source returns 0. -/
def trimToP256Bytes (src : List UInt8) (srcLen : Nat) : Option (Option (List UInt8)) := do
  let (src, srcLen) ← skipZeros src srcLen
  if srcLen > 32 ∨ srcLen < 1 then
    return none
  return some (List.replicate (32 - srcLen) 0 ++ (← memcpy src srcLen))

def p256FromBin (src : List UInt8) : List UInt32 := toWords 8 src

/-- The end of `dsa_sig_unpack`: `r_int` and `s_int`, or neither where the source returns 0. -/
def unpackIntegers (r : List UInt8) (rLen : Nat) (s : List UInt8) (sLen : Nat) :
    Option (Option (List UInt32 × List UInt32)) := do
  match ← trimToP256Bytes r rLen with
  | none => return none
  | some rBytes =>
    match ← trimToP256Bytes s sLen with
    | none => return none
    | some sBytes => return some (p256FromBin rBytes, p256FromBin sBytes)

def dsaSigUnpack (sig : List UInt8) : Option (Option (List UInt32 × List UInt32)) :=
  if sig.length < 8 then some none
  else
    match sig with
    | tag :: seqLen :: rTag :: rLen :: r =>
      if tag ≠ 0x30 ∨ rTag ≠ 0x02 then some none
      else if seqLen.toNat ≤ 0 ∨ seqLen.toNat + 2 ≠ sig.length then some none
      else if rLen.toNat < 1 ∨ (rLen.toNat : Int) > seqLen.toNat - 5 then some none
      else
        match r.drop rLen.toNat with
        | sTag :: sLen :: s =>
          if sTag ≠ 0x02 then some none
          else if sLen.toNat < 1 ∨ (sLen.toNat : Int) ≠ seqLen.toNat - 4 - rLen.toNat then some none
          else unpackIntegers r rLen.toNat s sLen.toNat
        | _ => none
    | _ => none

/-! ## The format -/

/-- The integers `r` and `s` in a sequence that is the whole signature. -/
structure Encodes (sig r s : List UInt8) : Prop where
  r_ne : r ≠ []
  s_ne : s ≠ []
  bytes : ∃ len rLen sLen : UInt8, len.toNat + 2 = sig.length ∧ rLen.toNat = r.length ∧
    sLen.toNat = s.length ∧ sig = 0x30 :: len :: 0x02 :: rLen :: (r ++ 0x02 :: sLen :: s)

def significant (bs : List UInt8) : List UInt8 := bs.dropWhile (· == 0)

def Fits (bs : List UInt8) : Prop := significant bs ≠ [] ∧ (significant bs).length ≤ 32

instance (bs : List UInt8) : Decidable (Fits bs) := inferInstanceAs (Decidable (_ ∧ _))

def bigEndian (bs : List UInt8) : Nat := LittleEndian.ofBytes bs.reverse

/-- Nothing is read outside, the encodings of fitting integers are accepted, and no others, and
the results are their values. -/
def UnpacksExactly (sig : List UInt8) : Prop :=
  ∃ out, dsaSigUnpack sig = some out ∧
    (out.isSome ↔ ∃ r s, Encodes sig r s ∧ Fits r ∧ Fits s) ∧
    ∀ rInt sInt r s, out = some (rInt, sInt) → Encodes sig r s →
      val rInt = bigEndian r ∧ val sInt = bigEndian s

variable {sig r s bs : List UInt8}

/-! ## Trimming -/

theorem significant_eq_nil : significant bs = [] ↔ ∀ b ∈ bs, b = 0 := by
  rw [significant, dropWhile_eq_nil_iff]
  simp

theorem skipZeros_append (bs post : List UInt8) :
    skipZeros (bs ++ post) bs.length =
      if significant bs = [] then post.head?.map fun _ => (post, 0)
      else some (significant bs ++ post, (significant bs).length) := by
  induction bs with
  | nil => cases post <;> rfl
  | cons b bs ih =>
    rw [cons_append, length_cons, skipZeros]
    by_cases hb : b = 0
    · have hsig : significant (b :: bs) = significant bs := dropWhile_cons_of_pos (by simp [hb])
      rw [if_pos hb, ih, hsig]
    · have hsig : significant (b :: bs) = b :: bs := dropWhile_cons_of_neg (by simp [hb])
      rw [if_neg hb, hsig, if_neg (cons_ne_nil b bs)]
      rfl

/-- The copy of an integer that fits. -/
def padded (bs : List UInt8) : List UInt8 :=
  List.replicate (32 - (significant bs).length) 0 ++ significant bs

theorem trimToP256Bytes_append (bs post : List UInt8) :
    trimToP256Bytes (bs ++ post) bs.length =
      if significant bs = [] then post.head?.map fun _ => none
      else some (if (significant bs).length ≤ 32 then some (padded bs) else none) := by
  rw [trimToP256Bytes, skipZeros_append]
  by_cases hz : significant bs = []
  · cases post <;> simp [hz]
  · by_cases h32 : (significant bs).length ≤ 32
    · simp [hz, h32, memcpy, padded]
    · simp [hz, h32]

theorem bigEndian_zero_cons (bs : List UInt8) : bigEndian (0 :: bs) = bigEndian bs := by
  rw [bigEndian, reverse_cons, LittleEndian.ofBytes_append]
  rfl

/-- The value of an integer is that of its copy. -/
theorem val_p256FromBin (h : Fits bs) : val (p256FromBin (padded bs)) = bigEndian bs := by
  have hsig : bigEndian (significant bs) = bigEndian bs := by
    clear h
    induction bs with
    | nil => rfl
    | cons b bs ih =>
      rw [significant, dropWhile_cons]
      split
      · rename_i hb
        rw [eq_of_beq hb, bigEndian_zero_cons]
        exact ih
      · rfl
  have hpad (k : Nat) : bigEndian (List.replicate k 0 ++ significant bs) = bigEndian bs := by
    induction k with
    | zero => exact hsig
    | succ k ih => rw [replicate_succ, cons_append, bigEndian_zero_cons, ih]
  have hlen := h.2
  rw [p256FromBin, val_toWords (by rw [padded]; simp; omega)]
  exact hpad _

/-! ## Unpacking -/

theorem Encodes.unique {r' s' : List UInt8} (h : Encodes sig r s) (h' : Encodes sig r' s') :
    r = r' ∧ s = s' := by
  obtain ⟨_, rLen, sLen, -, hr, -, hsig⟩ := h.bytes
  obtain ⟨_, rLen', sLen', -, hr', -, hsig'⟩ := h'.bytes
  have heq := hsig.symm.trans hsig'
  simp only [List.cons.injEq, true_and] at heq
  obtain ⟨-, rfl, heq⟩ := heq
  obtain ⟨hrr, hss⟩ := append_inj heq (hr.symm.trans hr')
  exact ⟨hrr, (List.cons.inj (List.cons.inj hss).2).2⟩

theorem Encodes.exists_iff {P : List UInt8 → List UInt8 → Prop} (h : Encodes sig r s) :
    (∃ r s, Encodes sig r s ∧ P r s) ↔ P r s := by
  refine ⟨?_, fun hP => ⟨r, s, h, hP⟩⟩
  rintro ⟨r', s', h', hP⟩
  obtain ⟨rfl, rfl⟩ := h.unique h'
  exact hP

theorem unpackIntegers_eq (r post s : List UInt8) (hpost : post ≠ []) :
    unpackIntegers (r ++ post) r.length s s.length =
      if Fits r then
        if significant s = [] then none
        else some (if Fits s then some (p256FromBin (padded r), p256FromBin (padded s)) else none)
      else some none := by
  have hs := trimToP256Bytes_append s []
  rw [append_nil] at hs
  obtain ⟨b, post, rfl⟩ := exists_cons_of_ne_nil hpost
  rw [unpackIntegers, trimToP256Bytes_append, hs]
  by_cases hrz : significant r = []
  · simp [Fits, hrz]
  by_cases hr32 : (significant r).length ≤ 32
  · by_cases hsz : significant s = []
    · simp [Fits, hrz, hr32, hsz]
    · by_cases hs32 : (significant s).length ≤ 32
      · simp [Fits, hrz, hr32, hsz, hs32]
      · simp [Fits, hrz, hr32, hsz, hs32]
  · simp [Fits, hrz, hr32]

/-- The checks let every encoding through. -/
theorem Encodes.checked (h : Encodes sig r s) : ∃ post, post ≠ [] ∧
    dsaSigUnpack sig = unpackIntegers (r ++ post) r.length s s.length := by
  obtain ⟨len, rLen, sLen, hlen, hr, hs, rfl⟩ := h.bytes
  refine ⟨0x02 :: sLen :: s, cons_ne_nil _ _, ?_⟩
  have hrpos := length_pos_iff.mpr h.r_ne
  have hspos := length_pos_iff.mpr h.s_ne
  simp only [length_cons, length_append] at hlen
  simp only [dsaSigUnpack, length_cons, length_append, hr, drop_left', hs]
  rw [if_neg (by omega), if_neg (by simp), if_neg (by omega), if_neg (by omega), if_neg (by simp),
    if_neg (by omega)]

/-- What the checks let through is an encoding. -/
theorem dsaSigUnpack_other (h : ¬∃ r s, Encodes sig r s) : dsaSigUnpack sig = some none := by
  by_cases h8 : sig.length < 8
  · exact if_pos h8
  rcases sig with _ | ⟨tag, _ | ⟨seqLen, _ | ⟨rTag, _ | ⟨rLen, r⟩⟩⟩⟩
  · rfl
  · rfl
  · rfl
  · rfl
  unfold dsaSigUnpack
  rw [if_neg h8]
  dsimp only
  split_ifs with htag hseq hr
  · rfl
  · rfl
  · rfl
  have hlen : seqLen.toNat + 2 = r.length + 4 := by
    simp only [length_cons] at hseq
    omega
  have hsum : r.length = rLen.toNat + (r.drop rLen.toNat).length := by
    rw [length_drop]
    omega
  rcases hdrop : r.drop rLen.toNat with _ | ⟨sTag, _ | ⟨sLen, s⟩⟩
  · simp only [hdrop, length_nil] at hsum
    omega
  · simp only [hdrop, length_cons, length_nil] at hsum
    omega
  simp only [hdrop, length_cons] at hsum
  dsimp only
  split_ifs with hsTag hs
  · rfl
  · rfl
  refine absurd ⟨r.take rLen.toNat, s, ⟨?_, ?_, seqLen, rLen, sLen, hlen, ?_, by omega, ?_⟩⟩ h
  · rw [← length_pos_iff, length_take]
    omega
  · rw [← length_pos_iff]
    omega
  · rw [length_take]
    omega
  · rw [not_or, not_not, not_not] at htag
    rw [htag.1, htag.2, ← not_not.mp hsTag, ← hdrop, take_append_drop]

/-- The unpacking is exact but for a fitting `r` with an `s` of zeros, where the byte behind the
signature is read. -/
theorem dsaSigUnpack_exact_iff (sig : List UInt8) :
    UnpacksExactly sig ↔ ¬∃ r s, Encodes sig r s ∧ Fits r ∧ ∀ b ∈ s, b = 0 := by
  by_cases h : ∃ r s, Encodes sig r s
  · obtain ⟨r, s, h⟩ := h
    obtain ⟨post, hpost, hunpack⟩ := h.checked
    rw [h.exists_iff, ← significant_eq_nil, UnpacksExactly, hunpack, unpackIntegers_eq r post s hpost,
      h.exists_iff]
    by_cases hr : Fits r
    · by_cases hz : significant s = []
      · simp [hr, hz]
      · rw [if_pos hr, if_neg hz]
        refine ⟨fun _ hbad => hz hbad.2, fun _ => ⟨_, rfl, ?_, ?_⟩⟩
        · by_cases hs : Fits s
          · simp [hr, hs]
          · simp [hs]
        · intro rInt sInt r' s' hout h'
          obtain ⟨rfl, rfl⟩ := h.unique h'
          split at hout
          · rename_i hs
            cases hout
            exact ⟨val_p256FromBin hr, val_p256FromBin hs⟩
          · cases hout
    · rw [if_neg hr]
      refine ⟨fun _ hbad => hr hbad.1, fun _ => ⟨none, rfl, by simp [hr], ?_⟩⟩
      intro rInt sInt r' s' hout
      cases hout
  · have hnone := dsaSigUnpack_other h
    push Not at h
    refine ⟨fun _ ⟨r, s, hrs, _⟩ => h r s hrs, fun _ => ⟨none, hnone, ?_, ?_⟩⟩
    · simpa using fun r s hrs => absurd hrs (h r s)
    · intro rInt sInt r s heq
      cases heq

/-- The signature `30 06 02 01 01 02 01 00` is read up to the byte behind it. -/
theorem dsaSigUnpack_zero_s :
    dsaSigUnpack [0x30, 0x06, 0x02, 0x01, 0x01, 0x02, 0x01, 0x00] = none ∧
      ¬UnpacksExactly [0x30, 0x06, 0x02, 0x01, 0x01, 0x02, 0x01, 0x00] := by
  have h : dsaSigUnpack [0x30, 0x06, 0x02, 0x01, 0x01, 0x02, 0x01, 0x00] = none := by decide
  refine ⟨h, ?_⟩
  rintro ⟨out, hout, -⟩
  rw [h] at hout
  cases hout

end SystemCore.Libmincrypt
