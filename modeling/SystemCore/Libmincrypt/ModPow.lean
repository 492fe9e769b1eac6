import Mathlib.Data.Nat.Prime.Basic
import SystemCore.Lib.LittleEndian
import SystemCore.Libmincrypt.MontMul

/-!
# Modular exponentiation

The chain of Montgomery products is the power of the input, and the last subtraction takes it
below the modulus, since the modulus is at least half of the range.
-/
namespace SystemCore.Libmincrypt

open Lib List

/-! ## Bytes and words -/

theorem or_bytes {x0 x1 x2 x3 : Nat} (h1 : x1 < 256) (h2 : x2 < 256) (h3 : x3 < 256) :
    x0 <<< 24 ||| x1 <<< 16 ||| x2 <<< 8 ||| x3 =
      x3 + 256 * (x2 + 256 * (x1 + 256 * x0)) := by
  have hfirst : x0 <<< 24 ||| x1 <<< 16 = (x0 * 256 + x1) <<< 16 := by
    rw [← Nat.shiftLeft_add_eq_or_of_lt (by rw [Nat.shiftLeft_eq]; omega)]
    omega
  have hsecond : (x0 * 256 + x1) <<< 16 ||| x2 <<< 8 = ((x0 * 256 + x1) * 256 + x2) <<< 8 := by
    rw [← Nat.shiftLeft_add_eq_or_of_lt (by rw [Nat.shiftLeft_eq]; omega)]
    omega
  rw [hfirst, hsecond, ← Nat.shiftLeft_add_eq_or_of_lt (by omega), Nat.shiftLeft_eq]
  omega

theorem wordAt_zero (b0 b1 b2 b3 : UInt8) (rest : List UInt8) :
    (wordAt (b0 :: b1 :: b2 :: b3 :: rest) 0).toNat = LittleEndian.ofBytes [b3, b2, b1, b0] := by
  have h0 := b0.toNat_lt
  have h1 := b1.toNat_lt
  have h2 := b2.toNat_lt
  have h3 := b3.toNat_lt
  have hshift {b k : Nat} (hb : b < 256) (hk : k ≤ 24) : b <<< k % 2 ^ 32 = b <<< k := by
    refine Nat.mod_eq_of_lt ?_
    rw [Nat.shiftLeft_eq]
    calc b * 2 ^ k < 256 * 2 ^ k := Nat.mul_lt_mul_of_pos_right hb (Nat.two_pow_pos k)
      _ ≤ 256 * 2 ^ 24 := Nat.mul_le_mul_left _ (Nat.pow_le_pow_right (by decide) hk)
      _ = 2 ^ 32 := by decide
  have hword : (wordAt (b0 :: b1 :: b2 :: b3 :: rest) 0).toNat =
      b0.toNat <<< 24 ||| b1.toNat <<< 16 ||| b2.toNat <<< 8 ||| b3.toNat := by
    simp only [wordAt, getD_cons_zero, getD_cons_succ, Nat.zero_add, UInt32.toNat_or,
      UInt32.toNat_shiftLeft, UInt8.toNat_toUInt32]
    have h24 : UInt32.toNat 24 % 32 = 24 := rfl
    have h16 : UInt32.toNat 16 % 32 = 16 := rfl
    have h8 : UInt32.toNat 8 % 32 = 8 := rfl
    rw [h24, h16, h8, hshift h0 (by decide), hshift h1 (by decide), hshift h2 (by decide)]
  rw [hword, or_bytes h1 h2 h3]
  rfl

theorem wordAt_skip (b0 b1 b2 b3 : UInt8) (rest : List UInt8) (i : Nat) :
    wordAt (b0 :: b1 :: b2 :: b3 :: rest) (i + 4) = wordAt rest i := by
  have hget (k : Nat) : (b0 :: b1 :: b2 :: b3 :: rest).getD (i + 4 + k) 0 = rest.getD (i + k) 0 := by
    rw [Nat.add_right_comm]
    rfl
  have hzero : (b0 :: b1 :: b2 :: b3 :: rest).getD (i + 4) 0 = rest.getD i 0 := hget 0
  simp only [wordAt, hget, hzero]

theorem toWords_length (len : Nat) (inout : List UInt8) : (toWords len inout).length = len := by
  rw [toWords, length_map, length_range]

/-- The first word of the array is the last of the words. -/
theorem toWords_cons (len : Nat) (b0 b1 b2 b3 : UInt8) (rest : List UInt8) :
    toWords (len + 1) (b0 :: b1 :: b2 :: b3 :: rest) =
      toWords len rest ++ [wordAt (b0 :: b1 :: b2 :: b3 :: rest) 0] := by
  have hmap : (List.range len).map (fun i =>
      wordAt (b0 :: b1 :: b2 :: b3 :: rest) ((len + 1 - 1 - i) * 4)) = toWords len rest := by
    refine map_congr_left fun i hi => ?_
    have hi' := mem_range.mp hi
    have hindex : (len + 1 - 1 - i) * 4 = (len - 1 - i) * 4 + 4 := by omega
    rw [hindex, wordAt_skip]
  have hlast : (len + 1 - 1 - len) * 4 = 0 := by omega
  rw [toWords, range_succ, map_append, map_singleton, hmap, hlast]

theorem val_toWords {len : Nat} {inout : List UInt8} (h : inout.length = 4 * len) :
    val (toWords len inout) = LittleEndian.ofBytes inout.reverse := by
  induction len generalizing inout with
  | zero =>
    rw [Nat.mul_zero, length_eq_zero_iff] at h
    subst h
    rfl
  | succ len ih =>
    obtain ⟨b0, t0, rfl⟩ := exists_cons_of_length_eq_add_one (h.trans (Nat.mul_succ 4 len))
    obtain ⟨b1, t1, rfl⟩ := exists_cons_of_length_eq_add_one (Nat.succ.inj h)
    obtain ⟨b2, t2, rfl⟩ := exists_cons_of_length_eq_add_one (Nat.succ.inj (Nat.succ.inj h))
    obtain ⟨b3, rest, rfl⟩ :=
      exists_cons_of_length_eq_add_one (Nat.succ.inj (Nat.succ.inj (Nat.succ.inj h)))
    have hrest : rest.length = 4 * len := by
      simp only [length_cons] at h
      omega
    have hreverse : (b0 :: b1 :: b2 :: b3 :: rest).reverse = rest.reverse ++ [b3, b2, b1, b0] := by
      simp
    have hpow : 256 ^ (4 * len) = 2 ^ (32 * len) := by
      rw [pow_mul, pow_mul]
      norm_num
    rw [toWords_cons, val_append, toWords_length, ih hrest, hreverse, LittleEndian.ofBytes_append,
      length_reverse, hrest, hpow, val_cons, val_nil, Nat.mul_zero, Nat.add_zero, wordAt_zero]

/-- The bytes of a word, least first. -/
theorem ofBytes_word (w : UInt32) :
    LittleEndian.ofBytes [w.toUInt8, (w >>> 8).toUInt8, (w >>> 16).toUInt8, (w >>> 24).toUInt8] =
      w.toNat := by
  have hw := w.toNat_lt
  have h24 : UInt32.toNat 24 % 32 = 24 := rfl
  have h16 : UInt32.toNat 16 % 32 = 16 := rfl
  have h8 : UInt32.toNat 8 % 32 = 8 := rfl
  simp only [LittleEndian.ofBytes, UInt32.toNat_toUInt8, UInt32.toNat_shiftRight, h24, h16, h8,
    Nat.shiftRight_eq_div_pow]
  omega

theorem toBytes_reverse_cons (w : UInt32) (ws : List UInt32) :
    (toBytes (w :: ws)).reverse =
      [w.toUInt8, (w >>> 8).toUInt8, (w >>> 16).toUInt8, (w >>> 24).toUInt8] ++
        (toBytes ws).reverse := by
  simp only [toBytes, reverse_cons, flatMap_append, flatMap_singleton,
    reverse_append, reverse_nil, nil_append, cons_append]

/-- The bytes that are written are the big-endian bytes of the value. -/
theorem toBytes_eq (ws : List UInt32) :
    toBytes ws = (LittleEndian.toBytes (4 * ws.length) (val ws)).reverse := by
  have hboth : (toBytes ws).reverse.length = 4 * ws.length ∧
      LittleEndian.ofBytes (toBytes ws).reverse = val ws := by
    induction ws with
    | nil => exact ⟨rfl, rfl⟩
    | cons w ws ih =>
      have hfour : [w.toUInt8, (w >>> 8).toUInt8, (w >>> 16).toUInt8, (w >>> 24).toUInt8].length = 4 :=
        rfl
      have hpow : 256 ^ 4 = 2 ^ 32 := by decide
      rw [toBytes_reverse_cons, length_append, LittleEndian.ofBytes_append, ofBytes_word,
        hfour, ih.1, ih.2, val_cons, hpow]
      exact ⟨(Nat.add_comm _ _).trans (Nat.mul_succ 4 ws.length).symm, rfl⟩
  rw [← hboth.1, ← hboth.2, LittleEndian.toBytes_ofBytes, reverse_reverse]

/-! ## The chain of products -/

section
variable {key : RSAPublicKey} {a ws : List UInt32} {x e : Nat} (hkey : ValidKey key)

include hkey

/-- An odd modulus has no factor in common with the range. -/
theorem ValidKey.coprime : (val key.n).Coprime (range key) := by
  refine Nat.Coprime.pow_right _ ?_
  rw [Nat.coprime_two_right, Nat.odd_iff]
  exact hkey.odd

/-- Words of the right number whose value is a power in Montgomery form. -/
structure Form (key : RSAPublicKey) (x e : Nat) (ws : List UInt32) : Prop where
  length : ws.length = key.len
  modEq : val ws ≡ x ^ e * range key [MOD val key.n]

theorem Form.square (h : Form key x e ws) : Form key x (2 * e) (montMul key ws ws) := by
  obtain ⟨hlength, hmul⟩ := montMul_val hkey h.length h.length
  refine ⟨hlength, ?_⟩
  have hform := Montgomery.form_mul hkey.coprime hmul h.modEq h.modEq
  rwa [← pow_add, ← two_mul] at hform

theorem form_one (ha : a.length = key.len) : Form key (val a) 1 (montMul key a key.rr) := by
  obtain ⟨hlength, hmul⟩ := montMul_val hkey ha hkey.rr_length
  refine ⟨hlength, ?_⟩
  rw [pow_one]
  refine Montgomery.form_enter hkey.coprime hmul ?_
  rw [hkey.rr]
  exact Nat.mod_modEq _ _

theorem Form.squareLoop (h : Form key x e ws) (rounds : Nat) :
    Form key x (4 ^ rounds * e) (squareLoop key rounds ws) := by
  induction rounds generalizing e ws with
  | zero => rwa [pow_zero, one_mul]
  | succ rounds ih =>
    have hexp : 4 ^ (rounds + 1) * e = 4 ^ rounds * (2 * (2 * e)) := by ring
    rw [hexp]
    exact ih ((h.square hkey).square hkey)

/-- A last product with the plain number. -/
theorem Form.finish {e : Nat} (h : Form key (val a) e ws) (ha : a.length = key.len) :
    (montMul key ws a).length = key.len ∧
      val (montMul key ws a) ≡ val a ^ (e + 1) [MOD val key.n] := by
  obtain ⟨hlength, hmul⟩ := montMul_val hkey h.length ha
  refine ⟨hlength, ?_⟩
  have hform := Montgomery.form_leave hkey.coprime hmul h.modEq
  rwa [← pow_succ] at hform

theorem power_eq (ha : a.length = key.len) :
    ∃ aaa, power key a = some aaa ∧ aaa.length = key.len ∧
      val aaa ≡ val a ^ key.exponent.toNat [MOD val key.n] := by
  obtain hthree | hbig := hkey.exponent
  · refine ⟨montMul key (montMul key (montMul key a key.rr) (montMul key a key.rr)) a, ?_, ?_⟩
    · rw [power, hthree]
      rfl
    · rw [hthree]
      exact ((form_one hkey ha).square hkey).finish hkey ha
  · refine ⟨montMul key (squareLoop key 8 (montMul key a key.rr)) a, ?_, ?_⟩
    · rw [power, hbig]
      rfl
    · rw [hbig]
      exact ((form_one hkey ha).squareLoop hkey 8).finish hkey ha

/-- The last subtraction reduces fully. -/
theorem reduce_eq (ha : a.length = key.len) :
    (if geM key a then subM key a else a).length = key.len ∧
      val (if geM key a then subM key a else a) = val a % val key.n := by
  have hlength : a.length = key.n.length := by rw [ha, hkey.n_length]
  have hlt : val a < range key := by
    have := val_lt a
    rwa [ha] at this
  -- the top bit of the modulus is set
  have hhalf : range key ≤ 2 * val key.n := by
    have htop := hkey.top_bit
    have hpow : range key = 2 * 2 ^ (32 * key.len - 1) := by
      have hpos := hkey.len_pos
      rw [range, ← pow_succ']
      congr 1
      omega
    omega
  rw [geM_eq hlength]
  by_cases hle : val key.n ≤ val a
  · rw [decide_eq_true hle, if_pos rfl, subM_val_of_le hlength hle]
    refine ⟨?_, ?_⟩
    · rw [subM, subLoop_length 0 hlength, ha]
    · rw [Nat.mod_eq_sub_mod hle, Nat.mod_eq_of_lt (by omega)]
  · rw [decide_eq_false hle, if_neg Bool.false_ne_true]
    exact ⟨ha, (Nat.mod_eq_of_lt (not_le.mp hle)).symm⟩

end

/-- `modpow` replaces the input by the big-endian bytes of its power, reduced by the modulus. -/
theorem modpow_eq {key : RSAPublicKey} {inout : List UInt8} (hkey : ValidKey key)
    (hlength : inout.length = 4 * key.len) :
    modpow key inout = some (LittleEndian.toBytes (4 * key.len)
      (LittleEndian.ofBytes inout.reverse ^ key.exponent.toNat % val key.n)).reverse := by
  obtain ⟨aaa, hpower, haaa, hmod⟩ := power_eq hkey (toWords_length key.len inout)
  obtain ⟨hout, hval⟩ := reduce_eq hkey haaa
  rw [modpow, hpower]
  dsimp only
  rw [toBytes_eq, hout, hval, hmod, val_toWords hlength]

/-- A key of two words, and an input above its modulus. -/
theorem modpow_eq_words :
    modpow ⟨2, 3240493027, [560513589, 3373259426], [2198099665, 2006764136], 3⟩
      [255, 255, 255, 255, 255, 255, 255, 255] = some [93, 253, 161, 38, 228, 27, 203, 152] :=
  modpow_eq ⟨by decide, rfl, rfl, by decide, by decide, by decide, by decide, Or.inl rfl⟩ rfl

end SystemCore.Libmincrypt
