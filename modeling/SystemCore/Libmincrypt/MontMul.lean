import Mathlib.Data.Nat.Digits.Lemmas
import Mathlib.Tactic.LinearCombination
import SystemCore.Lib.Montgomery
import SystemCore.Libmincrypt.Rsa

/-!
# The word arithmetic is Montgomery multiplication

The value of the words after each call is said in terms of their values before it. None of the
64-bit sums overflows.
-/
namespace SystemCore.Libmincrypt

open Lib List Montgomery

/-- The number that little-endian words stand for. -/
def val (ws : List UInt32) : Nat := Nat.ofDigits (2 ^ 32) (ws.map UInt32.toNat)

@[simp] theorem val_nil : val [] = 0 := rfl

@[simp] theorem val_cons (w : UInt32) (ws : List UInt32) :
    val (w :: ws) = w.toNat + 2 ^ 32 * val ws := by
  rfl

theorem val_append (ws vs : List UInt32) :
    val (ws ++ vs) = val ws + 2 ^ (32 * ws.length) * val vs := by
  rw [val, map_append, Nat.ofDigits_append, length_map, ← pow_mul]
  rfl

theorem val_lt (ws : List UInt32) : val ws < 2 ^ (32 * ws.length) := by
  have hlt := Nat.ofDigits_lt_base_pow_length (b := 2 ^ 32) (l := ws.map UInt32.toNat) (by decide)
    fun x hx => by
      obtain ⟨w, -, rfl⟩ := mem_map.mp hx
      exact w.toNat_lt
  rwa [length_map, ← pow_mul] at hlt

theorem val_replicate_zero (len : Nat) : val (List.replicate len 0) = 0 := by
  induction len with
  | zero => rfl
  | succ len ih =>
    rw [replicate_succ, val_cons, ih]
    rfl

/-! ## Subtraction and comparison -/

variable {as ns bs cs : List UInt32}

theorem subLoop_length (A : Int) (h : as.length = ns.length) :
    (subLoop A as ns).length = as.length := by
  induction as generalizing A ns with
  | nil => cases ns <;> rfl
  | cons a as ih =>
    cases ns with
    | nil => nomatch h
    | cons n ns =>
      rw [subLoop, length_cons, ih _ (Nat.succ.inj h), length_cons]

/-- One word of the difference, with the borrow of the word before and the next one. -/
theorem sub_word {A : Int} (hA : A = 0 ∨ A = -1) (a n : UInt32) :
    ∃ A' : Int, (A' = 0 ∨ A' = -1) ∧
      Int.bmod (A + ((a.toNat : Int) - n.toNat) % 2 ^ 64) (2 ^ 64) >>> (32 : Nat) = A' ∧
      ((truncate (Int.bmod (A + ((a.toNat : Int) - n.toNat) % 2 ^ 64) (2 ^ 64))).toNat : Int) +
        2 ^ 32 * A' = (a.toNat : Int) - n.toNat + A := by
  have ha := a.toNat_lt
  have hn := n.toNat_lt
  have hbmod : Int.bmod (A + ((a.toNat : Int) - n.toNat) % 2 ^ 64) (2 ^ 64) =
      A + ((a.toNat : Int) - n.toNat) := by
    rw [Int.bmod_def]
    omega
  rw [hbmod, Int.shiftRight_eq_div_pow]
  refine ⟨(A + ((a.toNat : Int) - n.toNat)) / 2 ^ 32, ?_, rfl, ?_⟩
  · omega
  · rw [truncate, UInt32.toNat_ofNat']
    omega

theorem subLoop_val {A : Int} (hA : A = 0 ∨ A = -1) (h : as.length = ns.length) :
    ∃ A' : Int, (A' = 0 ∨ A' = -1) ∧
      (val (subLoop A as ns) : Int) + 2 ^ (32 * as.length) * A' = val as - val ns + A := by
  induction as generalizing A ns with
  | nil =>
    cases ns with
    | cons n ns => nomatch h
    | nil => exact ⟨A, hA, by simp [subLoop]⟩
  | cons a as ih =>
    cases ns with
    | nil => nomatch h
    | cons n ns =>
      obtain ⟨A₁, hA₁, hshift, hword⟩ := sub_word hA a n
      obtain ⟨A', hA', hval⟩ := ih hA₁ (Nat.succ.inj h)
      refine ⟨A', hA', ?_⟩
      rw [subLoop, hshift]
      generalize truncate (Int.bmod (A + ((a.toNat : Int) - n.toNat) % 2 ^ 64) (2 ^ 64)) = w at hword ⊢
      rw [val_cons, val_cons, val_cons, length_cons, Nat.mul_succ, pow_add]
      push_cast
      linear_combination hword + 2 ^ 32 * hval

/-- A key as it has to be: an odd modulus of `len` words with its top bit set, and the two numbers
that go with it. -/
structure ValidKey (key : RSAPublicKey) : Prop where
  len_pos : 1 ≤ key.len
  n_length : key.n.length = key.len
  rr_length : key.rr.length = key.len
  odd : val key.n % 2 = 1
  top_bit : 2 ^ (32 * key.len - 1) ≤ val key.n
  n0inv : 2 ^ 32 ∣ (key.n.headD 0).toNat * key.n0inv.toNat + 1
  rr : val key.rr = (2 ^ (32 * key.len)) ^ 2 % val key.n
  exponent : key.exponent = 3 ∨ key.exponent = 65537

section
variable {key : RSAPublicKey} {a : List UInt32}

/-- The difference is taken with a borrow from in front of the words, or without. -/
theorem subM_val (h : a.length = key.n.length) :
    val (subM key a) < 2 ^ (32 * a.length) ∧ (val (subM key a) + val key.n = val a ∨
      val (subM key a) + val key.n = 2 ^ (32 * a.length) + val a) := by
  obtain ⟨A, hA, hval⟩ := subLoop_val (Or.inl rfl) h
  have hout : val (subM key a) < 2 ^ (32 * a.length) := by
    have := val_lt (subLoop 0 a key.n)
    rwa [subLoop_length 0 h] at this
  refine ⟨hout, ?_⟩
  rw [subM]
  generalize hR : 2 ^ (32 * a.length) = R at *
  have hcast : ((2 : Int) ^ (32 * a.length)) = R := by rw [← hR]; push_cast; rfl
  obtain rfl | rfl := hA <;> omega

/-- The words are taken to have a carry in front of them. -/
theorem subM_val_of_carry (h : a.length = key.n.length) (hlt : val a < val key.n) :
    val (subM key a) + val key.n = 2 ^ (32 * key.n.length) + val a := by
  rw [← h]
  exact (subM_val h).2.resolve_left (by omega)

theorem subM_val_of_le (h : a.length = key.n.length) (hle : val key.n ≤ val a) :
    val (subM key a) = val a - val key.n := by
  obtain ⟨hout, hval⟩ := subM_val h
  have hlt := val_lt a
  omega

end

/-- Words that agree above decide by the rest. -/
theorem geLoop_reverse (h : as.length = ns.length) :
    geLoop as ns = decide (val ns.reverse ≤ val as.reverse) := by
  induction as generalizing ns with
  | nil =>
    cases ns with
    | cons n ns => nomatch h
    | nil => rfl
  | cons a as ih =>
    cases ns with
    | nil => nomatch h
    | cons n ns =>
      have hlength := Nat.succ.inj h
      have hva := val_lt as.reverse
      have hvn := val_lt ns.reverse
      rw [geLoop, ih hlength, reverse_cons, reverse_cons, val_append, val_append,
        length_reverse, length_reverse, ← hlength]
      rw [length_reverse] at hva hvn
      rw [← hlength] at hvn
      simp only [val_cons, val_nil, Nat.mul_zero, Nat.add_zero, UInt32.lt_iff_toNat_lt]
      generalize 2 ^ (32 * as.length) = R at *
      split_ifs with hlt hgt
      · symm
        rw [decide_eq_false_iff_not, not_le]
        have := Nat.mul_le_mul_left R (Nat.succ_le_of_lt hlt)
        rw [Nat.succ_eq_add_one, Nat.mul_add, Nat.mul_one] at this
        omega
      · symm
        rw [decide_eq_true_iff]
        have := Nat.mul_le_mul_left R (Nat.succ_le_of_lt hgt)
        rw [Nat.succ_eq_add_one, Nat.mul_add, Nat.mul_one] at this
        omega
      · have heq : a.toNat = n.toNat := by omega
        rw [heq]
        exact decide_eq_decide.mpr (by omega)

theorem geM_eq {key : RSAPublicKey} {a : List UInt32} (h : a.length = key.n.length) :
    geM key a = decide (val key.n ≤ val a) := by
  rw [geM, geLoop_reverse (by rw [length_reverse, length_reverse, h]),
    reverse_reverse, reverse_reverse]

/-! ## Multiplication by a word -/

/-- A product of two words with two more words on top fits into 64 bits. -/
theorem word_sum_lt (x y : UInt32) {u v : Nat} (hu : u < 2 ^ 32) (hv : v < 2 ^ 32) :
    u + x.toNat * y.toNat + v < 2 ^ 64 := by
  have hx := x.toNat_lt
  have hy := y.toNat_lt
  have hmul : x.toNat * y.toNat ≤ (2 ^ 32 - 1) * (2 ^ 32 - 1) :=
    Nat.mul_le_mul (Nat.le_sub_one_of_lt hx) (Nat.le_sub_one_of_lt hy)
  omega

theorem mulAddLoop_length (a d0 : UInt32) (A B : Nat) (hb : bs.length = ns.length)
    (hc : cs.length = ns.length) : (mulAddLoop a d0 A B bs cs ns).1.length = ns.length := by
  induction ns generalizing A B bs cs with
  | nil =>
    rw [length_nil, length_eq_zero_iff] at hb hc
    subst hb hc
    rfl
  | cons n ns ih =>
    obtain ⟨b, bs, rfl⟩ := exists_cons_of_length_eq_add_one hb
    obtain ⟨c, cs, rfl⟩ := exists_cons_of_length_eq_add_one hc
    rw [mulAddLoop, length_cons, ih _ _ (Nat.succ.inj hb) (Nat.succ.inj hc), length_cons]

/-- The two sums carry over from word to word. -/
theorem mulAddLoop_val (a d0 : UInt32) {A B : Nat} (hA : A < 2 ^ 64) (hB : B < 2 ^ 64)
    (hb : bs.length = ns.length) (hc : cs.length = ns.length) :
    ∃ A' B', (mulAddLoop a d0 A B bs cs ns).2 = (A', B') ∧ A' < 2 ^ 64 ∧ B' < 2 ^ 64 ∧
      val (mulAddLoop a d0 A B bs cs ns).1 + 2 ^ (32 * ns.length) * (A' / 2 ^ 32 + B' / 2 ^ 32) =
        val cs + a.toNat * val bs + d0.toNat * val ns + (A / 2 ^ 32 + B / 2 ^ 32) := by
  induction ns generalizing A B bs cs with
  | nil =>
    rw [length_nil, length_eq_zero_iff] at hb hc
    subst hb hc
    exact ⟨A, B, rfl, hA, hB, by simp [mulAddLoop]⟩
  | cons n ns ih =>
    obtain ⟨b, bs, rfl⟩ := exists_cons_of_length_eq_add_one hb
    obtain ⟨c, cs, rfl⟩ := exists_cons_of_length_eq_add_one hc
    have hA₁ : (A >>> 32) + a.toNat * b.toNat + c.toNat < 2 ^ 64 := by
      refine word_sum_lt a b ?_ c.toNat_lt
      omega
    obtain ⟨A₁, hA₁eq⟩ : ∃ A₁, (A >>> 32) + a.toNat * b.toNat + c.toNat = A₁ := ⟨_, rfl⟩
    rw [hA₁eq] at hA₁
    have hB₁ : (B >>> 32) + d0.toNat * n.toNat + A₁ % 2 ^ 32 < 2 ^ 64 := by
      refine word_sum_lt d0 n ?_ (Nat.mod_lt _ (by decide))
      omega
    obtain ⟨B₁, hB₁eq⟩ : ∃ B₁, (B >>> 32) + d0.toNat * n.toNat + A₁ % 2 ^ 32 = B₁ := ⟨_, rfl⟩
    rw [hB₁eq] at hB₁
    obtain ⟨A', B', hloop, hA', hB', hval⟩ := ih hA₁ hB₁ (Nat.succ.inj hb) (Nat.succ.inj hc)
    refine ⟨A', B', ?_, hA', hB', ?_⟩
    · rw [mulAddLoop, hA₁eq, Nat.mod_eq_of_lt hA₁, hB₁eq, Nat.mod_eq_of_lt hB₁]
      exact hloop
    · rw [mulAddLoop, hA₁eq, Nat.mod_eq_of_lt hA₁, hB₁eq, Nat.mod_eq_of_lt hB₁]
      rw [val_cons, val_cons, val_cons, val_cons, length_cons, Nat.mul_succ, pow_add,
        UInt32.toNat_ofNat']
      rw [Nat.shiftRight_eq_div_pow] at hA₁eq hB₁eq
      have hAdiv := Nat.div_add_mod A₁ (2 ^ 32)
      have hBdiv := Nat.div_add_mod B₁ (2 ^ 32)
      linear_combination 2 ^ 32 * hval - hA₁eq - hB₁eq + hAdiv + hBdiv

/-- The range of `len` words. -/
def range (key : RSAPublicKey) : Nat := 2 ^ (32 * key.len)

section
variable {key : RSAPublicKey} {c b : List UInt32} {a : UInt32}

theorem ValidKey.n_lt (hkey : ValidKey key) : val key.n < range key := by
  have hlt := val_lt key.n
  rwa [hkey.n_length] at hlt

/-- `n0inv` is the negated inverse of the whole modulus. -/
theorem ValidKey.dvd_inv (hkey : ValidKey key) : 2 ^ 32 ∣ val key.n * key.n0inv.toNat + 1 := by
  have hdvd := hkey.n0inv
  have hlength := hkey.n_length
  have hpos := hkey.len_pos
  cases hn : key.n with
  | nil =>
    rw [hn, length_nil] at hlength
    omega
  | cons n0 ns =>
    rw [hn, headD_cons] at hdvd
    rw [val_cons]
    have hsplit : (n0.toNat + 2 ^ 32 * val ns) * key.n0inv.toNat + 1 =
        n0.toNat * key.n0inv.toNat + 1 + 2 ^ 32 * (val ns * key.n0inv.toNat) := by ring
    rw [hsplit]
    exact hdvd.add (Dvd.intro _ rfl)

/-- The sum of a step before the subtraction, in words and a carry. -/
theorem montMulAdd_words (hkey : ValidKey key) (hc : c.length = key.len) (hb : b.length = key.len) :
    ∃ words A, words.length = key.len ∧ A < 2 ^ 64 ∧
      montMulAdd key c a b = (if A >>> 32 ≠ 0 then subM key words else words) ∧
      val words + range key * (A >>> 32) =
        Montgomery.addDigit (2 ^ 32) (val key.n) key.n0inv.toNat (val c) a.toNat (val b) := by
  have hinv := hkey.dvd_inv
  obtain ⟨len, hlen⟩ : ∃ len, key.len = len + 1 := ⟨key.len - 1, by have := hkey.len_pos; omega⟩
  have hn := hkey.n_length
  rw [hlen] at hc hb hn
  obtain ⟨b0, bs, rfl⟩ := exists_cons_of_length_eq_add_one hb
  obtain ⟨c0, cs, rfl⟩ := exists_cons_of_length_eq_add_one hc
  obtain ⟨n0, ns, hns⟩ := exists_cons_of_length_eq_add_one hn
  rw [hns] at hinv hn ⊢
  have hbs : bs.length = ns.length := by simp only [length_cons] at hb hn; omega
  have hcs : cs.length = ns.length := by simp only [length_cons] at hc hn; omega
  -- the first word
  have hA₀ : a.toNat * b0.toNat + c0.toNat < 2 ^ 64 := by
    have := word_sum_lt a b0 (u := 0) (by decide) c0.toNat_lt
    rwa [Nat.zero_add] at this
  obtain ⟨A₀, hA₀eq⟩ : ∃ A₀, a.toNat * b0.toNat + c0.toNat = A₀ := ⟨_, rfl⟩
  rw [hA₀eq] at hA₀
  obtain ⟨d0, hd0⟩ : ∃ d0, UInt32.ofNat A₀ * key.n0inv = d0 := ⟨_, rfl⟩
  have hfactor : d0.toNat = factor (2 ^ 32) key.n0inv.toNat
      (val (c0 :: cs) + a.toNat * val (b0 :: bs)) := by
    have hmod : (val (c0 :: cs) + a.toNat * val (b0 :: bs)) % 2 ^ 32 = A₀ % 2 ^ 32 := by
      have hsplit : val (c0 :: cs) + a.toNat * val (b0 :: bs) =
          A₀ + 2 ^ 32 * (val cs + a.toNat * val bs) := by
        rw [val_cons, val_cons, ← hA₀eq]
        ring
      rw [hsplit, Nat.add_mul_mod_self_left]
    rw [factor, hmod, ← hd0, UInt32.toNat_mul, UInt32.toNat_ofNat']
  have hB₀ : d0.toNat * n0.toNat + A₀ % 2 ^ 32 < 2 ^ 64 := by
    have := word_sum_lt d0 n0 (u := 0) (by decide) (Nat.mod_lt A₀ (by decide : 0 < 2 ^ 32))
    rwa [Nat.zero_add] at this
  obtain ⟨B₀, hB₀eq⟩ : ∃ B₀, d0.toNat * n0.toNat + A₀ % 2 ^ 32 = B₀ := ⟨_, rfl⟩
  rw [hB₀eq] at hB₀
  obtain ⟨A', B', hloop, hA', hB', hval⟩ := mulAddLoop_val a d0 hA₀ hB₀ hbs hcs
  have hlow := mulAddLoop_length a d0 A₀ B₀ hbs hcs
  obtain ⟨low, hpair⟩ : ∃ low, mulAddLoop a d0 A₀ B₀ bs cs ns = (low, A', B') :=
    ⟨_, Prod.ext rfl hloop⟩
  rw [hpair] at hval hlow
  obtain ⟨A, hAeq⟩ : ∃ A, (A' >>> 32) + (B' >>> 32) = A := ⟨_, rfl⟩
  have hA : A < 2 ^ 64 := by
    omega
  refine ⟨low ++ [UInt32.ofNat A], A, ?_, hA, ?_, ?_⟩
  · rw [length_append, length_singleton, hlow, hlen]
    exact hn
  · simp only [montMulAdd, hns, hA₀eq, Nat.mod_eq_of_lt hA₀, hd0, hB₀eq, Nat.mod_eq_of_lt hB₀,
      hpair, hAeq, Nat.mod_eq_of_lt hA]
  · have hns' : ns.length = len := Nat.succ.inj hn
    -- the words and the carry together
    have hwords : val (low ++ [UInt32.ofNat A]) + range key * (A >>> 32) =
        val cs + a.toNat * val bs + d0.toNat * val ns + (A₀ / 2 ^ 32 + B₀ / 2 ^ 32) := by
      rw [← hval, val_append, val_cons, val_nil, UInt32.toNat_ofNat', range, hlen, hlow, hns',
        Nat.mul_succ, pow_add, Nat.shiftRight_eq_div_pow]
      rw [Nat.shiftRight_eq_div_pow, Nat.shiftRight_eq_div_pow] at hAeq
      have hAdiv := Nat.div_add_mod A (2 ^ 32)
      zify at hAeq hAdiv ⊢
      linear_combination (2 : Int) ^ (32 * len) * (hAdiv - hAeq)
    -- the lowest word of the sum is zero
    have hdvd : 2 ^ 32 ∣ B₀ := by
      have htotal := dvd_add_factor hinv (val (c0 :: cs) + a.toNat * val (b0 :: bs))
      rw [← hfactor] at htotal
      have hsplit : val (c0 :: cs) + a.toNat * val (b0 :: bs) + d0.toNat * val (n0 :: ns) =
          B₀ + 2 ^ 32 * (A₀ / 2 ^ 32 + val cs + a.toNat * val bs + d0.toNat * val ns) := by
        have hAdiv := Nat.div_add_mod A₀ (2 ^ 32)
        rw [val_cons, val_cons, val_cons]
        linear_combination hA₀eq + hB₀eq - hAdiv
      rw [hsplit] at htotal
      exact (Nat.dvd_add_left (Dvd.intro _ rfl)).mp htotal
    refine Nat.eq_of_mul_eq_mul_left (by decide : 0 < 2 ^ 32) ?_
    rw [mul_addDigit hinv, ← hfactor, hwords, val_cons, val_cons, val_cons]
    have hAdiv := Nat.div_add_mod A₀ (2 ^ 32)
    have hBdiv := Nat.mul_div_cancel' hdvd
    linear_combination hAdiv + hBdiv - hA₀eq - hB₀eq

/-- One call of `montMulAdd` is one step of the product. -/
theorem montMulAdd_val (hkey : ValidKey key) (hc : c.length = key.len) (hb : b.length = key.len) :
    (montMulAdd key c a b).length = key.len ∧
      val (montMulAdd key c a b) = Montgomery.step (range key) (2 ^ 32) (val key.n)
        key.n0inv.toNat (val c) a.toNat (val b) := by
  obtain ⟨words, A, hlength, -, hadd, hval⟩ := montMulAdd_words (a := a) hkey hc hb
  have hclt : val c < range key := by
    have hlt := val_lt c
    rwa [hc] at hlt
  have hblt : val b < range key := by
    have hlt := val_lt b
    rwa [hb] at hlt
  have hbound := addDigit_lt (val key.n) key.n0inv.toNat
    (by decide : 0 < 2 ^ 32) hclt hblt.le a.toNat_lt
  have hwords : val words < range key := by
    have hlt := val_lt words
    rwa [hlength] at hlt
  have hn := hkey.n_lt
  rw [← hval] at hbound
  rw [hadd, step, ← hval]
  by_cases hcarry : A >>> 32 = 0
  · rw [if_neg (not_not.mpr hcarry), hcarry, Nat.mul_zero, Nat.add_zero,
      if_neg (not_le.mpr hwords)]
    exact ⟨hlength, rfl⟩
  · -- the sum is less than the modulus above the range, so the carry is one
    have hone : A >>> 32 = 1 := by
      by_contra hne
      have htwo : 2 ≤ A >>> 32 := by omega
      have := Nat.mul_le_mul_left (range key) htwo
      omega
    have hwn : words.length = key.n.length := by rw [hlength, hkey.n_length]
    rw [hone, Nat.mul_one] at hbound ⊢
    rw [if_pos (by decide), if_pos (Nat.le_add_left _ _)]
    have hlt : val words < val key.n := by omega
    have hsub := subM_val_of_carry hwn hlt
    rw [hkey.n_length] at hsub
    refine ⟨?_, ?_⟩
    · rw [subM, subLoop_length 0 hwn, hlength]
    · rw [range]
      omega

/-- `montMul` multiplies in Montgomery's way. -/
theorem montMul_val (hkey : ValidKey key) (has : as.length = key.len) (hb : b.length = key.len) :
    (montMul key as b).length = key.len ∧
      range key * val (montMul key as b) ≡ val as * val b [MOD val key.n] := by
  have hfold (digits : List UInt32) {c : List UInt32} (hc : c.length = key.len) :
      (digits.foldl (fun c ai => montMulAdd key c ai b) c).length = key.len ∧
        val (digits.foldl (fun c ai => montMulAdd key c ai b) c) =
          Montgomery.product (range key) (2 ^ 32) (val key.n) key.n0inv.toNat (val b) (val c)
            (digits.map UInt32.toNat) := by
    induction digits generalizing c with
    | nil => exact ⟨hc, rfl⟩
    | cons a digits ih =>
      obtain ⟨hlength, hstep⟩ := montMulAdd_val (a := a) hkey hc hb
      rw [foldl_cons, map_cons, Montgomery.product, foldl_cons, ← hstep]
      exact ih hlength
  obtain ⟨hlength, hval⟩ := hfold as (c := List.replicate key.len 0) length_replicate
  refine ⟨hlength, ?_⟩
  have hmod := Montgomery.pow_mul_product_modEq (R := range key) (b := val b) (c := 0)
    (as.map UInt32.toNat) hkey.dvd_inv hkey.n_lt.le
  rw [val_replicate_zero] at hval
  rw [length_map, has, ← pow_mul, Nat.zero_add, ← hval] at hmod
  exact hmod

end

end SystemCore.Libmincrypt
