import SystemCore.Lib.Occurrences

/-!
# Removing a pattern from a string

`String8::removeAll` searches and compacts in one buffer. The search is `strstr`, so it ends at the
first zero byte, while the string itself may go on behind that. With the empty pattern the loop does
not move.

The buffer is the bytes of the string and a zero byte. The failed allocation is left out.
-/
namespace SystemCore.Libutils.String8

open Lib.Occurrences List

/-- The bytes of a C string, without the zero behind them. -/
structure CString where
  bytes : List UInt8
  no_nul : 0 ∉ bytes

/-- The offset of the first occurrence in front of the zero byte. -/
def strstr (other : List UInt8) : List UInt8 → Option Nat
  | [] => if other = [] then some 0 else none
  | c :: s =>
    if other <+: c :: s then some 0
    else if c = 0 then none
    else (strstr other s).map (· + 1)

/-- `String8::find` on the buffer of a string of `len` bytes. -/
def find (buf : List UInt8) (len : Nat) (other : List UInt8) (start : Nat) : Option Nat :=
  if start ≥ len then none else (strstr other (buf.drop start)).map (start + ·)

def memmove (buf : List UInt8) (dst src n : Nat) : List UInt8 :=
  buf.take dst ++ (buf.drop src).take n ++ buf.drop (dst + n)

/-- The loop of `removeAll`, and the bytes that `unlockBuffer` keeps. -/
def removeLoop (len : Nat) (other : List UInt8) :
    Nat → List UInt8 → Nat → Nat → Option (List UInt8)
  | 0, _, _, _ => none
  | fuel + 1, buf, tail, index =>
    if index < len then
      let skip := other.length
      let next := (find buf len other (index + skip)).getD len
      removeLoop len other fuel (memmove buf tail (index + skip) (next - index - skip))
        (tail + (next - index - skip)) next
    else some (buf.take tail)

/-- The value returned and the string left; `none` where the loop has not ended. -/
def removeAll (fuel : Nat) (s : List UInt8) (other : CString) : Option (Bool × List UInt8) :=
  match find (s ++ [0]) s.length other.bytes 0 with
  | none => some (false, s)
  | some index =>
    (removeLoop s.length other.bytes fuel (s ++ [0]) index index).map fun left => (true, left)

/-! ## Searching -/

def isNul (c : UInt8) : Bool := c = 0

variable {p : List UInt8}

theorem isNul_eq_false (hclean : 0 ∉ p) : ∀ x ∈ p, isNul x = false := by
  intro x hx
  apply decide_eq_false
  intro hzero
  exact hclean (hzero ▸ hx)

/-- The pattern begins in the buffer where it begins in the text. -/
theorem prefix_text_iff (hclean : 0 ∉ p) (s : List UInt8) : p <+: s ++ [0] ↔ p <+: s := by
  rw [prefix_concat_iff]
  refine or_iff_right fun hwhole => hclean ?_
  rw [hwhole]
  exact mem_append_right s mem_cons_self

theorem strstr_cons (hclean : 0 ∉ p) (c : UInt8) (s : List UInt8) :
    strstr p (c :: s ++ [0]) =
      if p <+: c :: s then some 0
      else if c = 0 then none
      else (strstr p (s ++ [0])).map (· + 1) := by
  rw [cons_append, strstr, ← cons_append]
  simp only [prefix_text_iff hclean]

section Pattern

variable {p s : List UInt8} (hclean : 0 ∉ p)

include hclean

theorem strstr_none (h : strstr p (s ++ [0]) = none) :
    removeFrom p isNul 0 s = s ∧ (p <:+: s → p <:+: s.dropWhile fun x => !isNul x) := by
  induction s with
  | nil => exact ⟨by rw [removeFrom], id⟩
  | cons c s ih =>
    rw [strstr_cons hclean] at h
    by_cases hfirst : p <+: c :: s
    · rw [if_pos hfirst] at h
      exact absurd h (Option.some_ne_none 0)
    · rw [if_neg hfirst] at h
      by_cases hc : c = 0
      · have hstop : isNul c = true := decide_eq_true hc
        rw [removeFrom_stopped hfirst hstop,
          dropWhile_cons_of_neg (by rw [hstop]; exact Bool.false_ne_true)]
        exact ⟨rfl, id⟩
      · rw [if_neg hc, Option.map_eq_none_iff] at h
        have hstop : isNul c = false := decide_eq_false hc
        obtain ⟨hsame, hoccurs⟩ := ih h
        rw [removeFrom_kept hfirst hstop, hsame, dropWhile_cons_of_pos (by rw [hstop]; rfl),
          infix_cons_iff, or_iff_right hfirst]
        exact ⟨rfl, hoccurs⟩

variable (hp : p ≠ [])

include hp

theorem strstr_end : strstr p ([] ++ [0]) = none := by
  have hfirst : ¬ p <+: [0] := fun hpre =>
    hp (prefix_nil.mp ((prefix_text_iff hclean []).mp hpre))
  rw [nil_append, strstr, if_neg hfirst, if_pos rfl]

/-- What is in front of the occurrence found is kept, and the removal goes on behind it. -/
theorem strstr_some {i : Nat} (h : strstr p (s ++ [0]) = some i) :
    ∃ front rest, s = front ++ p ++ rest ∧ front.length = i
      ∧ removeFrom p isNul 0 s = front ++ removeFrom p isNul 0 rest := by
  induction s generalizing i with
  | nil =>
    rw [strstr_end hclean hp] at h
    exact absurd h.symm (Option.some_ne_none i)
  | cons c s ih =>
    rw [strstr_cons hclean] at h
    by_cases hfirst : p <+: c :: s
    · rw [if_pos hfirst] at h
      obtain rfl := Option.some.inj h
      obtain ⟨rest, hrest⟩ := hfirst
      rw [← hrest]
      exact ⟨[], rest, rfl, rfl, removeFrom_occurrence hp rest⟩
    · rw [if_neg hfirst] at h
      by_cases hc : c = 0
      · rw [if_pos hc] at h
        exact absurd h.symm (Option.some_ne_none i)
      · rw [if_neg hc, Option.map_eq_some_iff] at h
        obtain ⟨j, hj, rfl⟩ := h
        obtain ⟨front, rest, hsplit, hlength, hremove⟩ := ih hj
        refine ⟨c :: front, rest, ?_, by rw [length_cons, hlength], ?_⟩
        · rw [hsplit]
          rfl
        · rw [removeFrom_kept hfirst (decide_eq_false hc), hremove]
          rfl

/-- The search that begins behind an occurrence reads the text behind it. -/
theorem find_behind {buf rest : List UInt8} {len index : Nat} (hlength : buf.length = len + 1)
    (htext : buf.drop index = p ++ rest ++ [0]) :
    find buf len p (index + p.length)
      = (strstr p (rest ++ [0])).map (index + p.length + ·) := by
  have hcount := congrArg List.length htext
  rw [length_drop, length_append, length_append, length_singleton] at hcount
  have hbehind : buf.drop (index + p.length) = rest ++ [0] := by
    rw [← drop_drop, htext, append_assoc, drop_left]
  unfold find
  rw [hbehind]
  by_cases hend : index + p.length ≥ len
  · obtain rfl : rest = [] := eq_nil_of_length_eq_zero (by omega)
    rw [if_pos hend, strstr_end hclean hp]
    rfl
  · rw [if_neg hend]

end Pattern

/-! ## Compacting -/

variable {buf : List UInt8} {dst src n : Nat}

theorem take_memmove (hdst : dst ≤ buf.length) (hsrc : src + n ≤ buf.length) :
    (memmove buf dst src n).take (dst + n) = buf.take dst ++ (buf.drop src).take n := by
  have hlength : (buf.take dst ++ (buf.drop src).take n).length = dst + n := by
    rw [length_append, length_take, length_take, length_drop]
    omega
  rw [memmove, ← hlength, take_left]

/-- What is behind the bytes written stays. -/
theorem drop_memmove {k : Nat} (hdst : dst ≤ buf.length) (hsrc : src + n ≤ buf.length)
    (hk : dst + n ≤ k) : (memmove buf dst src n).drop k = buf.drop k := by
  have hlength : (buf.take dst ++ (buf.drop src).take n).length = dst + n := by
    rw [length_append, length_take, length_take, length_drop]
    omega
  obtain ⟨j, rfl⟩ := Nat.exists_eq_add_of_le hk
  rw [memmove, ← hlength, drop_length_add_append, drop_drop, hlength]

theorem length_memmove (hdst : dst + n ≤ buf.length) (hsrc : src + n ≤ buf.length) :
    (memmove buf dst src n).length = buf.length := by
  rw [memmove, length_append, length_append, length_take, length_take,
    length_drop, length_drop]
  omega

/-- With the index at an occurrence, the loop keeps what it has compacted and adds the text behind
the occurrence without further ones. -/
theorem removeLoop_eq (hp : p ≠ []) (hclean : 0 ∉ p) {len fuel tail index : Nat} {rest : List UInt8}
    (hlength : buf.length = len + 1) (htext : buf.drop index = p ++ rest ++ [0])
    (htail : tail ≤ index) (hfuel : rest.length + 2 ≤ fuel) :
    removeLoop len p fuel buf tail index = some (buf.take tail ++ removeFrom p isNul 0 rest) := by
  -- on the fuel; each round but the last uses up one occurrence of the text
  induction fuel generalizing tail index buf rest with
  | zero => omega
  | succ fuel ih =>
    have hcount := congrArg List.length htext
    rw [length_drop, length_append, length_append, length_singleton] at hcount
    have hpos := length_pos_of_ne_nil hp
    have hbehind : buf.drop (index + p.length) = rest ++ [0] := by
      rw [← drop_drop, htext, append_assoc, drop_left]
    rw [removeLoop, if_pos (by omega)]
    simp only [find_behind hclean hp hlength htext]
    cases hfound : strstr p (rest ++ [0]) with
    | none =>
      obtain ⟨hsame, -⟩ := strstr_none hclean hfound
      have hmoved : len - index - p.length = rest.length := by omega
      rw [Option.map_none, Option.getD_none, hmoved, hsame]
      cases fuel with
      | zero => omega
      | succ fuel =>
        rw [removeLoop, if_neg (Nat.lt_irrefl len),
          take_memmove (by omega) (by omega), hbehind, take_left]
    | some i =>
      obtain ⟨front, behind, hsplit, hi, hremove⟩ := strstr_some hclean hp hfound
      have hsizes := congrArg List.length hsplit
      rw [length_append, length_append] at hsizes
      have hmoved : index + p.length + i - index - p.length = i := by omega
      have hnext : buf.drop (index + p.length + i) = p ++ behind ++ [0] := by
        rw [← drop_drop, hbehind, hsplit, ← hi, append_assoc, append_assoc,
          append_assoc, drop_left]
      rw [Option.map_some, Option.getD_some, hmoved]
      rw [ih (by rw [length_memmove (by omega) (by omega), hlength])
        (by rw [drop_memmove (by omega) (by omega) (by omega), hnext]) (by omega) (by omega),
        take_memmove (by omega) (by omega), hbehind, hremove, hsplit, ← hi, append_assoc front,
        append_assoc front, take_left, append_assoc]

/-- What `removeAll` returns and leaves for a pattern that is not empty. -/
theorem removeAll_eq {other : CString} (hp : other.bytes ≠ []) (s : List UInt8) {fuel : Nat}
    (hfuel : s.length + 2 ≤ fuel) :
    removeAll fuel s other
      = some ((strstr other.bytes (s ++ [0])).isSome, removeFrom other.bytes isNul 0 s) := by
  have hsearch : find (s ++ [0]) s.length other.bytes 0 = strstr other.bytes (s ++ [0]) := by
    unfold find
    rw [drop_zero]
    by_cases hempty : 0 ≥ s.length
    · obtain rfl : s = [] := eq_nil_of_length_eq_zero (by omega)
      rw [if_pos hempty, strstr_end other.no_nul hp]
    · rw [if_neg hempty]
      simp only [Nat.zero_add, Option.map_id']
  unfold removeAll
  rw [hsearch]
  cases hfound : strstr other.bytes (s ++ [0]) with
  | none =>
    obtain ⟨hsame, -⟩ := strstr_none other.no_nul hfound
    rw [hsame]
    rfl
  | some i =>
    obtain ⟨front, rest, hsplit, hi, hremove⟩ := strstr_some other.no_nul hp hfound
    have hsizes := congrArg List.length hsplit
    rw [length_append, length_append] at hsizes
    have htext : (s ++ [0]).drop i = other.bytes ++ rest ++ [0] := by
      rw [hsplit, ← hi, append_assoc, append_assoc, append_assoc, drop_left]
    have hlength : (s ++ [0]).length = s.length + 1 := length_append
    have hfront : (s ++ [0]).take i = front := by
      rw [hsplit, ← hi, append_assoc, append_assoc, take_left]
    simp only []
    rw [removeLoop_eq hp other.no_nul hlength htext (Nat.le_refl i) (by omega), hfront, hremove]
    rfl

/-! ## The empty pattern -/

theorem find_empty {len start : Nat} (h : start < len) : find buf len [] start = some start := by
  rw [find, if_neg (Nat.not_le_of_lt h)]
  cases buf.drop start with
  | nil => rfl
  | cons c s => rw [strstr, if_pos nil_prefix]; rfl

/-- The loop stays where it is. -/
theorem removeLoop_empty (fuel : Nat) {len tail index : Nat} (h : index < len) :
    removeLoop len [] fuel buf tail index = none := by
  induction fuel with
  | zero => rfl
  | succ fuel ih =>
    have hstays : memmove buf tail index 0 = buf := by
      rw [memmove, take_zero, append_nil, Nat.add_zero, take_append_drop]
    rw [removeLoop, if_pos h]
    simp only [length_nil, Nat.add_zero, find_empty h, Option.getD_some, Nat.sub_self, hstays]
    exact ih

/-! ## The whole call -/

/-- The call returns, with whether the pattern occurs, and leaves the string without its leftmost
occurrences. -/
def RemovesAll (s : List UInt8) (other : CString) : Prop :=
  ∃ enough, ∀ fuel ≥ enough, removeAll fuel s other
    = some (decide (other.bytes <:+: s), removeOccurrences other.bytes s)

/-- For every string and pattern: all occurrences are removed if and only if the pattern is not
empty and does not occur behind a zero byte. -/
theorem removesAll_iff (s : List UInt8) (other : CString) :
    RemovesAll s other ↔
      other.bytes ≠ [] ∧ ¬ other.bytes <:+: s.dropWhile fun c => !isNul c := by
  constructor
  · intro ⟨enough, hall⟩
    have hp : other.bytes ≠ [] := by
      intro hempty
      have hresult := hall enough (Nat.le_refl enough)
      unfold removeAll at hresult
      rw [hempty] at hresult
      cases s with
      | nil =>
        have hreturned := congrArg Prod.fst (Option.some.inj hresult)
        rw [eq_comm, decide_eq_false_iff_not] at hreturned
        exact hreturned (infix_refl [])
      | cons c s =>
        have hpos : 0 < (c :: s).length := Nat.succ_pos s.length
        rw [find_empty hpos] at hresult
        simp only [removeLoop_empty enough hpos] at hresult
        exact absurd hresult.symm (Option.some_ne_none _)
    refine ⟨hp, ?_⟩
    have hresult := hall (max enough (s.length + 2)) (Nat.le_max_left enough _)
    rw [removeAll_eq hp s (Nat.le_max_right enough _)] at hresult
    rw [← removeFrom_eq_iff hp (isNul_eq_false other.no_nul) s]
    exact congrArg Prod.snd (Option.some.inj hresult)
  · intro ⟨hp, hbehind⟩
    refine ⟨s.length + 2, fun fuel hfuel => ?_⟩
    rw [removeAll_eq hp s hfuel,
      (removeFrom_eq_iff hp (isNul_eq_false other.no_nul) s).mpr hbehind]
    congr 2
    cases hfound : strstr other.bytes (s ++ [0]) with
    | none =>
      obtain ⟨-, hoccurs⟩ := strstr_none other.no_nul hfound
      exact (decide_eq_false fun h => hbehind (hoccurs h)).symm
    | some i =>
      obtain ⟨front, rest, hsplit, -, -⟩ := strstr_some other.no_nul hp hfound
      exact (decide_eq_true ⟨front, rest, hsplit.symm⟩).symm

/-- The empty pattern on a string of one byte never returns, and an occurrence behind a zero byte
stays. -/
theorem occurrences_left :
    ¬ RemovesAll [97] ⟨[], List.not_mem_nil⟩ ∧ ¬ RemovesAll [97, 0, 97] ⟨[97], by decide⟩ := by
  constructor
  · intro ⟨enough, hall⟩
    have hresult := hall enough (Nat.le_refl enough)
    have hpos : 0 < [(97 : UInt8)].length := Nat.one_pos
    rw [removeAll, find_empty hpos] at hresult
    simp only [removeLoop_empty enough hpos] at hresult
    exact absurd hresult.symm (Option.some_ne_none _)
  · intro ⟨enough, hall⟩
    have hresult := hall (max enough 5) (Nat.le_max_left enough 5)
    rw [removeAll_eq (by decide) [97, 0, 97] (Nat.le_max_right enough 5)] at hresult
    have hleft := congrArg Prod.snd (Option.some.inj hresult)
    revert hleft
    decide

end SystemCore.Libutils.String8
