import Mathlib.Data.Nat.Digits.Defs

/-!
# RSA public exponentiation of libmincrypt

Numbers are arrays of 32-bit words, least significant first. Sums are formed in 64 bits, which
are numbers here with what does not fit cut off. Only the first `len` words of each array of a key
are used, and the arrays here have no others.
-/
namespace SystemCore.Libmincrypt

structure RSAPublicKey where
  /-- Length of `n` in words. -/
  len : Nat
  /-- `-1 / n[0] mod 2^32`. -/
  n0inv : UInt32
  n : List UInt32
  /-- `R^2`. -/
  rr : List UInt32
  exponent : Int
  deriving DecidableEq, Repr

/-- `(uint32_t)A` for a signed `A`. -/
def truncate (A : Int) : UInt32 := UInt32.ofNat (A % 2 ^ 32).toNat

/-- The loop of `subM`. The difference is unsigned, and the sum is read as signed again. -/
def subLoop : Int → List UInt32 → List UInt32 → List UInt32
  | A, a :: as, n :: ns =>
    let A := Int.bmod (A + ((a.toNat : Int) - n.toNat) % 2 ^ 64) (2 ^ 64)
    truncate A :: subLoop (A >>> (32 : Nat)) as ns
  | _, _, _ => []

/-- `a[] -= mod`. -/
def subM (key : RSAPublicKey) (a : List UInt32) : List UInt32 := subLoop 0 a key.n

/-- The loop of `geM`, from the most significant word on. -/
def geLoop : List UInt32 → List UInt32 → Bool
  | a :: as, n :: ns => if a < n then false else if n < a then true else geLoop as ns
  | _, _ => true

/-- Return `a[] >= mod`. -/
def geM (key : RSAPublicKey) (a : List UInt32) : Bool := geLoop a.reverse key.n.reverse

/-- The loop of `montMulAdd`: the words `c[i - 1]`, and the two sums behind the loop. -/
def mulAddLoop (a d0 : UInt32) :
    Nat → Nat → List UInt32 → List UInt32 → List UInt32 → List UInt32 × Nat × Nat
  | A, B, b :: bs, c :: cs, n :: ns =>
    let A := ((A >>> 32) + a.toNat * b.toNat + c.toNat) % 2 ^ 64
    let B := ((B >>> 32) + d0.toNat * n.toNat + A % 2 ^ 32) % 2 ^ 64
    let (low, A', B') := mulAddLoop a d0 A B bs cs ns
    (UInt32.ofNat B :: low, A', B')
  | A, B, _, _, _ => ([], A, B)

/-- Montgomery `c[] += a * b[] / R % mod`. -/
def montMulAdd (key : RSAPublicKey) (c : List UInt32) (a : UInt32) (b : List UInt32) :
    List UInt32 :=
  match b, c, key.n with
  | b0 :: bs, c0 :: cs, n0 :: ns =>
    let A := (a.toNat * b0.toNat + c0.toNat) % 2 ^ 64
    let d0 := UInt32.ofNat A * key.n0inv
    let B := (d0.toNat * n0.toNat + A % 2 ^ 32) % 2 ^ 64
    let (low, A, B) := mulAddLoop a d0 A B bs cs ns
    let A := ((A >>> 32) + (B >>> 32)) % 2 ^ 64
    let c := low ++ [UInt32.ofNat A]
    if A >>> 32 ≠ 0 then subM key c else c
  | _, _, _ => c

/-- Montgomery `c[] = a[] * b[] / R % mod`. -/
def montMul (key : RSAPublicKey) (a b : List UInt32) : List UInt32 :=
  a.foldl (fun c ai => montMulAdd key c ai b) (List.replicate key.len 0)

/-- Four bytes of a big-endian array as a word. -/
def wordAt (inout : List UInt8) (i : Nat) : UInt32 :=
  ((inout.getD i 0).toUInt32 <<< 24) ||| ((inout.getD (i + 1) 0).toUInt32 <<< 16) |||
    ((inout.getD (i + 2) 0).toUInt32 <<< 8) ||| (inout.getD (i + 3) 0).toUInt32

/-- From a big-endian byte array to a little-endian word array. -/
def toWords (len : Nat) (inout : List UInt8) : List UInt32 :=
  (List.range len).map fun i => wordAt inout ((len - 1 - i) * 4)

/-- From a little-endian word array to a big-endian byte array. -/
def toBytes (aaa : List UInt32) : List UInt8 :=
  aaa.reverse.flatMap fun (tmp : UInt32) =>
    [(tmp >>> 24).toUInt8, (tmp >>> 16).toUInt8, (tmp >>> 8).toUInt8, tmp.toUInt8]

/-- `for (i = 0; i < 16; i += 2)`, with two squarings in a round. -/
def squareLoop (key : RSAPublicKey) : Nat → List UInt32 → List UInt32
  | 0, aR => aR
  | rounds + 1, aR =>
    let aaR := montMul key aR aR
    squareLoop key rounds (montMul key aaR aaR)

/-- The power before the last subtraction; for another exponent `aaa` stays a null pointer. -/
def power (key : RSAPublicKey) (a : List UInt32) : Option (List UInt32) :=
  if key.exponent = 65537 then
    let aR := montMul key a key.rr
    let aR := squareLoop key 8 aR
    some (montMul key aR a)
  else if key.exponent = 3 then
    let aR := montMul key a key.rr
    let aaR := montMul key aR aR
    some (montMul key aaR a)
  else none

/-- In-place public exponentiation: the bytes that replace `inout`. -/
def modpow (key : RSAPublicKey) (inout : List UInt8) : Option (List UInt8) :=
  match power key (toWords key.len inout) with
  | some aaa => some (toBytes (if geM key aaa then subM key aaa else aaa))
  | none => none

end SystemCore.Libmincrypt
