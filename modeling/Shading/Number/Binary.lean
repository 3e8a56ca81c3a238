/-! Binary floating-point words. A word stands for an exact extended number; arithmetic is done on
exact ratios and rounded once, to nearest with ties to even. -/
namespace Shading.Number

/-- A binary interchange format. -/
structure Format where
  /-- Bits of the significand, the leading one included. -/
  precision : Nat
  exponentBits : Nat

def binary32 : Format := ⟨24, 8⟩

def binary64 : Format := ⟨53, 11⟩

namespace Format

def lowest (F : Format) : Int := 3 - (1 <<< (F.exponentBits - 1) : Nat) - F.precision

def infinity (F : Format) : Nat := (1 <<< F.exponentBits - 1) <<< (F.precision - 1)

def signBit (F : Format) : Nat := 1 <<< (F.exponentBits + F.precision - 1)

end Format

/-- What a word stands for; a finite value is `significand * 2 ^ exponent`. -/
inductive Datum where
  | nan
  | infinite (negative : Bool)
  | finite (negative : Bool) (significand : Nat) (exponent : Int)

/-- An exact extended number. -/
inductive Exact where
  | nan
  | infinite (negative : Bool)
  | ratio (negative : Bool) (num den : Nat)

def negativeProduct (a b : Bool) : Bool := a != b

def signed (negative : Bool) (n : Nat) : Int := if negative then -n else n

namespace Exact

def ofInt (n : Int) : Exact := .ratio (n < 0) n.natAbs 1

def neg : Exact → Exact
  | .nan => .nan
  | .infinite s => .infinite !s
  | .ratio s n d => .ratio (!s) n d

def add : Exact → Exact → Exact
  | .nan, _ | _, .nan => .nan
  | .infinite a, .infinite b => if a = b then .infinite a else .nan
  | .infinite a, .ratio .. => .infinite a
  | .ratio .., .infinite b => .infinite b
  | .ratio a n₁ d₁, .ratio b n₂ d₂ =>
    let sum := signed a (n₁ * d₂) + signed b (n₂ * d₁)
    .ratio (if sum = 0 then a && b else sum < 0) sum.natAbs (d₁ * d₂)

def mul : Exact → Exact → Exact
  | .nan, _ | _, .nan => .nan
  | .infinite a, .infinite b => .infinite (negativeProduct a b)
  | .infinite a, .ratio b n _ => if n = 0 then .nan else .infinite (negativeProduct a b)
  | .ratio a n _, .infinite b => if n = 0 then .nan else .infinite (negativeProduct a b)
  | .ratio a n₁ d₁, .ratio b n₂ d₂ => .ratio (negativeProduct a b) (n₁ * n₂) (d₁ * d₂)

def div : Exact → Exact → Exact
  | .nan, _ | _, .nan => .nan
  | .infinite _, .infinite _ => .nan
  | .infinite a, .ratio b _ _ => .infinite (negativeProduct a b)
  | .ratio a _ _, .infinite b => .ratio (negativeProduct a b) 0 1
  | .ratio a n₁ d₁, .ratio b n₂ d₂ =>
    if n₂ = 0 then (if n₁ = 0 then .nan else .infinite (negativeProduct a b))
    else .ratio (negativeProduct a b) (n₁ * d₂) (d₁ * n₂)

/-- The order of two numbers; nothing compares with a value that is not a number. -/
def compare? : Exact → Exact → Option Ordering
  | .nan, _ | _, .nan => none
  | .infinite a, .infinite b => some (compare (signed a 1) (signed b 1))
  | .infinite a, .ratio .. => some (if a then .lt else .gt)
  | .ratio .., .infinite b => some (if b then .gt else .lt)
  | .ratio a n₁ d₁, .ratio b n₂ d₂ => some (compare (signed a (n₁ * d₂)) (signed b (n₂ * d₁)))

def clamp (low high : Int) : Exact → Int
  | .nan => 0
  | .infinite a => if a then low else high
  | .ratio a n d => max low (min high (signed a (n / d)))

end Exact

def nearestEven (num den : Nat) : Nat :=
  let q := num / den
  let r := num % den
  if den < 2 * r ∨ (2 * r = den ∧ q % 2 = 1) then q + 1 else q

def floorLog2 (num den : Nat) : Int :=
  let e : Int := (num.log2 : Int) - den.log2
  let reached := if 0 ≤ e then den <<< e.toNat ≤ num else den ≤ num <<< (-e).toNat
  if reached then e else e - 1

namespace Format

/-- The magnitude word nearest to a ratio. A significand that rounds up to the next power of two
carries into the exponent, and what passes the greatest finite value is infinity. -/
def roundRatio (F : Format) (num den : Nat) : Nat :=
  if num = 0 then 0
  else
    let q := max (floorLog2 num den - (F.precision - 1)) F.lowest
    let m := if 0 ≤ q then nearestEven num (den <<< q.toNat)
      else nearestEven (num <<< (-q).toNat) den
    min ((q - F.lowest).toNat <<< (F.precision - 1) + m) F.infinity

def word (F : Format) (negative : Bool) (magnitude : Nat) : Nat :=
  if negative then F.signBit + magnitude else magnitude

def encode (F : Format) : Exact → Nat
  | .nan => F.infinity + 1 <<< (F.precision - 2)
  | .infinite s => F.word s F.infinity
  | .ratio s n d => F.word s (F.roundRatio n d)

def decode (F : Format) (bits : Nat) : Datum :=
  let negative := F.signBit ≤ bits
  let magnitude := bits % F.signBit
  let e := magnitude >>> (F.precision - 1)
  let f := magnitude % 1 <<< (F.precision - 1)
  if F.infinity < magnitude then .nan
  else if magnitude = F.infinity then .infinite negative
  else if e = 0 then .finite negative f F.lowest
  else .finite negative (f + 1 <<< (F.precision - 1)) (F.lowest + e - 1)

end Format

def Datum.exact : Datum → Exact
  | .nan => .nan
  | .infinite s => .infinite s
  | .finite s m e => if 0 ≤ e then .ratio s (m <<< e.toNat) 1 else .ratio s m (1 <<< (-e).toNat)

/-- The exact value of `significand * 10 ^ exponent`. Beyond `2 ^ exponentBits` decimal orders a
format holds nothing but zero and infinity, so larger powers are not computed. -/
def Format.ofDecimal (F : Format) (significand : Nat) (exponent : Int) : Exact :=
  let order := exponent + (Nat.toDigits 10 significand).length
  let limit : Int := (1 <<< F.exponentBits : Nat)
  if significand = 0 then .ratio false 0 1
  else if limit < order then .infinite false
  else if order < -limit then .ratio false 0 1
  else if 0 ≤ exponent then .ratio false (significand * Nat.pow 10 exponent.toNat) 1
  else .ratio false significand (Nat.pow 10 (-exponent).toNat)

/-- A 32-bit floating-point word. -/
structure Binary32 where
  bits : UInt32
  deriving DecidableEq, Repr

/-- A 64-bit floating-point word. -/
structure Binary64 where
  bits : UInt64
  deriving DecidableEq, Repr

namespace Binary64

def datum (x : Binary64) : Datum := binary64.decode x.bits.toNat

def round (x : Exact) : Binary64 := ⟨(binary64.encode x).toUInt64⟩

def ofDecimal (significand : Nat) (exponent : Int) : Binary64 :=
  round (binary64.ofDecimal significand exponent)

end Binary64

namespace Binary32

def datum (x : Binary32) : Datum := binary32.decode x.bits.toNat

def exact (x : Binary32) : Exact := x.datum.exact

def round (x : Exact) : Binary32 := ⟨(binary32.encode x).toUInt32⟩

def ofBinary64 (x : Binary64) : Binary32 := round x.datum.exact

def ofInt (n : Int) : Binary32 := round (.ofInt n)

def neg (x : Binary32) : Binary32 := ⟨x.bits ^^^ 0x80000000⟩

def add (x y : Binary32) : Binary32 := round (x.exact.add y.exact)

def sub (x y : Binary32) : Binary32 := round (x.exact.add y.exact.neg)

def mul (x y : Binary32) : Binary32 := round (x.exact.mul y.exact)

def div (x y : Binary32) : Binary32 := round (x.exact.div y.exact)

def compare? (x y : Binary32) : Option Ordering := x.exact.compare? y.exact

def isZero (x : Binary32) : Bool := x.bits &&& 0x7fffffff == 0

def toInt32 (x : Binary32) : Int32 := .ofInt (x.exact.clamp Int32.minValue.toInt Int32.maxValue.toInt)

def toUInt32 (x : Binary32) : UInt32 := .ofNat (x.exact.clamp 0 (UInt32.size - 1 : Nat)).toNat

end Binary32

end Shading.Number
