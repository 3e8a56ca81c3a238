import Shading.Number.Binary

/-! Decimal text of floating-point words: the fewest digits that read back as the same word, the
nearest of those, the greater of two equally near. -/
namespace Shading.Number

/-- A decimal `significand * 10 ^ exponent`. -/
structure Decimal where
  significand : Nat
  exponent : Int

/-- The reals that round to `m * 2 ^ q`, in quarters of the last place: from `low` to `high`, with
the ends when `m` is even. Below a power of two the neighbour is only half as far away. -/
structure Rounding where
  low : Nat
  value : Nat
  high : Nat
  closed : Bool
  /-- A quarter of the last place is `num / den`. -/
  num : Nat
  den : Nat

def Format.rounding (F : Format) (m : Nat) (q : Int) : Rounding where
  low := 4 * m - (if m = 1 <<< (F.precision - 1) ∧ F.lowest < q then 1 else 2)
  value := 4 * m
  high := 4 * m + 2
  closed := m % 2 = 0
  num := if 0 ≤ q - 2 then 1 <<< (q - 2).toNat else 1
  den := if 0 ≤ q - 2 then 1 else 1 <<< (2 - q).toNat

namespace Rounding

def power (k : Int) : Nat × Nat := if 0 ≤ k then (Nat.pow 10 k.toNat, 1) else (1, Nat.pow 10 (-k).toNat)

def contains (r : Rounding) (c : Nat) (k : Int) : Bool :=
  let (up, down) := power k
  let point := c * up * r.den
  let low := r.low * r.num * down
  let high := r.high * r.num * down
  if r.closed then low ≤ point && point ≤ high else low < point && point < high

/-- The better of the value's two neighbours among the multiples of `10 ^ k`, if one rounds to it. -/
def onGrid? (r : Rounding) (k : Int) : Option Decimal :=
  let (up, down) := power k
  let num := r.value * r.num * down
  let den := r.den * up
  let c := num / den
  match r.contains c k, r.contains (c + 1) k with
  | false, false => none
  | true, false => some ⟨c, k⟩
  | false, true => some ⟨c + 1, k⟩
  | true, true => some (if 2 * (num % den) < den then ⟨c, k⟩ else ⟨c + 1, k⟩)

def top (r : Rounding) : Int :=
  let num := r.value * r.num
  if r.den ≤ num then (Nat.toDigits 10 (num / r.den)).length
  else 1 - (Nat.toDigits 10 (r.den / num)).length

def shortest (r : Rounding) : Decimal :=
  ((List.range 20).findSome? fun (i : Nat) => r.onGrid? (r.top - i)).getD ⟨0, 0⟩

end Rounding

/-- How a number is laid out. -/
structure Layout where
  /-- The least and the first too great power of ten that are written without an exponent. -/
  positional : Option (Int × Int)
  /-- An integer is written with `.0`. -/
  fraction : Bool

namespace Layout

def zeros (n : Nat) : String := String.ofList (List.replicate n '0')

def plain (style : Layout) (d : Decimal) : String :=
  let digits := toString d.significand
  if 0 ≤ d.exponent then
    digits ++ zeros d.exponent.toNat ++ (if style.fraction then ".0" else "")
  else
    let places := (-d.exponent).toNat
    if places < digits.length then
      let whole := digits.length - places
      String.ofList (digits.toList.take whole) ++ "." ++ String.ofList (digits.toList.drop whole)
    else "0." ++ zeros (places - digits.length) ++ digits

def scientific (d : Decimal) : String :=
  let digits := (toString d.significand).toList
  let power := d.exponent + (digits.length - 1 : Nat)
  let tail := match digits.drop 1 with
    | [] => ""
    | rest => "." ++ String.ofList rest
  String.ofList (digits.take 1) ++ tail ++ "e" ++ toString power

def write (style : Layout) (F : Format) : Datum → String
  | .nan => "NaN"
  | .infinite s => if s then "-inf" else "inf"
  | .finite s m q =>
    let text :=
      if m = 0 then (if style.fraction then "0.0" else "0")
      else
        let d := (F.rounding m q).shortest
        let order := d.exponent + ((toString d.significand).length - 1 : Nat)
        match style.positional with
        | some (low, high) => if low ≤ order ∧ order < high then style.plain d else scientific d
        | none => style.plain d
    if s then "-" ++ text else text

end Layout

end Shading.Number
