import Refscript.Number.Double

/-!
# Refscript.Number.Decimal

Doubles as decimal text. A number that is not integral is written with the fewest digits that read
back to it, the nearest such decimal if there are several, and never with an exponent; an integral
number is written with all its digits and `.0`. Reading rounds to the nearest double.
-/

namespace Refscript
namespace Decimal

/-- Decimal digits of a natural number. -/
def digits (n : Nat) : List Char :=
  Nat.toDigits 10 n

/-- `digits · 10 ^ exponent`. -/
structure Scientific where
  digits : Nat
  exponent : Int
deriving DecidableEq, Repr

/-- The numbers that round to a positive finite double are those between `low / den` and
`high / den`; `value / den` is the double itself. The ends belong to it when `closed`. -/
structure Interval where
  low : Nat
  value : Nat
  high : Nat
  den : Nat
  closed : Bool

/-- The rounding interval of a positive finite double, in quarters of the unit of its last place.
Below a power of two the next double is only half as far away. -/
def Interval.ofDouble (d : Double) : Interval :=
  let m := d.significand
  let q := d.exponent - 2
  let below := if m = Double.leadingBit then 1 else 2
  let num (k : Nat) : Nat := if 0 ≤ q then k * pow2 q.toNat else k
  let den := if 0 ≤ q then 1 else pow2 (-q).toNat
  ⟨num (4 * m - below), num (4 * m), num (4 * m + 2), den, m % 2 = 0⟩

/-- Whether `n · 10 ^ p` lies in the interval. -/
def Interval.contains (i : Interval) (n : Nat) (p : Int) : Bool :=
  let a := if 0 ≤ p then n * pow10 p.toNat * i.den else n * i.den
  let s := if 0 ≤ p then 1 else pow10 (-p).toNat
  if i.closed then i.low * s ≤ a && a ≤ i.high * s else i.low * s < a && a < i.high * s

/-- The number of zeros between the point and the first digit of `num / den`, for `num < den`;
`limit` bounds the search. -/
def leadingZeros (num den : Nat) : Nat → Nat
  | 0 => 0
  | limit + 1 => if num * 10 < den then leadingZeros (num * 10) den limit + 1 else 0

/-- The exponent `e` with `10 ^ e ≤ num / den < 10 ^ (e + 1)`. -/
def decimalExponent (num den : Nat) : Int :=
  if den ≤ num then ((digits (num / den)).length : Int) - 1
  else -(leadingZeros num den 400 : Int) - 1

/-- The multiple of `10 ^ p` nearest to the interval's value among its two neighbours that lie in
the interval. -/
def Interval.onGrid (i : Interval) (p : Int) : Option Nat :=
  let num := if 0 ≤ p then i.value else i.value * pow10 (-p).toNat
  let den := if 0 ≤ p then i.den * pow10 p.toNat else i.den
  let down := num / den
  match i.contains down p, i.contains (down + 1) p with
  | true, true => some (if 2 * (num % den) < den then down else down + 1)
  | true, false => some down
  | false, true => some (down + 1)
  | false, false => none

/-- Tries grids from coarse to fine, starting at `10 ^ p`. -/
def Interval.firstGrid (i : Interval) (p : Int) : Nat → Scientific
  | 0 => ⟨i.value, 0⟩
  | tries + 1 =>
    match i.onGrid p with
    | some n => ⟨n, p⟩
    | none => i.firstGrid (p - 1) tries

/-- The shortest decimal that reads back to a positive finite double. The search starts above the
first digit, since a value just below a power of ten may round to it. -/
def shortest (d : Double) : Scientific :=
  let i := Interval.ofDouble d
  i.firstGrid (decimalExponent i.value i.den + 1) 20

/-- Positional notation without an exponent. -/
def Scientific.positional (s : Scientific) : List Char :=
  let ds := Decimal.digits s.digits
  if 0 ≤ s.exponent then ds ++ List.replicate s.exponent.toNat '0'
  else
    let places := (-s.exponent).toNat
    if places < ds.length then ds.take (ds.length - places) ++ '.' :: ds.drop (ds.length - places)
    else '0' :: '.' :: (List.replicate (places - ds.length) '0' ++ ds)

/-- The text of a double. -/
def ofDouble (d : Double) : String :=
  let sign := if d.isNegative then "-" else ""
  if d.isNaN then "NaN"
  else if d.isInfinite then sign ++ "inf"
  else if d.isIntegral then sign ++ String.ofList (digits d.integralPart.1) ++ ".0"
  else sign ++ String.ofList (shortest d).positional

/-- The natural number written by decimal digits. -/
def natOfDigits (cs : List Char) : Nat :=
  cs.foldl (fun n c => 10 * n + (c.toNat - 48)) 0

/-- The double nearest to `n · 10 ^ e`. Exponents far out of range are settled without computing the
power. -/
def Scientific.toDouble (negative : Bool) (s : Scientific) : Double :=
  let size : Int := s.exponent + (Decimal.digits s.digits).length
  if s.digits = 0 then Double.ofMagnitude negative 0
  else if 400 < size then Double.infinity negative
  else if size < -400 then Double.ofMagnitude negative 0
  else if 0 ≤ s.exponent then Double.ofRatio negative (s.digits * pow10 s.exponent.toNat) 1
  else Double.ofRatio negative s.digits (pow10 (-s.exponent).toNat)

/-- The sign in front of a number, and what follows it. -/
def splitSign : List Char → Bool × List Char
  | '-' :: cs => (true, cs)
  | '+' :: cs => (false, cs)
  | cs => (false, cs)

/-- An integer: an optional sign and at least one decimal digit. -/
def readInt? (cs : List Char) : Option Int :=
  let (negative, ds) := splitSign cs
  if ds.isEmpty || !ds.all Char.isDigit then none
  else some (if negative then -(natOfDigits ds : Int) else natOfDigits ds)

/-- The exponent part of a number, `0` if there is none. -/
def readExponent? : List Char → Option Int
  | [] => some 0
  | c :: cs => if c = 'e' ∨ c = 'E' then readInt? cs else none

/-- An unsigned number: digits with an optional point, at least one digit in all, and an optional
exponent. -/
def readUnsigned? (cs : List Char) : Option Scientific :=
  let whole := cs.takeWhile Char.isDigit
  let rest := cs.dropWhile Char.isDigit
  let (fraction, rest) :=
    match rest with
    | '.' :: more => (more.takeWhile Char.isDigit, more.dropWhile Char.isDigit)
    | _ => ([], rest)
  if whole.isEmpty && fraction.isEmpty then none
  else
    match readExponent? rest with
    | none => none
    | some e => some ⟨natOfDigits (whole ++ fraction), e - fraction.length⟩

/-- A double: an optional sign, then a number or one of the names `inf`, `infinity` and `nan` in any
case. -/
def readDouble? (cs : List Char) : Option Double :=
  let (negative, body) := splitSign cs
  let name := body.map Char.toLower
  if name = "inf".toList ∨ name = "infinity".toList then some (Double.infinity negative)
  else if name = "nan".toList then
    some (Double.ofMagnitude negative Double.nan.magnitude)
  else (readUnsigned? body).map (Scientific.toDouble negative)

end Decimal
end Refscript
