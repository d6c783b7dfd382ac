import Refscript.Number.Power

/-!
# Refscript.Number.Double

Double-precision numbers as 64-bit patterns. Decoding, order, conversion to and from integers and
the remainder are exact computations on natural numbers; addition, subtraction, multiplication,
division and power are those of the hardware.

A finite number is `significand · 2 ^ exponent` with its sign. `magnitude` is the pattern without
the sign bit, and magnitudes are ordered as the numbers they stand for.
-/

namespace Refscript

structure Double where
  bits : UInt64
deriving DecidableEq, Inhabited, Repr

namespace Double

/-- The weight of the sign bit, `2 ^ 63`. -/
def signBit : Nat := 9223372036854775808

/-- The weight of a significand's leading bit and of the lowest exponent bit, `2 ^ 52`. -/
def leadingBit : Nat := 4503599627370496

/-- The pattern without the sign bit. -/
def magnitude (d : Double) : Nat :=
  d.bits.toNat % signBit

/-- Whether the sign bit is set, also for zero and for patterns that are not numbers. -/
def isNegative (d : Double) : Bool :=
  signBit ≤ d.bits.toNat

def infiniteMagnitude : Nat := 2047 * leadingBit

def isNaN (d : Double) : Bool :=
  infiniteMagnitude < d.magnitude

def isInfinite (d : Double) : Bool :=
  d.magnitude == infiniteMagnitude

def isFinite (d : Double) : Bool :=
  d.magnitude < infiniteMagnitude

def isZero (d : Double) : Bool :=
  d.magnitude == 0

def significand (d : Double) : Nat :=
  if d.magnitude / leadingBit = 0 then d.magnitude else d.magnitude % leadingBit + leadingBit

def exponent (d : Double) : Int :=
  if d.magnitude / leadingBit = 0 then -1074 else (d.magnitude / leadingBit : Nat) - 1075

/-- The number with the given sign and magnitude. -/
def ofMagnitude (negative : Bool) (magnitude : Nat) : Double :=
  ⟨UInt64.ofNat (if negative then signBit + magnitude else magnitude)⟩

def infinity (negative : Bool) : Double := ofMagnitude negative infiniteMagnitude

def nan : Double := ofMagnitude false (infiniteMagnitude + leadingBit / 2)

/-- The integer nearest to `num / den`; a half goes to the even neighbour. -/
def roundHalfEven (num den : Nat) : Nat :=
  let q := num / den
  let r := num % den
  if 2 * r < den then q
  else if den < 2 * r then q + 1
  else if q % 2 = 0 then q else q + 1

/-- `num / den` in units of `2 ^ q`, rounded. -/
def roundScaled (num den : Nat) (q : Int) : Nat :=
  if 0 ≤ q then roundHalfEven num (den * pow2 q.toNat)
    else roundHalfEven (num * pow2 (-q).toNat) den

/-- The exponent `e` with `2 ^ e ≤ num / den < 2 ^ (e + 1)`, for positive arguments. -/
def binaryExponent (num den : Nat) : Int :=
  let k : Int := (num.log2 : Int) - den.log2
  let below : Bool :=
    if 0 ≤ k then decide (num < den * pow2 k.toNat) else decide (num * pow2 (-k).toNat < den)
  if below then k - 1 else k

/-- The magnitude of the double nearest to `num / den`. -/
def roundMagnitude (num den : Nat) : Nat :=
  if num = 0 then 0
  else
    let q := max (binaryExponent num den - 52) (-1074)
    min infiniteMagnitude ((q + 1074).toNat * leadingBit + roundScaled num den q)

/-- The double nearest to `num / den` with the given sign; too large a quotient gives an
infinity. -/
def ofRatio (negative : Bool) (num den : Nat) : Double :=
  ofMagnitude negative (roundMagnitude num den)

/-- The double nearest to `m · 2 ^ q`. -/
def ofScaled (negative : Bool) (m : Nat) (q : Int) : Double :=
  if 0 ≤ q then ofRatio negative (m * pow2 q.toNat) 1 else ofRatio negative m (pow2 (-q).toNat)

def ofInt (z : Int) : Double :=
  ofRatio (z < 0) z.natAbs 1

/-- The integer part of a finite number's absolute value, and whether a fraction is left over. -/
def integralPart (d : Double) : Nat × Bool :=
  if 0 ≤ d.exponent then (d.significand * pow2 d.exponent.toNat, false)
  else
    let unit := pow2 (-d.exponent).toNat
    (d.significand / unit, d.significand % unit != 0)

def isIntegral (d : Double) : Bool :=
  d.isFinite && !d.integralPart.2

/-- A finite number rounded toward zero. -/
def truncate (d : Double) : Int :=
  if d.isNegative then -(d.integralPart.1 : Int) else d.integralPart.1

/-- A finite number rounded down. -/
def floor (d : Double) : Int :=
  if d.isNegative && d.integralPart.2 then d.truncate - 1 else d.truncate

/-- A finite number rounded up. -/
def ceil (d : Double) : Int :=
  if !d.isNegative && d.integralPart.2 then d.truncate + 1 else d.truncate

/-- The nearest 64-bit integer to an integer. -/
def clamp (z : Int) : Int64 :=
  if z ≤ Int64.minValue.toInt then Int64.minValue
  else if Int64.maxValue.toInt ≤ z then Int64.maxValue
  else Int64.ofInt z

/-- Conversion to a 64-bit integer by `rounding`: values out of range go to the nearest bound, and
what is not a number goes to zero. -/
def toInt64 (rounding : Double → Int) (d : Double) : Int64 :=
  if d.isNaN then 0
  else if d.isInfinite then (if d.isNegative then Int64.minValue else Int64.maxValue)
  else clamp (rounding d)

/-- Orders the numbers; both zeros have the key 0. -/
def key (d : Double) : Int :=
  if d.isNegative then -(d.magnitude : Int) else d.magnitude

/-- Orders all patterns: negative ones below positive ones, also for zero and for what is not a
number. -/
def totalKey (d : Double) : Int :=
  if d.isNegative then -(d.magnitude : Int) - 1 else d.magnitude

def eq (a b : Double) : Bool :=
  !a.isNaN && !b.isNaN && a.key == b.key

def lt (a b : Double) : Bool :=
  !a.isNaN && !b.isNaN && a.key < b.key

def le (a b : Double) : Bool :=
  !a.isNaN && !b.isNaN && a.key ≤ b.key

def toFloat (d : Double) : Float := Float.ofBits d.bits

def ofFloat (f : Float) : Double := ⟨f.toBits⟩

def add (a b : Double) : Double := ofFloat (a.toFloat + b.toFloat)

def sub (a b : Double) : Double := ofFloat (a.toFloat - b.toFloat)

def mul (a b : Double) : Double := ofFloat (a.toFloat * b.toFloat)

def div (a b : Double) : Double := ofFloat (a.toFloat / b.toFloat)

def pow (a b : Double) : Double := ofFloat (Float.pow a.toFloat b.toFloat)

/-- The number with the other sign. -/
def neg (d : Double) : Double := ofMagnitude (!d.isNegative) d.magnitude

/-- The remainder of the division that rounds toward zero. It is exact and has the sign of the
dividend. -/
def rem (a b : Double) : Double :=
  if a.isNaN || b.isNaN || a.isInfinite || b.isZero then nan
  else if b.isInfinite then a
  else
    let q := min a.exponent b.exponent
    let x := a.significand * pow2 (a.exponent - q).toNat
    let y := b.significand * pow2 (b.exponent - q).toNat
    ofScaled a.isNegative (x % y) q

end Double
end Refscript
