import Refscript.Number.Decimal

/-!
# Refscript.Number.Basic

The numbers of the language: 64-bit integers and doubles. Integer addition, subtraction,
multiplication, negation and power are exact; a result that does not fit is computed in doubles
instead. Integer division and remainder round toward zero, `//` rounds down. As soon as one operand
is a double, so is the computation.
-/

namespace Refscript

inductive Number where
  | int (i : Int64)
  | float (d : Double)
deriving DecidableEq, Inhabited, Repr

namespace Number

/-- The 64-bit integer equal to `z`, if there is one. -/
def fit? (z : Int) : Option Int64 :=
  if Int64.minValue.toInt ≤ z ∧ z ≤ Int64.maxValue.toInt then some (Int64.ofInt z) else none

def toDouble : Number → Double
  | int i => Double.ofInt i.toInt
  | float d => d

/-- The exact integer `z` if it fits, and `otherwise` if not. -/
def exactOr (z : Int) (otherwise : Double) : Number :=
  match fit? z with
  | some i => int i
  | none => float otherwise

def add : Number → Number → Number
  | int a, int b => exactOr (a.toInt + b.toInt) ((int a).toDouble.add (int b).toDouble)
  | a, b => float (a.toDouble.add b.toDouble)

def sub : Number → Number → Number
  | int a, int b => exactOr (a.toInt - b.toInt) ((int a).toDouble.sub (int b).toDouble)
  | a, b => float (a.toDouble.sub b.toDouble)

def mul : Number → Number → Number
  | int a, int b => exactOr (a.toInt * b.toInt) ((int a).toDouble.mul (int b).toDouble)
  | a, b => float (a.toDouble.mul b.toDouble)

def neg : Number → Number
  | int a => exactOr (-a.toInt) (int a).toDouble.neg
  | float d => float d.neg

/-- Division rounding toward zero. An integer divided by the integer zero has no quotient. -/
def div? : Number → Number → Option Number
  | int a, int b =>
    if b = 0 then none
    else some (exactOr (a.toInt.tdiv b.toInt) ((int a).toDouble.div (int b).toDouble))
  | a, b => some (float (a.toDouble.div b.toDouble))

/-- Division rounding down, always to an integer. Integer quotients wrap around. -/
def floorDiv? : Number → Number → Option Number
  | int a, int b =>
    if b = 0 then none
    else
      let q := a / b
      let r := a % b
      some (int (if r ≠ 0 ∧ (r < 0) ≠ (b < 0) then q - 1 else q))
  | a, b => some (int ((a.toDouble.div b.toDouble).toInt64 Double.floor))

/-- The remainder that goes with `div?`. -/
def rem? : Number → Number → Option Number
  | int a, int b => if b = 0 then none else some (int (a % b))
  | a, b => some (float (a.toDouble.rem b.toDouble))

/-- The exact power if it fits and the exponent is below `2 ^ 32`. -/
def intPow? (base : Int) (e : Nat) : Option Int64 :=
  if 4294967296 ≤ e then none
  else if base.natAbs ≤ 1 then fit? (if e % 2 = 0 then (if e = 0 then 1 else base.natAbs) else base)
  else if e < 64 then fit? (base.pow e)
  else none

def pow : Number → Number → Number
  | int base, int e =>
    if 0 ≤ e then
      match intPow? base.toInt e.toInt.toNat with
      | some i => int i
      | none => float ((int base).toDouble.pow (int e).toDouble)
    else
      float ((Double.ofInt 1).div ((int base).toDouble.pow (Double.ofInt e.toInt.natAbs)))
  | a, b => float (a.toDouble.pow b.toDouble)

/-- Bitwise operations are defined on integers only. -/
def bitwise? (f : Int64 → Int64 → Int64) : Number → Number → Option Number
  | int a, int b => some (int (f a b))
  | _, _ => none

/-- Left shift by the amount modulo 64. -/
def shiftLeft (a b : Int64) : Int64 := a <<< b

/-- Right shift that keeps the sign, by the amount modulo 64. -/
def shiftRight (a b : Int64) : Int64 := a >>> b

/-- Right shift that fills with zeros, by the amount modulo 64. -/
def shiftRightLogical (a b : Int64) : Int64 := (a.toUInt64 >>> b.toUInt64).toInt64

def eq : Number → Number → Bool
  | int a, int b => a == b
  | a, b => a.toDouble.eq b.toDouble

def lt : Number → Number → Bool
  | int a, int b => a < b
  | a, b => a.toDouble.lt b.toDouble

def le : Number → Number → Bool
  | int a, int b => a ≤ b
  | a, b => a.toDouble.le b.toDouble

/-- The sign of a comparison as an integer. -/
def signOf (o : Ordering) : Int64 :=
  match o with
  | .lt => -1
  | .eq => 0
  | .gt => 1

/-- Three-way comparison; doubles are compared in their total order. -/
def compare : Number → Number → Int64
  | int a, int b => signOf (Ord.compare a.toInt b.toInt)
  | a, b => signOf (Ord.compare a.toDouble.totalKey b.toDouble.totalKey)

/-- Numbers other than the zeros count as true. -/
def truth : Number → Bool
  | int i => i != 0
  | float d => !d.isZero

def text : Number → String
  | int i => toString i.toInt
  | float d => Decimal.ofDouble d

end Number
end Refscript
