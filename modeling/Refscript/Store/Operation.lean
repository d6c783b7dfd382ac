import Refscript.Source.Operator
import Refscript.Store.Equality
import Refscript.Store.Location
import Refscript.Store.Text

/-!
# Refscript.Store.Operation

The operators on values. An operand of a defined type may bring its own function for an operator;
the others have the meanings given here.
-/

namespace Refscript

/-- A call to be made. -/
structure Call where
  callee : Value
  this : Option Value
  args : List Value
  /-- What the call gives instead of its own result: the new object, for a constructor. -/
  result : Option Value

/-- What applying an operator comes to: a value, or a call of the operand's own function. -/
inductive Applied where
  | value (v : Value)
  | call (c : Call)

namespace Operation

/-- The longest text that `*` makes, in bytes: `2 ^ 28`. -/
def maxRepeat : Nat := 268435456

/-- A text written `n` times. -/
def times (text : String) (n : Nat) : String :=
  if text.isEmpty then "" else n.fold (fun _ _ acc => acc ++ text) ""

def repeatText (text : String) (count : Int64) : Except Fault String :=
  let n := count.toInt.toNat
  if text.utf8ByteSize * n ≤ maxRepeat then .ok (times text n)
  else .error (.refused (.repeatTooLong text.utf8ByteSize n maxRepeat))

/-- Adds so many integers, from `low` on, each one more than the one before. -/
def countOn (items : Array Value) (low : Int64) : Nat → Array Value
  | 0 => items
  | n + 1 => countOn (items.push (.int low)) (low + 1) n

/-- How many integers are between the two, the first one included. -/
def distance (a b : Int64) : Nat :=
  (a.toInt - b.toInt).natAbs

/-- The integers from `a` up or down to `b`, without `b`. Upward they are counted from `a`; downward
they are counted up from the one after `b`, and then turned around. -/
def range (a b : Int64) : Except Fault (Array Value) :=
  if Value.capacity < distance a b then .error .capacityOverflow
  else if a ≤ b then .ok (countOn #[] a (distance a b))
  else .ok (countOn #[] (b + 1) (distance a b)).reverse

/-- Operators on two numbers, the range operator apart. `none` if the operator does not take
them. -/
def onNumbers (op : Operator) (a b : Number) : Except Fault (Option Value) :=
  let orZero (r : Option Number) : Except Fault (Option Value) :=
    match r with
    | some n => .ok (some (.num n))
    | none => .error .divisionByZero
  match op with
  | .plus => .ok (some (.num (a.add b)))
  | .minus => .ok (some (.num (a.sub b)))
  | .star => .ok (some (.num (a.mul b)))
  | .slash => orZero (a.div? b)
  | .doubleSlash => orZero (a.floorDiv? b)
  | .percent => orZero (a.rem? b)
  | .caret => .ok (some (.num (a.pow b)))
  | .ampersand => .ok ((Number.bitwise? (· &&& ·) a b).map .num)
  | .bar => .ok ((Number.bitwise? (· ||| ·) a b).map .num)
  | .tilde => .ok ((Number.bitwise? (· ^^^ ·) a b).map .num)
  | .shiftLeft => .ok ((Number.bitwise? Number.shiftLeft a b).map .num)
  | .shiftRight => .ok ((Number.bitwise? Number.shiftRight a b).map .num)
  | .shiftRightLogical => .ok ((Number.bitwise? Number.shiftRightLogical a b).map .num)
  | .less => .ok (some (.bool (a.lt b)))
  | .lessEqual => .ok (some (.bool (a.le b)))
  | .greater => .ok (some (.bool (b.lt a)))
  | .greaterEqual => .ok (some (.bool (b.le a)))
  | .spaceship => .ok (some (.int (a.compare b)))
  | .diamond | .arrow => .ok none

/-- Comparisons of two texts, in the order of code points. -/
def onTexts (op : Operator) (a b : String) : Option Value :=
  let o := compare a b
  match op with
  | .less => some (.bool o.isLT)
  | .lessEqual => some (.bool o.isLE)
  | .greater => some (.bool o.isGT)
  | .greaterEqual => some (.bool o.isGE)
  | .spaceship => some (.int (Number.signOf o))
  | _ => none

end Operation

namespace Store

open Operation

/-- The texts of two values, one after the other. -/
def joined (s : Store) (left right : Value) : Value :=
  .str (s.display left ++ s.display right)

/-- The meaning of an operator on plain values. `none` if it does not take them. -/
def operate (op : Operator) (left right : Value) : Action (Option Value) :=
  match op, left, right with
  | .diamond, _, _ => Action.look fun s => some (s.joined left right)
  | .arrow, .num (.int a), .num (.int b) => do
    let items ← Action.ofExcept (range a b)
    some <$> Action.adding (·.newList items)
  | op, .num a, .num b => Action.ofExcept (onNumbers op a b)
  | .plus, .str _, _ | .plus, _, .str _ => Action.look fun s => some (s.joined left right)
  | .star, .str text, .num (.int n) =>
    Action.ofExcept ((repeatText text n).map fun t => some (.str t))
  | .plus, .list a, .list b =>
    some <$> Action.adding fun s => s.newList (s.listItems a ++ s.listItems b)
  | op, .str a, .str b => pure (onTexts op a b)
  | _, _, _ => pure none

/-- The function that an operand of a defined type brings for an operator. -/
def ownOperator? (s : Store) (table : TypeDef → Table String Value) (op : String) :
    Value → Option Value
  | .object id => (table (s.typeOf id)).get? op
  | _ => none

def unsupportedInfix (s : Store) (op : String) (left right : Value) : Fault :=
  .invalidOperator op (s.typeName left ++ " and " ++ s.typeName right)

/-- An infix operation on plain values that no operand brings a function for. -/
def plainInfix (op : String) (left right : Value) : Action Value := do
  let result ←
    match InfixSymbol.ofText? op with
    | some .equal => Action.look fun s => some (.bool (s.equal left right))
    | some .notEqual => Action.look fun s => some (.bool !(s.equal left right))
    | some (.operator o) => operate o left right
    | none => pure none
  match result with
  | some v => return v
  | none => Action.reading fun s => .error (s.unsupportedInfix op left right)

/-- An infix operation, by the operator's text. -/
def applyInfix (op : String) (left right : Value) : Action Applied := do
  let left ← Action.reading (·.deref left)
  let right ← Action.reading (·.deref right)
  match ← Action.look (·.ownOperator? TypeDef.infixOps op left) with
  | some f => return .call ⟨f, some left, [right], none⟩
  | none => return .value (← plainInfix op left right)

/-- A prefix operation on a plain value that brings no function for it. -/
def plainPrefix (s : Store) (op : String) (operand : Value) : Except Fault Value :=
  match Operator.ofSymbol? op, operand with
  | some .minus, .num n => .ok (.num n.neg)
  | some .plus, .num n => .ok (.num n)
  | some .tilde, .num (.int i) => .ok (.int (~~~i))
  | _, _ => .error (.invalidOperator op (s.typeName operand))

/-- A prefix operation, by the operator's text. -/
def applyPrefix (s : Store) (op : String) (operand : Value) : Except Fault Applied := do
  let operand ← s.deref operand
  match s.ownOperator? TypeDef.prefixOps op operand with
  | some f => return .call ⟨f, some operand, [], none⟩
  | none => return .value (← s.plainPrefix op operand)

end Store
end Refscript
