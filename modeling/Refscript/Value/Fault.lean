import Refscript.Text.Quoted

/-!
# Refscript.Value.Fault

What can go wrong while a program runs, and the wording of each case.
-/

namespace Refscript

/-- Why a value cannot be read or written through. -/
inductive BadTarget where
  | chainTooLong (limit : Nat)
  | readOnly (typeName : String)
  | notReference (typeName : String)
deriving DecidableEq, Repr

/-- How many arguments a function takes. -/
inductive Arity where
  | exactly (n : Nat)
  | atLeast (n : Nat)
deriving DecidableEq, Repr

/-- A request that a function of the library or the embedding program turned down. -/
inductive Refusal where
  | needsReceiver (method : String)
  | wrongReceiver (method typeName : String)
  | needsNonNegativeInt
  | emptyRange
  | needsIntegers
  | needsScalar
  | badInt (text : String)
  | badFloat (text : String)
  | repeatTooLong (bytes count limit : Nat)
  | inputFailed
  | unknownKit (name : String)
  | other (text : String)
deriving DecidableEq, Repr

inductive Fault where
  | missingField (owner field : String)
  | fieldNotWritable (owner field : String)
  | invalidOperator (op operands : String)
  | notInvocable (what : String)
  | invalidReferenceTarget (why : BadTarget)
  | notIndexable (target key : String)
  | indexOutOfBounds (index : Int) (length : Nat)
  | badArity (name : String) (expected : Arity) (got : Nat)
  | divisionByZero
  | callDepthExceeded (limit : Nat)
  | stackUnderflow
  | invalidInstruction (word : Nat)
  | refused (why : Refusal)
  /-- More values are asked for than can stand side by side. No one gets to see this: the machine
  cannot go on. -/
  | capacityOverflow
deriving DecidableEq, Repr

namespace BadTarget

def message : BadTarget → String
  | chainTooLong limit => s!"reference chain longer than {limit}"
  | readOnly t => s!"elements of a {t} cannot be assigned"
  | notReference t => t

end BadTarget

namespace Arity

def text : Arity → String
  | exactly n => toString n
  | atLeast n => s!"at least {n}"

/-- Whether a call with `n` arguments is within the arity. -/
def accepts : Arity → Nat → Bool
  | exactly k, n => n == k
  | atLeast k, n => k ≤ n

end Arity

namespace Refusal

def message : Refusal → String
  | needsReceiver m => s!"'{m}' must be called as a method."
  | wrongReceiver m t => s!"'{m}' cannot be called on {t}."
  | needsNonNegativeInt => "Expected a non-negative int as argument."
  | emptyRange => "Expected the lower bound to be below the upper bound."
  | needsIntegers => "Expected two integers."
  | needsScalar => "Expected a number, string or boolean."
  | badInt s => s!"Invalid int literal {Text.quote s}."
  | badFloat s => s!"Invalid float literal {Text.quote s}."
  | repeatTooLong bytes count limit =>
    s!"Repeating a string of length {bytes} {count} times exceeds {limit} bytes."
  | inputFailed => "Error while reading input."
  | unknownKit name => s!"No kit named '{name}' is registered."
  | other text => text

end Refusal

namespace Fault

def message : Fault → String
  | missingField owner field => s!"{owner} has no field '{field}'."
  | fieldNotWritable owner field => s!"Cannot assign field '{field}' on {owner}."
  | invalidOperator op operands => s!"Operator '{op}' is not supported for {operands}."
  | notInvocable what => s!"Value of type {what} is not invocable."
  | invalidReferenceTarget why => s!"Invalid reference target: {why.message}."
  | notIndexable target key => s!"Cannot index {target} with {key}."
  | indexOutOfBounds index length => s!"Index {index} is out of bounds for length {length}."
  | badArity name expected got => s!"'{name}' expected {expected.text} argument(s) but got {got}."
  | divisionByZero => "Division by zero."
  | callDepthExceeded limit => s!"Maximum call depth of {limit} exceeded."
  | stackUnderflow => "Operand stack underflow."
  | invalidInstruction word => s!"Invalid instruction {Text.hexWord word}."
  | refused why => why.message
  | capacityOverflow => "capacity overflow"

end Fault

/-- A fault as it reaches the embedding program, with the source line of the innermost function that
was running. -/
structure RuntimeError where
  fault : Fault
  line : Option Nat
deriving DecidableEq, Repr

def RuntimeError.message (e : RuntimeError) : String :=
  match e.line with
  | some n => s!"[line {n}] {e.fault.message}"
  | none => e.fault.message

end Refscript
