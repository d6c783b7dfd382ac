import Refscript.Value.Basic

/-!
# Refscript.Value.Native

The names, owners and arities of the functions that are not written in the language itself: the
methods of the provided kinds and the functions of the standard kit.
-/

namespace Refscript

/-- The methods of the provided kinds of value. -/
inductive Method where
  | intHex | intFloat
  | floatFloor | floatCeil | floatInt
  | stringLength | stringUpper | stringLower
  | listAppend | listLength | listPop | listClear
  | tupleLength
deriving DecidableEq, Repr

namespace Method

/-- All methods, in the order in which they enter the descriptors. -/
def all : List Method :=
  [intHex, intFloat, floatFloor, floatCeil, floatInt, stringLength, stringUpper, stringLower,
    listAppend, listLength, listPop, listClear, tupleLength]

def owner : Method → Kind
  | intHex | intFloat => .int
  | floatFloor | floatCeil | floatInt => .float
  | stringLength | stringUpper | stringLower => .string
  | listAppend | listLength | listPop | listClear => .list
  | tupleLength => .tuple

def name : Method → String
  | intHex => "hex"
  | intFloat => "float"
  | floatFloor => "floor"
  | floatCeil => "ceil"
  | floatInt => "int"
  | stringLength | listLength | tupleLength => "length"
  | stringUpper => "upper"
  | stringLower => "lower"
  | listAppend => "append"
  | listPop => "pop"
  | listClear => "clear"

def arity : Method → Nat
  | listAppend => 1
  | _ => 0

end Method

/-- The functions of the standard kit. -/
inductive LibraryFunction where
  | clock | sleep | random
  | int | float | bool | str | typeOf
  | format | print | println | input
deriving DecidableEq, Repr

namespace LibraryFunction

/-- All functions, in the order in which they enter the kit. -/
def all : List LibraryFunction :=
  [clock, sleep, random, int, float, bool, str, typeOf, format, print, println, input]

def name : LibraryFunction → String
  | clock => "clock"
  | sleep => "sleep"
  | random => "random"
  | int => "int"
  | float => "float"
  | bool => "bool"
  | str => "str"
  | typeOf => "typeof"
  | format => "format"
  | print => "print"
  | println => "println"
  | input => "input"

/-- The number of arguments, for the functions that fix it. -/
def arity? : LibraryFunction → Option Nat
  | clock => some 0
  | sleep | int | float | bool | str | typeOf => some 1
  | random => some 2
  | format | print | println | input => none

end LibraryFunction

/-- What a callback does when it is called. -/
inductive Native where
  | method (m : Method)
  | library (f : LibraryFunction)
  /-- The embedding program answers, by the callback's name. -/
  | host
deriving DecidableEq, Inhabited, Repr

end Refscript
