/-!
# Refscript.Code.Opcode

The instruction set: the opcodes with their numbers, names and operand layouts, and the kinds of
reference that `ref` can make.
-/

namespace Refscript

/-- How operands are laid out in an instruction word: none, one of 24 bits, or two of 12 bits. -/
inductive Layout where
  | none
  | wide
  | split
deriving DecidableEq, Repr

inductive Opcode where
  | pop | dup | dup2 | closeOuters
  | jump | jumpTrue | jumpFalse | and | or
  | loadLocal | storeLocal | initLocal
  | loadOuter | storeOuter
  | loadGlobal | storeGlobal
  | loadIndex | storeIndex
  | loadField | storeField
  | pushNull | pushTrue | pushFalse | const
  /-- Pushes the integer `k - 1`. -/
  | smallInt (k : Fin 7)
  /-- Pushes the double `k - 1`. -/
  | smallFloat (k : Fin 7)
  | list | tuple | closure | makeType | this
  | invoke | invokeMethod | prefixOp | infixOp
  | eq | neq | not
  | matchOn | ref | deref | storeDeref | ret
deriving DecidableEq, Repr

namespace Opcode

/-- All opcodes in the order of their numbers. -/
def all : Array Opcode := #[
  pop, dup, dup2, closeOuters, jump, jumpTrue, jumpFalse, and, or, loadLocal, storeLocal, initLocal,
  loadOuter, storeOuter, loadGlobal, storeGlobal, loadIndex, storeIndex, loadField, storeField,
  pushNull, pushTrue, pushFalse, const,
  smallInt 0, smallInt 1, smallInt 2, smallInt 3, smallInt 4, smallInt 5, smallInt 6,
  smallFloat 0, smallFloat 1, smallFloat 2, smallFloat 3, smallFloat 4, smallFloat 5, smallFloat 6,
  list, tuple, closure, makeType, this, invoke, invokeMethod, prefixOp, infixOp, eq, neq, not,
  matchOn, ref, deref, storeDeref, ret]

def ofNumber? (n : Nat) : Option Opcode :=
  all[n]?

def number : Opcode → Nat
  | pop => 0
  | dup => 1
  | dup2 => 2
  | closeOuters => 3
  | jump => 4
  | jumpTrue => 5
  | jumpFalse => 6
  | and => 7
  | or => 8
  | loadLocal => 9
  | storeLocal => 10
  | initLocal => 11
  | loadOuter => 12
  | storeOuter => 13
  | loadGlobal => 14
  | storeGlobal => 15
  | loadIndex => 16
  | storeIndex => 17
  | loadField => 18
  | storeField => 19
  | pushNull => 20
  | pushTrue => 21
  | pushFalse => 22
  | const => 23
  | smallInt k => 24 + k
  | smallFloat k => 31 + k
  | list => 38
  | tuple => 39
  | closure => 40
  | makeType => 41
  | this => 42
  | invoke => 43
  | invokeMethod => 44
  | prefixOp => 45
  | infixOp => 46
  | eq => 47
  | neq => 48
  | not => 49
  | matchOn => 50
  | ref => 51
  | deref => 52
  | storeDeref => 53
  | ret => 54

/-- The suffix of a small constant's name. -/
def smallSuffix (k : Fin 7) : String :=
  if k.val = 0 then "M1" else toString (k.val - 1)

def name : Opcode → String
  | pop => "POP"
  | dup => "DUP"
  | dup2 => "DUP2"
  | closeOuters => "CLOSE_OUTERS"
  | jump => "JUMP"
  | jumpTrue => "JUMP_TRUE"
  | jumpFalse => "JUMP_FALSE"
  | and => "AND"
  | or => "OR"
  | loadLocal => "LOAD_LOCAL"
  | storeLocal => "STORE_LOCAL"
  | initLocal => "INIT_LOCAL"
  | loadOuter => "LOAD_OUTER"
  | storeOuter => "STORE_OUTER"
  | loadGlobal => "LOAD_GLOBAL"
  | storeGlobal => "STORE_GLOBAL"
  | loadIndex => "LOAD_INDEX"
  | storeIndex => "STORE_INDEX"
  | loadField => "LOAD_FIELD"
  | storeField => "STORE_FIELD"
  | pushNull => "NULL"
  | pushTrue => "TRUE"
  | pushFalse => "FALSE"
  | const => "CONST"
  | smallInt k => "INT_" ++ smallSuffix k
  | smallFloat k => "FLOAT_" ++ smallSuffix k
  | list => "LIST"
  | tuple => "TUPLE"
  | closure => "CLOSURE"
  | makeType => "TYPE"
  | this => "THIS"
  | invoke => "INVOKE"
  | invokeMethod => "INVOKE_METHOD"
  | prefixOp => "PREFIX"
  | infixOp => "INFIX"
  | eq => "EQ"
  | neq => "NEQ"
  | not => "NOT"
  | matchOn => "MATCH"
  | ref => "REF"
  | deref => "DEREF"
  | storeDeref => "STORE_DEREF"
  | ret => "RET"

def ofName? (s : String) : Option Opcode :=
  all.find? fun op => op.name == s

def layout : Opcode → Layout
  | closeOuters | jump | jumpTrue | jumpFalse | and | or | loadLocal | storeLocal | initLocal
  | loadOuter | storeOuter | loadGlobal | storeGlobal | loadField | storeField | const
  | list | tuple | closure | makeType | invoke | prefixOp | infixOp | matchOn => .wide
  | invokeMethod | ref => .split
  | _ => .none

theorem ofNumber?_number (op : Opcode) : ofNumber? op.number = some op := by
  cases op with
  | smallInt k => revert k; decide
  | smallFloat k => revert k; decide
  | _ => rfl

end Opcode

/-- What a reference made by `ref` refers to; the kind is the instruction's first operand. -/
inductive RefKind where
  | global
  | loc
  | outer
  | index
  | field
deriving DecidableEq, Repr

namespace RefKind

def number : RefKind → Nat
  | global => 0
  | loc => 1
  | outer => 2
  | index => 3
  | field => 4

def ofNumber? : Nat → Option RefKind
  | 0 => some global
  | 1 => some loc
  | 2 => some outer
  | 3 => some index
  | 4 => some field
  | _ => none

def name : RefKind → String
  | global => "Global"
  | loc => "Local"
  | outer => "Outer"
  | index => "Index"
  | field => "Field"

end RefKind
end Refscript
