import Refscript.Code.LineTable
import Refscript.Code.Word
import Refscript.Data.Table
import Refscript.Number.Basic
import Refscript.Text.Quoted

/-!
# Refscript.Code.Prototype

Compiled functions: instruction words with their constants, jump tables, descriptions of types and
captured variables, and the functions defined inside them.
-/

namespace Refscript

/-- A constant; doubles are told apart by their bits. -/
inductive Constant where
  | int (i : Int64)
  | float (d : Double)
  | str (s : String)
deriving DecidableEq, Inhabited, Repr

namespace Constant

def text : Constant → String
  | int i => (Number.int i).text
  | float d => (Number.float d).text
  | str s => Text.quote s

def str? : Constant → Option String
  | str s => some s
  | _ => none

end Constant

/-- The keys of a jump table. -/
inductive MatchKey where
  | null
  | bool (b : Bool)
  | int (i : Int64)
  | str (s : String)
  | default
deriving DecidableEq, Repr

def MatchKey.text : MatchKey → String
  | null => "null"
  | bool b => toString b
  | int i => (Number.int i).text
  | str s => Text.quote s
  | default => "_"

/-- The offsets at which the cases of a `match` start. -/
structure JumpTable where
  cases : Table MatchKey Nat
deriving Inhabited, Repr

/-- The offset for a key; without an entry of its own it is the default's. -/
def JumpTable.target? (t : JumpTable) (key : Option MatchKey) : Option Nat :=
  match key.bind t.cases.get? with
  | some target => some target
  | none => t.cases.get? .default

/-- A local variable: its slot and the instructions at which it begins and ends to exist. -/
structure LocalInfo where
  name : String
  slot : Nat
  start : Nat
  stop : Nat
  captured : Bool
deriving DecidableEq, Repr

/-- Where a function finds a captured variable when it is created: in a slot or among the captures
of the function around it. -/
inductive OuterKind where
  | localInParent
  | outerInParent
deriving DecidableEq, Repr

structure OuterInfo where
  name : String
  position : Nat
  kind : OuterKind
deriving DecidableEq, Repr

/-- A type definition; its members are given by their places among the nested functions. -/
structure TypeInfo where
  name : String
  ctor : Option Nat
  invoke : Option Nat
  methods : List (String × Nat)
  prefixOps : List (String × Nat)
  infixOps : List (String × Nat)
deriving DecidableEq, Inhabited, Repr

/-- The places of all members, in the order in which they are made. -/
def TypeInfo.members (t : TypeInfo) : List Nat :=
  t.ctor.toList ++ t.invoke.toList ++ t.prefixOps.map Prod.snd ++ t.infixOps.map Prod.snd ++
    t.methods.map Prod.snd

structure Prototype where
  name : Option String
  code : Array Word
  params : Nat
  variadic : Bool
  maxLocals : Nat
  maxStack : Nat
  constants : Array Constant
  outers : List OuterInfo
  nested : List Prototype
  types : List TypeInfo
  tables : List JumpTable
  locals : List LocalInfo
  lines : LineTable
deriving Inhabited

namespace Prototype

def displayName (p : Prototype) : String :=
  p.name.getD "<anonymous>"

/-- The number of arguments a call must give at least. -/
def required (p : Prototype) : Nat :=
  if p.variadic then p.params - 1 else p.params

/-- The constant at an index, if it is a string. -/
def stringConstant? (p : Prototype) (i : Nat) : Option String :=
  p.constants[i]?.bind Constant.str?

end Prototype
end Refscript
