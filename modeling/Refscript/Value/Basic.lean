import Refscript.Number.Basic

/-!
# Refscript.Value.Basic

The values that programs compute with. Data without identity stands in the value itself; what can
change or has an identity of its own lives in a store and is named by its number there.
-/

namespace Refscript

abbrev ListId := Nat
abbrev ActivationId := Nat
abbrev CellId := Nat
abbrev ClosureId := Nat
abbrev CallbackId := Nat
abbrev TypeId := Nat
abbrev ObjectId := Nat
abbrev KitId := Nat

mutual

inductive Value where
  | null
  | bool (b : Bool)
  | num (n : Number)
  | str (s : String)
  | list (id : ListId)
  | tuple (items : List Value)
  | closure (id : ClosureId)
  | callback (id : CallbackId)
  | type (id : TypeId)
  | object (id : ObjectId)
  | kit (id : KitId)
  /-- A reference; the serial number tells references to one place apart. -/
  | ref (serial : Nat) (place : Place)

/-- What a reference refers to. -/
inductive Place where
  | global (name : String)
  /-- A variable of the function that made the reference. -/
  | loc (cell : CellId)
  /-- A variable captured by the function that made the reference. -/
  | outer (cell : CellId)
  | element (target key : Value)
  | field (target : Value) (name : String)

end

instance : Inhabited Value := ⟨.null⟩

/-- The most values that can stand side by side in memory: a block of memory has less than `2 ^ 63`
bytes, and a value takes 24 of them. -/
def Value.capacity : Nat := 384307168202282325

/-- The kinds of value the language itself provides. Each has a type descriptor, which programs may
extend. -/
inductive Kind where
  | null | bool | int | float | string | list | tuple | closure | callback | type | kit | reference
deriving DecidableEq, Repr

namespace Kind

def name : Kind → String
  | null => "null"
  | bool => "bool"
  | int => "int"
  | float => "float"
  | string => "string"
  | list => "list"
  | tuple => "tuple"
  | closure => "closure"
  | callback => "callback"
  | type => "type"
  | kit => "kit"
  | reference => "reference"

/-- All kinds; a kind's descriptor has the kind's place in this list as its number. -/
def all : List Kind :=
  [null, bool, int, float, string, list, tuple, closure, callback, type, kit, reference]

def typeId : Kind → TypeId
  | null => 0
  | bool => 1
  | int => 2
  | float => 3
  | string => 4
  | list => 5
  | tuple => 6
  | closure => 7
  | callback => 8
  | type => 9
  | kit => 10
  | reference => 11

end Kind

namespace Place

def kindName : Place → String
  | global _ => "global"
  | loc _ => "local"
  | outer _ => "outer"
  | element _ _ => "index"
  | field _ _ => "field"

end Place

namespace Value

def int (i : Int64) : Value := num (.int i)

def float (d : Double) : Value := num (.float d)

/-- The kind of a value that is not an object. -/
def kind? : Value → Option Kind
  | null => some .null
  | bool _ => some .bool
  | num (.int _) => some .int
  | num (.float _) => some .float
  | str _ => some .string
  | list _ => some .list
  | tuple _ => some .tuple
  | closure _ => some .closure
  | callback _ => some .callback
  | type _ => some .type
  | object _ => none
  | kit _ => some .kit
  | ref _ _ => some .reference

/-- Null, false, zero and the empty string count as false; all else counts as true. -/
def truth : Value → Bool
  | null => false
  | bool b => b
  | num n => n.truth
  | str s => !s.isEmpty
  | _ => true

def int? : Value → Option Int64
  | num (.int i) => some i
  | _ => none

end Value
end Refscript
