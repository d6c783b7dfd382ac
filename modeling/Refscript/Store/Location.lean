import Refscript.Store.Action

/-!
# Refscript.Store.Location

Reading and writing. A location is one place of the store that holds one value. Reading an index or
a field may also reach things that are not locations, such as the characters of a string or the
methods of a kind. A store to a location that holds a reference goes to what the reference refers
to, one step and no further; a method is replaced even if it is a reference.
-/

namespace Refscript

inductive Location where
  | slot (activation : ActivationId) (index : Nat)
  | cell (id : CellId)
  | global (name : String)
  | element (list : ListId) (index : Nat)
  | field (object : ObjectId) (name : String)
  | kitField (kit : KitId) (name : String)
  | method (type : TypeId) (name : String)
deriving DecidableEq, Repr

namespace Store

/-- How messages name the owner of a field. -/
def ownerName (s : Store) (target : Value) : String :=
  match target with
  | .kit id => "kit " ++ (s.kit id).name
  | .type id => "type " ++ (s.type id).name
  | v => s.typeName v

/-- The fields of the values that have tables of their own. An object's own fields come before its
type's methods. -/
def ownField? (s : Store) (target : Value) (name : String) : Option Value :=
  match target with
  | .object id =>
    match (s.object id).fields.get? name with
    | some v => some v
    | none => (s.typeOf id).methods.get? name
  | .kit id => (s.kit id).fields.get? name
  | .type id => (s.type id).methods.get? name
  | _ => none

/-- The value of `target.name`: a field, or a method of the value's kind. -/
def field? (s : Store) (target : Value) (name : String) : Option Value :=
  match target with
  | .object _ | .kit _ | .type _ => s.ownField? target name
  | v => v.kind?.bind fun k => (s.type k.typeId).methods.get? name

def readField (s : Store) (target : Value) (name : String) : Except Fault Value :=
  match s.field? target name with
  | some v => .ok v
  | none => .error (.missingField (s.ownerName target) name)

def notIndexable (s : Store) (target key : Value) : Fault :=
  .notIndexable (s.typeName target) (s.typeName key)

/-- The position that a numeric key denotes in a sequence of the given length. -/
def position (s : Store) (target : Value) (key : Number) (length : Nat) : Except Fault Nat :=
  match key with
  | .int i =>
    if i.toInt < 0 ∨ (length : Int) ≤ i.toInt then .error (.indexOutOfBounds i.toInt length)
    else .ok i.toInt.toNat
  | .float _ => .error (s.notIndexable target (.num key))

/-- The value of `target[key]`. -/
def readIndex (s : Store) (target key : Value) : Except Fault Value :=
  match target, key with
  | .list id, .num n => do
    let items := s.listItems id
    let i ← s.position target n items.size
    return items.getD i .null
  | .tuple items, .num n => do
    let i ← s.position target n items.length
    return items.getD i .null
  | .str text, .num n => do
    let cs := text.toList
    let i ← s.position target n cs.length
    return .str (String.ofList (cs[i]?).toList)
  | .object _, .str name | .kit _, .str name | .type _, .str name => s.readField target name
  | _, _ => .error (s.notIndexable target key)

/-- The value that a place holds. -/
def read (s : Store) : Place → Except Fault Value
  | .global name => .ok (s.load name)
  | .loc c | .outer c => .ok (s.cellValue c)
  | .element target key => s.readIndex target key
  | .field target name => s.readField target name

/-- The longest chain of references that is followed. -/
def maxChain : Nat := 64

/-- Follows at most `n` references. -/
def derefWithin (s : Store) (n : Nat) (v : Value) : Except Fault Value :=
  match v with
  | .ref _ place =>
    match n with
    | 0 => .error (.invalidReferenceTarget (.chainTooLong maxChain))
    | n + 1 =>
      match s.read place with
      | .ok v => s.derefWithin n v
      | .error f => .error f
  | v => .ok v

/-- The plain value that a value stands for. -/
def deref (s : Store) (v : Value) : Except Fault Value :=
  s.derefWithin maxChain v

/-- The plain values that values stand for. -/
def derefAll (s : Store) (vs : List Value) : Except Fault (List Value) :=
  vs.mapM s.deref

def contents? (s : Store) : Location → Option Value
  | .slot a i => (s.locals a)[i]?
  | .cell c => some (s.cellValue c)
  | .global name => s.globals.get? name
  | .element id i => (s.listItems id)[i]?
  | .field id name => (s.object id).fields.get? name
  | .kitField id name => (s.kit id).fields.get? name
  | .method id name => (s.type id).methods.get? name

/-- The location that `target.name` denotes in a store. -/
def locateField (s : Store) (target : Value) (name : String) : Except Fault Location :=
  match target with
  | .object id => .ok (.field id name)
  | .kit id => .ok (.kitField id name)
  | .type id => .ok (.method id name)
  | v => .error (.fieldNotWritable (s.ownerName v) name)

/-- The location that `target[key]` denotes in a store. -/
def locateIndex (s : Store) (target key : Value) : Except Fault Location :=
  match target, key with
  | .list id, .num n => (s.position target n (s.listItems id).size).map (.element id)
  | .tuple _, _ | .str _, _ => .error (.invalidReferenceTarget (.readOnly (s.typeName target)))
  | .object _, .str name | .kit _, .str name | .type _, .str name => s.locateField target name
  | _, _ => .error (s.notIndexable target key)

/-- The location that a reference to a place writes to. -/
def locate (s : Store) : Place → Except Fault Location
  | .global name => .ok (.global name)
  | .loc c | .outer c => .ok (.cell c)
  | .element target key => s.locateIndex target key
  | .field target name => s.locateField target name

/-- Replaces what a location holds. A method can only be replaced by something that can be
called. -/
def put (l : Location) (v : Value) : Action Unit := fun s =>
  match l with
  | .slot a i => .ok () (s.setLocal a i v)
  | .cell c => .ok () (s.setCell c v)
  | .global name => .ok () (s.setGlobal name v)
  | .element id i => .ok () (s.modifyList id fun items => items.setIfInBounds i v)
  | .field id name => .ok () (s.setField id name v)
  | .kitField id name => .ok () (s.setKitField id name v)
  | .method id name =>
    if s.invocable v then .ok () (s.setMethod id name v)
    else .error (.fieldNotWritable (s.ownerName (.type id)) name) s

/-- Writes what a reference refers to, even if that holds another reference. -/
def overwrite (place : Place) (v : Value) : Action Unit := do
  put (← Action.reading (·.locate place)) v

/-- What a store to a location goes to in its place. -/
def redirect? (s : Store) (l : Location) : Option Place :=
  match l with
  | .method _ _ => none
  | l =>
    match s.contents? l with
    | some (.ref _ place) => some place
    | _ => none

/-- Stores into a location, or through the reference that it holds. -/
def assign (l : Location) (v : Value) : Action Unit := do
  match ← Action.look (·.redirect? l) with
  | some place => overwrite place v
  | none => put l v

end Store
end Refscript
