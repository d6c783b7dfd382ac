import Refscript.Code.Prototype
import Refscript.Value.Native

/-!
# Refscript.Store.Basic

The store: everything that programs can change or tell apart by identity, with the globals and the
registered kits. Looking up a number that was never handed out gives an empty item of its sort.
-/

namespace Refscript

/-- A captured variable. It stands for a slot of a running function until that variable's scope
ends, and then keeps the value on its own. -/
inductive Cell where
  | opened (activation : ActivationId) (slot : Nat)
  | closed (value : Value)
deriving Inhabited

/-- A function value: code and the variables it captured. -/
structure Closure where
  prototype : Prototype
  captures : Array CellId
deriving Inhabited

structure Callback where
  name : String
  native : Native
deriving Inhabited

/-- The descriptor of a type. Only types defined by programs can be instantiated. A program gives a
type functions; an embedding program may give it any values. -/
structure TypeDef where
  name : String
  ctor : Option Value
  invoke : Option Value
  methods : Table String Value
  prefixOps : Table String Value
  infixOps : Table String Value
  instantiable : Bool
deriving Inhabited

/-- The descriptor of a provided kind before it has methods. -/
def TypeDef.provided (name : String) : TypeDef :=
  ⟨name, none, none, .empty, .empty, .empty, false⟩

structure Object where
  type : TypeId
  fields : Table String Value
deriving Inhabited

/-- A named collection of values offered by the embedding program. -/
structure Kit where
  name : String
  fields : Table String Value
deriving Inhabited

structure Store where
  lists : Array (Array Value)
  /-- The local variables of every call so far. -/
  activations : Array (Array Value)
  cells : Array Cell
  closures : Array Closure
  callbacks : Array Callback
  types : Array TypeDef
  objects : Array Object
  kits : Array Kit
  /-- How many references were made. -/
  references : Nat
  globals : Table String Value
  registered : Table String KitId

namespace Store

def empty : Store :=
  ⟨#[], #[], #[], #[], #[], #[], #[], #[], 0, .empty, .empty⟩

def listItems (s : Store) (id : ListId) : Array Value :=
  s.lists.getD id #[]

/-- A list that the store does not have counts as empty. -/
theorem listItems_of_le {s : Store} {id : ListId} (h : s.lists.size ≤ id) :
    s.listItems id = #[] := by
  rw [listItems, Array.getD_eq_getD_getElem?, Array.getElem?_eq_none h]
  rfl

theorem lt_of_mem_listItems {s : Store} {id : ListId} {v : Value}
    (hv : v ∈ (s.listItems id).toList) :
    id < s.lists.size := by
  refine Nat.lt_of_not_le fun hle => ?_
  rw [listItems_of_le hle] at hv
  cases hv

def locals (s : Store) (id : ActivationId) : Array Value :=
  s.activations.getD id #[]

def cell (s : Store) (id : CellId) : Cell :=
  s.cells.getD id default

def closure (s : Store) (id : ClosureId) : Closure :=
  s.closures.getD id default

def callback (s : Store) (id : CallbackId) : Callback :=
  s.callbacks.getD id default

def type (s : Store) (id : TypeId) : TypeDef :=
  s.types.getD id default

def object (s : Store) (id : ObjectId) : Object :=
  s.objects.getD id default

def kit (s : Store) (id : KitId) : Kit :=
  s.kits.getD id default

/-- The descriptor of an object's type. -/
def typeOf (s : Store) (id : ObjectId) : TypeDef :=
  s.type (s.object id).type

/-- The value of a captured variable; a slot that does not exist reads as null. -/
def cellValue (s : Store) (id : CellId) : Value :=
  match s.cell id with
  | .opened a i => (s.locals a).getD i .null
  | .closed v => v

/-- The value of a global name. A name without a value of its own stands for the kit registered
under it, or else for null. -/
def load (s : Store) (name : String) : Value :=
  match s.globals.get? name with
  | some v => v
  | none =>
    match s.registered.get? name with
    | some id => .kit id
    | none => .null

def addList (s : Store) (items : Array Value) : ListId × Store :=
  (s.lists.size, { s with lists := s.lists.push items })

def addActivation (s : Store) (locals : Array Value) : ActivationId × Store :=
  (s.activations.size, { s with activations := s.activations.push locals })

def addCell (s : Store) (c : Cell) : CellId × Store :=
  (s.cells.size, { s with cells := s.cells.push c })

def addClosure (s : Store) (c : Closure) : ClosureId × Store :=
  (s.closures.size, { s with closures := s.closures.push c })

def addCallback (s : Store) (c : Callback) : CallbackId × Store :=
  (s.callbacks.size, { s with callbacks := s.callbacks.push c })

def addType (s : Store) (t : TypeDef) : TypeId × Store :=
  (s.types.size, { s with types := s.types.push t })

def addObject (s : Store) (o : Object) : ObjectId × Store :=
  (s.objects.size, { s with objects := s.objects.push o })

def addKit (s : Store) (k : Kit) : KitId × Store :=
  (s.kits.size, { s with kits := s.kits.push k })

/-- A new list as a value. -/
def newList (s : Store) (items : Array Value) : Value × Store :=
  let (id, s) := s.addList items
  (.list id, s)

/-- A new reference as a value. -/
def newReference (s : Store) (place : Place) : Value × Store :=
  (.ref s.references place, { s with references := s.references + 1 })

def setGlobal (s : Store) (name : String) (v : Value) : Store :=
  { s with globals := s.globals.insert name v }

def modifyList (s : Store) (id : ListId) (f : Array Value → Array Value) : Store :=
  { s with lists := s.lists.modify id f }

def setLocal (s : Store) (id : ActivationId) (slot : Nat) (v : Value) : Store :=
  { s with activations := s.activations.modify id fun locals => locals.setIfInBounds slot v }

def setCell (s : Store) (id : CellId) (v : Value) : Store :=
  match s.cell id with
  | .opened a i => s.setLocal a i v
  | .closed _ => { s with cells := s.cells.setIfInBounds id (.closed v) }

/-- Ends the link between a captured variable and its slot; the cell keeps the slot's value. -/
def closeCell (s : Store) (id : CellId) : Store :=
  { s with cells := s.cells.setIfInBounds id (.closed (s.cellValue id)) }

def setField (s : Store) (id : ObjectId) (name : String) (v : Value) : Store :=
  { s with objects := s.objects.modify id fun o => { o with fields := o.fields.insert name v } }

def setKitField (s : Store) (id : KitId) (name : String) (v : Value) : Store :=
  { s with kits := s.kits.modify id fun k => { k with fields := k.fields.insert name v } }

def setMethod (s : Store) (id : TypeId) (name : String) (v : Value) : Store :=
  { s with types := s.types.modify id fun t => { t with methods := t.methods.insert name v } }

/-- The name of a value's type. -/
def typeName (s : Store) (v : Value) : String :=
  match v with
  | .object id => (s.typeOf id).name
  | v => (v.kind?.map Kind.name).getD ""

/-- Whether a value can be called; an object can if its type says what that does. -/
def invocable (s : Store) : Value → Bool
  | .closure _ | .callback _ | .type _ => true
  | .object id => (s.typeOf id).invoke.isSome
  | _ => false

/-- Gives a provided kind one of its methods. -/
def addMethod (s : Store) (m : Method) : Store :=
  let (id, s) := s.addCallback ⟨m.name, .method m⟩
  s.setMethod m.owner.typeId m.name (.callback id)

/-- The store in which nothing has happened: the descriptors of the provided kinds with their
methods. The first of the activations is no call's; its slot is what cells that were never made
stand for. -/
def initial : Store :=
  let types := (Kind.all.map fun k => TypeDef.provided k.name).toArray
  let s := { empty with types := types, activations := #[#[.null]] }
  Method.all.foldl addMethod s

end Store
end Refscript
