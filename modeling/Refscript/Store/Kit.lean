import Refscript.Store.Action

/-!
# Refscript.Store.Kit

Kits: registering them, taking their fields over into the globals, and the standard kit.
-/

namespace Refscript
namespace Store

/-- Adds a kit and registers it under its name, in place of an earlier kit of that name. -/
def registerKit (s : Store) (name : String) (fields : List (String × Value)) : KitId × Store :=
  let (id, s) := s.addKit ⟨name, .ofList fields⟩
  (id, { s with registered := s.registered.insert name id })

/-- The kit registered under a name. -/
def findKit (s : Store) (name : String) : Except Fault Kit :=
  match s.registered.get? name with
  | some id => .ok (s.kit id)
  | none => .error (.refused (.unknownKit name))

/-- Makes globals of all fields of a kit. -/
def useAll (name : String) : Action Unit := do
  let kit ← Action.reading (·.findKit name)
  Action.changing fun s => { s with globals := s.globals.insertAll kit.fields.entries }

/-- Makes globals of the named fields of a kit, up to the first one that is missing. -/
def useFields (name : String) (fields : List String) : Action Unit := do
  let kit ← Action.reading (·.findKit name)
  fields.forM fun field => do
    match kit.fields.get? field with
    | some v => Action.changing (·.setGlobal field v)
    | none => Action.fail (.missingField ("kit " ++ name) field)

def hasKit (s : Store) (name : String) : Bool :=
  s.registered.contains name

/-- Whether a global name has a value of its own. -/
def isDefined (s : Store) (name : String) : Bool :=
  s.globals.contains name

end Store

namespace StandardKit

def name : String := "std"

/-- The kinds whose descriptors programs can name. -/
def types : List (String × Kind) :=
  [("Null", .null), ("Bool", .bool), ("Int", .int), ("Float", .float), ("String", .string),
    ("List", .list),
    ("Tuple", .tuple), ("Closure", .closure)]

/-- Adds a callback for each of the functions. -/
def addFunctions (s : Store) : List LibraryFunction → List (String × Value) × Store
  | [] => ([], s)
  | f :: fs =>
    let (id, s) := s.addCallback ⟨f.name, .library f⟩
    let (fields, s) := addFunctions s fs
    ((f.name, .callback id) :: fields, s)

/-- Registers the standard kit and makes globals of its fields. -/
def install (s : Store) : Store :=
  let (functions, s) := addFunctions s LibraryFunction.all
  let fields := functions ++ types.map fun (n, k) => (n, Value.type k.typeId)
  let (_, s) := s.registerKit name fields
  { s with globals := s.globals.insertAll fields }

end StandardKit
end Refscript
