import Refscript.Store.Operation
import Refscript.Text.Blank
import Refscript.Text.Casing

/-!
# Refscript.Machine.Native

What callbacks do: the methods of the provided kinds, the functions of the standard kit, and the
functions of an embedding program. Dealings with the outside world are requests, which whoever runs
the machine answers.
-/

namespace Refscript

/-- Something only the outside world can do. -/
inductive Request where
  | write (text : String)
  /-- Writes the prompt and reads one line. -/
  | readLine (prompt : String)
  | clock
  | sleep (milliseconds : Nat)
  /-- An integer from `low` up to but not including `high`. -/
  | random (low high : Int64)
  /-- Makes the request and takes `v` for its answer. -/
  | instead (v : Value) (r : Request)

/-- How a callback answers a call. -/
inductive Reply where
  | value (v : Value)
  | request (r : Request)
  | call (c : Call)

/-- How a function of the embedding program answers a call. -/
inductive HostReply where
  | value (v : Value)
  | list (items : List Value)
  | fault (f : Fault)
  | call (c : Call)

/-- The functions of the embedding program, by name; they see the store, the receiver and the
arguments. These are functions of a narrow kind: they cannot change the store, but for a new list as
their answer, and they call back at most once, as the last thing they do. -/
abbrev Host := String → Store → Option Value → List Value → HostReply

/-- An embedding program without functions. -/
def noHost : Host := fun _ _ _ _ => .value .null

namespace Method

/-- Calls a method whose arity has been checked. -/
def apply (m : Method) (receiver : Value) (args : List Value) : Action Value :=
  match m, receiver with
  | intHex, .num (.int i) => pure (.str (String.ofList (Text.hexDigits i.toUInt64.toNat)))
  | intFloat, .num n => pure (.float n.toDouble)
  | floatFloor, .num n => pure (.int (n.toDouble.toInt64 Double.floor))
  | floatCeil, .num n => pure (.int (n.toDouble.toInt64 Double.ceil))
  | floatInt, .num n => pure (.int (n.toDouble.toInt64 Double.truncate))
  | stringLength, .str t => pure (.int (Int64.ofNat t.length))
  | stringUpper, .str t => pure (.str (String.ofList (Text.upper t.toList)))
  | stringLower, .str t => pure (.str (String.ofList (Text.lower t.toList)))
  | listAppend, .list id => do
    Action.changing (·.modifyList id fun items => items.appendList args)
    return .null
  | listLength, .list id => Action.look fun s => .int (Int64.ofNat (s.listItems id).size)
  | listPop, .list id => do
    match ← Action.look fun s => (s.listItems id).back? with
    | some v =>
      Action.changing (·.modifyList id Array.pop)
      return v
    | none => Action.fail (.indexOutOfBounds (-1) 0)
  | listClear, .list id => do
    Action.changing (·.modifyList id fun _ => #[])
    return .null
  | tupleLength, .tuple items => pure (.int (Int64.ofNat items.length))
  | m, v => Action.reading fun s => .error (.refused (.wrongReceiver m.name (s.typeName v)))

def run (m : Method) (this : Option Value) (args : List Value) : Action Value :=
  if args.length = m.arity then
    match this with
    | some receiver => m.apply receiver args
    | none => Action.fail (.refused (.needsReceiver m.name))
  else Action.fail (.badArity m.name (.exactly m.arity) args.length)

end Method

namespace LibraryFunction

def toInt (v : Value) : Except Fault Value :=
  match v with
  | .num (.int i) => .ok (.int i)
  | .num (.float d) => .ok (.int (d.toInt64 Double.truncate))
  | .str t =>
    match (Decimal.readInt? (Text.trim t.toList)).bind Number.fit? with
    | some i => .ok (.int i)
    | none => .error (.refused (.badInt t))
  | .bool b => .ok (.int (if b then 1 else 0))
  | _ => .error (.refused .needsScalar)

def toFloat (v : Value) : Except Fault Value :=
  match v with
  | .num n => .ok (.float n.toDouble)
  | .str t =>
    match Decimal.readDouble? (Text.trim t.toList) with
    | some d => .ok (.float d)
    | none => .error (.refused (.badFloat t))
  | .bool b => .ok (.float (Double.ofInt (if b then 1 else 0)))
  | _ => .error (.refused .needsScalar)

def sleepRequest (v : Value) : Except Fault Reply :=
  match v with
  | .num (.int i) =>
    if i.toInt < 0 then .error (.refused .needsNonNegativeInt)
      else .ok (.request (.sleep i.toInt.toNat))
  | _ => .error (.refused .needsNonNegativeInt)

def randomRequest (low high : Value) : Except Fault Reply :=
  match low, high with
  | .num (.int a), .num (.int b) =>
    if a < b then .ok (.request (.random a b)) else .error (.refused .emptyRange)
  | _, _ => .error (.refused .needsIntegers)

/-- The texts of the arguments, one after the other. -/
def joinedText (s : Store) (args : List Value) : String :=
  String.join (args.map s.display)

/-- Calls a function with plain arguments, as many as it takes. -/
def apply (f : LibraryFunction) (s : Store) (args : List Value) : Except Fault Reply :=
  match f, args with
  | clock, _ => .ok (.request .clock)
  | sleep, [v] => sleepRequest v
  | random, [low, high] => randomRequest low high
  | int, [v] => (toInt v).map .value
  | float, [v] => (toFloat v).map .value
  | bool, [v] => .ok (.value (.bool v.truth))
  | str, [v] => .ok (.value (.str (s.display v)))
  | typeOf, [v] => .ok (.value (.str (s.typeName v)))
  | format, _ => .ok (.value (.str (joinedText s args)))
  | print, _ => .ok (.request (.write (joinedText s args)))
  | println, _ => .ok (.request (.write (joinedText s args ++ "\n")))
  | input, _ => .ok (.request (.readLine (joinedText s args)))
  | f, _ => .error (.badArity f.name (.exactly (f.arity?.getD 0)) args.length)

def run (f : LibraryFunction) (s : Store) (args : List Value) : Except Fault Reply :=
  let arity := f.arity?.getD args.length
  if args.length = arity then
    match s.derefAll args with
    | .ok plain => f.apply s plain
    | .error fault => .error fault
  else .error (.badArity f.name (.exactly arity) args.length)

end LibraryFunction

namespace Callback

def run (c : Callback) (host : Host) (this : Option Value) (args : List Value) : Action Reply := do
  match c.native with
  | .method m => return .value (← m.run this args)
  | .library f => Action.reading fun s => f.run s args
  | .host =>
    match ← Action.look fun s => host c.name s this args with
    | .value v => return .value v
    | .list items => return .value (← Action.adding (·.newList items.toArray))
    | .fault f => Action.fail f
    | .call c => return .call c

end Callback
end Refscript
