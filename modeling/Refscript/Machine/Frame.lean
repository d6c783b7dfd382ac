import Refscript.Store.Action

/-!
# Refscript.Machine.Frame

Calls in progress: the operand stack, the local variables, and the captured ones among them.
-/

namespace Refscript

structure Frame where
  closure : Closure
  this : Option Value
  activation : ActivationId
  /-- The operand stack, its top first. -/
  stack : List Value
  ip : Nat
  /-- The cells that stand for slots of this call. -/
  openCells : List CellId
  /-- What the call gives instead of its own result. -/
  result : Option Value

namespace Frame

def prototype (f : Frame) : Prototype := f.closure.prototype

def push (f : Frame) (v : Value) : Frame :=
  { f with stack := v :: f.stack }

def top (f : Frame) : Except Fault Value :=
  match f.stack with
  | [] => .error .stackUnderflow
  | v :: _ => .ok v

def pop (f : Frame) : Except Fault (Value × Frame) :=
  match f.stack with
  | [] => .error .stackUnderflow
  | v :: rest => .ok (v, { f with stack := rest })

/-- Takes the `n` topmost values, given in the order in which they were pushed. -/
def popN (f : Frame) (n : Nat) : Except Fault (List Value × Frame) :=
  if f.stack.length < n then .error .stackUnderflow
  else .ok ((f.stack.take n).reverse, { f with stack := f.stack.drop n })

/-- Whether a cell stands for the given slot of this call. -/
def standsFor (f : Frame) (s : Store) (slot : Nat) (c : CellId) : Bool :=
  match s.cell c with
  | .opened a i => a == f.activation && i == slot
  | .closed _ => false

/-- The cell for a slot: the one that stands for it already, or a new one. -/
def capture (f : Frame) (slot : Nat) : Action (CellId × Frame) := do
  match ← Action.look fun s => f.openCells.find? (f.standsFor s slot) with
  | some c => return (c, f)
  | none =>
    let c ← Action.adding (·.addCell (.opened f.activation slot))
    return (c, { f with openCells := f.openCells ++ [c] })

/-- Whether a cell stands for a slot from the given one on. -/
def standsFrom (s : Store) (slot : Nat) (c : CellId) : Bool :=
  match s.cell c with
  | .opened _ i => slot ≤ i
  | .closed _ => false

/-- Closes the cells of all slots from the given one on. -/
def closeFrom (f : Frame) (slot : Nat) (s : Store) : Frame × Store :=
  let (ending, staying) := f.openCells.partition (standsFrom s slot)
  ({ f with openCells := staying }, ending.foldl Store.closeCell s)

def outer (f : Frame) (position : Nat) : Except Fault CellId :=
  match f.closure.captures[position]? with
  | some c => .ok c
  | none => .error (.invalidInstruction position)

/-- The cells that a new function captures. -/
def captures (f : Frame) : List OuterInfo → Action (List CellId × Frame)
  | [] => return ([], f)
  | o :: rest => do
    let (c, f) ←
      match o.kind with
      | .localInParent => f.capture o.position
      | .outerInParent => Action.ofExcept ((f.outer o.position).map (·, f))
    let (cs, f) ← f.captures rest
    return (c :: cs, f)

/-- Whether a new function is to take a capture from this call that is not there. -/
def lacks (f : Frame) (o : OuterInfo) : Bool :=
  decide (o.kind = .outerInParent ∧ f.closure.captures.size ≤ o.position)

/-- Nested code whose captures are all there. -/
def nestedAt (f : Frame) (index : Nat) : Except Fault Prototype :=
  match f.prototype.nested[index]? with
  | none => .error (.invalidInstruction index)
  | some p =>
    match p.outers.find? f.lacks with
    | some o => .error (.invalidInstruction o.position)
    | none => .ok p

/-- A new function value from nested code. -/
def makeClosure (f : Frame) (index : Nat) : Action (ClosureId × Frame) := do
  let p ← Action.ofExcept (f.nestedAt index)
  let (cs, f) ← f.captures p.outers
  return (← Action.adding (·.addClosure ⟨p, cs.toArray⟩), f)

def makeMember (f : Frame) : Option Nat → Action (Option Value × Frame)
  | none => return (none, f)
  | some i => do
    let (id, f) ← f.makeClosure i
    return (some (.closure id), f)

def makeMembers (f : Frame) : List (String × Nat) → Action (List (String × Value) × Frame)
  | [] => return ([], f)
  | (name, i) :: rest => do
    let (id, f) ← f.makeClosure i
    let (members, f) ← f.makeMembers rest
    return ((name, .closure id) :: members, f)

/-- Whether all nested code at the given places can be made into functions. -/
def checkNested (f : Frame) : List Nat → Except Fault Unit
  | [] => .ok ()
  | i :: rest =>
    match f.nestedAt i with
    | .ok _ => f.checkNested rest
    | .error e => .error e

/-- A new type from its description; a later member of a name replaces an earlier one. Nothing is
captured unless all members can be made. -/
def makeType (f : Frame) (index : Nat) : Action (TypeId × Frame) := do
  match f.prototype.types[index]? with
  | none => Action.fail (.invalidInstruction index)
  | some t =>
    Action.ofExcept (f.checkNested t.members)
    let (ctor, f) ← f.makeMember t.ctor
    let (invoke, f) ← f.makeMember t.invoke
    let (prefixOps, f) ← f.makeMembers t.prefixOps
    let (infixOps, f) ← f.makeMembers t.infixOps
    let (methods, f) ← f.makeMembers t.methods
    let type := ⟨t.name, ctor, invoke, .ofList methods, .ofList prefixOps, .ofList infixOps, true⟩
    return (← Action.adding (·.addType type), f)

def localAt (f : Frame) (s : Store) (slot : Nat) : Except Fault Value :=
  match (s.locals f.activation)[slot]? with
  | some v => .ok v
  | none => .error (.invalidInstruction slot)

def name (f : Frame) (index : Nat) : Except Fault String :=
  match f.prototype.stringConstant? index with
  | some n => .ok n
  | none => .error (.invalidInstruction index)

/-- The source line of the instruction that was fetched last. -/
def line (f : Frame) : Nat :=
  f.prototype.lines.line (f.ip - 1)

end Frame
end Refscript
