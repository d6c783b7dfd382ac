import Refscript.Code.Prototype

/-!
# Refscript.Code.Builder

Building a compiled function instruction by instruction. A builder follows the height of the operand
stack, keeps the locals in scope with their slots, shares equal constants, and notes when an operand
does not fit its field.

A builder refuses to let the height drop below zero and to end a scope that was not started; both
are mistakes of whoever drives it, not of the program being compiled.
-/

namespace Refscript

/-- A function that is being built. Its counters and the offsets it hands out have no bound here; 32
bits hold them as long as there are fewer than `2 ^ 32` instructions, slots, constants and other
entries. -/
structure Builder where
  name : Option String
  params : Nat
  variadic : Bool
  code : Array Insn
  lines : LineTable
  line : Nat
  constants : Array Constant
  /-- Locals in scope; the one at place `i` has slot `i`. -/
  active : List LocalInfo
  retired : List LocalInfo
  /-- The number of active locals at the start of each open scope, innermost first. -/
  scopes : List Nat
  outers : List OuterInfo
  nested : List Prototype
  types : List TypeInfo
  tables : List JumpTable
  height : Nat
  maxHeight : Nat
  maxLocals : Nat
  oversized : Bool

/-- A builder was driven out of its contract. -/
inductive Inconsistency where
  | heightBelowZero (function : String)
  | scopeNotStarted
deriving DecidableEq, Repr

def Inconsistency.message : Inconsistency → String
  | heightBelowZero function =>
    s!"Error in code: operand stack height of '{function}' would drop below zero."
  | scopeNotStarted => "Error in code: ended a scope that was never started."

namespace Builder

def new (name : Option String) : Builder where
  name := name
  params := 0
  variadic := false
  code := #[]
  lines := .empty
  line := 0
  constants := #[]
  active := []
  retired := []
  scopes := []
  outers := []
  nested := []
  types := []
  tables := []
  height := 0
  maxHeight := 0
  maxLocals := 0
  oversized := false

def displayName (b : Builder) : String :=
  b.name.getD "<anonymous>"

/-- The offset of the next instruction. -/
def position (b : Builder) : Nat :=
  b.code.size

def scopeDepth (b : Builder) : Nat :=
  b.scopes.length

/-- Declares a local in the next slot, unless the name is taken. -/
def addLocal? (b : Builder) (name : String) : Option (Nat × Builder) :=
  if b.active.any (·.name == name) then none
  else
    let slot := b.active.length
    some (slot,
      { b with
        active := b.active ++ [⟨name, slot, b.position, 0, false⟩]
        maxLocals := max b.maxLocals (slot + 1) })

/-- Declares a parameter, unless the name is taken. -/
def addParameter? (b : Builder) (name : String) : Option (Nat × Builder) :=
  (b.addLocal? name).map fun (slot, b) => (slot, { b with params := b.params + 1 })

/-- The slot of the innermost local of a name. -/
def localSlot? (b : Builder) (name : String) : Option Nat :=
  (b.active.reverse.find? (·.name == name)).map LocalInfo.slot

/-- Marks the first of the locals with the given slot as captured. -/
def markCapturedIn (slot : Nat) : List LocalInfo → List LocalInfo
  | [] => []
  | l :: ls =>
    if l.slot = slot then { l with captured := true } :: ls else l :: markCapturedIn slot ls

def markCaptured (b : Builder) (slot : Nat) : Builder :=
  { b with active := markCapturedIn slot b.active }

def outerPosition? (b : Builder) (name : String) : Option Nat :=
  b.outers.findIdx? (·.name == name)

/-- Adds a captured variable and gives its place. -/
def pushOuter (b : Builder) (name : String) (position : Nat) (kind : OuterKind) : Nat × Builder :=
  (b.outers.length, { b with outers := b.outers ++ [⟨name, position, kind⟩] })

/-- Finds a variable of the functions around `b`, innermost first, and captures it all the way
in. -/
def resolveOuter? (name : String) (b : Builder) (parents : List Builder) :
    Option (Nat × Builder × List Builder) :=
  match b.outerPosition? name with
  | some position => some (position, b, parents)
  | none =>
    match parents with
    | [] => none
    | parent :: rest =>
      match parent.localSlot? name with
      | some slot =>
        let (position, b) := b.pushOuter name slot .localInParent
        some (position, b, parent.markCaptured slot :: rest)
      | none =>
        match resolveOuter? name parent rest with
        | none => none
        | some (outer, parent, rest) =>
          let (position, b) := b.pushOuter name outer .outerInParent
          some (position, b, parent :: rest)

/-- Ends the life of locals at the current offset. Captured ones outlive it. -/
def retire (b : Builder) (locals : List LocalInfo) : Builder :=
  { b with
    retired :=
      b.retired ++ locals.map fun l => if l.captured then l else { l with stop := b.position } }

/-- The place of a constant in the pool, where it is added if it is new. -/
def addConstant (b : Builder) (c : Constant) : Nat × Builder :=
  match b.constants.findIdx? (· == c) with
  | some i => (i, b)
  | none => (b.constants.size, { b with constants := b.constants.push c })

def addNested (b : Builder) (p : Prototype) : Nat × Builder :=
  (b.nested.length, { b with nested := b.nested ++ [p] })

def reserveTable (b : Builder) : Nat × Builder :=
  (b.tables.length, { b with tables := b.tables ++ [⟨.empty⟩] })

def fillTable (b : Builder) (i : Nat) (t : JumpTable) : Builder :=
  { b with tables := b.tables.set i t }

/-- Sets the height where paths join. -/
def setHeight (b : Builder) (height : Nat) : Builder :=
  { b with height := height, maxHeight := max b.maxHeight height }

def grow (b : Builder) (n : Nat) : Builder :=
  b.setHeight (b.height + n)

def push (b : Builder) (i : Insn) : Builder :=
  { b with
    code := b.code.push i
    lines := b.lines.push b.line
    oversized := b.oversized || !i.fits }

/-- Changes the operand of the instruction at an offset. -/
def patch (b : Builder) (site target : Nat) : Builder :=
  match b.code[site]? with
  | some i =>
    let i := { i with a := target }
    { b with code := b.code.setIfInBounds site i, oversized := b.oversized || !i.fits }
  | none => b

/-- The finished function. -/
def build (b : Builder) : Prototype :=
  let b := { b.retire b.active with active := [] }
  { name := b.name
    code := b.code.map Insn.pack
    params := b.params
    variadic := b.variadic
    maxLocals := b.maxLocals
    maxStack := b.maxHeight
    constants := b.constants
    outers := b.outers
    nested := b.nested
    types := b.types
    tables := b.tables
    locals := b.retired
    lines := b.lines }

end Builder

/-- Steps of building a function. -/
abbrev Build := EStateM Inconsistency Builder

namespace Build

def shrink (n : Nat) : Build Unit := do
  let b ← get
  if b.height < n then throw (.heightBelowZero b.displayName)
    else set { b with height := b.height - n }

/-- Emits an instruction that takes `popped` values from the stack and leaves `pushed`. -/
def emit (popped pushed : Nat) (i : Insn) : Build Nat := do
  shrink popped
  modifyGet fun b => (b.position, (b.grow pushed).push i)

def emitUnit (popped pushed : Nat) (i : Insn) : Build Unit := do
  let _ ← emit popped pushed i

def constant (c : Constant) : Build Nat :=
  modifyGet (·.addConstant c)

def setLine (line : Nat) : Build Unit :=
  modify fun b => { b with line := line }

def setHeight (height : Nat) : Build Unit :=
  modify (·.setHeight height)

def position : Build Nat :=
  return (← get).position

def patchJump (site target : Nat) : Build Unit :=
  modify (·.patch site target)

/-- Makes the jump at an offset lead to the next instruction. -/
def patchHere (site : Nat) : Build Unit := do
  patchJump site (← position)

def pop : Build Unit := emitUnit 1 0 (.simple .pop)

def dup : Build Unit := emitUnit 1 2 (.simple .dup)

def dup2 : Build Unit := emitUnit 2 4 (.simple .dup2)

def closeOuters (slot : Nat) : Build Unit := emitUnit 0 0 (.wide .closeOuters slot)

def jump (target : Nat) : Build Nat := emit 0 0 (.wide .jump target)

def jumpTrue (target : Nat) : Build Nat := emit 1 0 (.wide .jumpTrue target)

def jumpFalse (target : Nat) : Build Nat := emit 1 0 (.wide .jumpFalse target)

def and (target : Nat) : Build Nat := emit 1 0 (.wide .and target)

def or (target : Nat) : Build Nat := emit 1 0 (.wide .or target)

def loadLocal (slot : Nat) : Build Unit := emitUnit 0 1 (.wide .loadLocal slot)

def storeLocal (slot : Nat) : Build Unit := emitUnit 1 1 (.wide .storeLocal slot)

def initLocal (slot : Nat) : Build Unit := emitUnit 1 1 (.wide .initLocal slot)

def loadOuter (position : Nat) : Build Unit := emitUnit 0 1 (.wide .loadOuter position)

def storeOuter (position : Nat) : Build Unit := emitUnit 1 1 (.wide .storeOuter position)

/-- Emits an instruction whose wide operand is a string constant. -/
def named (popped pushed : Nat) (op : Opcode) (name : String) : Build Unit := do
  emitUnit popped pushed (.wide op (← constant (.str name)))

def loadGlobal (name : String) : Build Unit := named 0 1 .loadGlobal name

def storeGlobal (name : String) : Build Unit := named 1 1 .storeGlobal name

def loadIndex : Build Unit := emitUnit 2 1 (.simple .loadIndex)

def storeIndex : Build Unit := emitUnit 3 1 (.simple .storeIndex)

def loadField (name : String) : Build Unit := named 1 1 .loadField name

def storeField (name : String) : Build Unit := named 2 1 .storeField name

def null : Build Unit := emitUnit 0 1 (.simple .pushNull)

def bool (b : Bool) : Build Unit := emitUnit 0 1 (.simple (if b then .pushTrue else .pushFalse))

/-- The number of the small constant equal to an integer: `z + 1` for `z` from -1 to 5. -/
def small? (z : Int) : Option (Fin 7) :=
  if h : -1 ≤ z ∧ z ≤ 5 then some ⟨(z + 1).toNat, by omega⟩ else none

def int (i : Int64) : Build Unit := do
  match small? i.toInt with
  | some k => emitUnit 0 1 (.simple (.smallInt k))
  | none => emitUnit 0 1 (.wide .const (← constant (.int i)))

/-- The small constant that is exactly the given double; negative zero has none. -/
def smallDouble? (d : Double) : Option (Fin 7) :=
  if d.isIntegral && !(d.isZero && d.isNegative) then small? d.truncate else none

def float (d : Double) : Build Unit := do
  match smallDouble? d with
  | some k => emitUnit 0 1 (.simple (.smallFloat k))
  | none => emitUnit 0 1 (.wide .const (← constant (.float d)))

def string (s : String) : Build Unit := named 0 1 .const s

def list (count : Nat) : Build Unit := emitUnit count 1 (.wide .list count)

def tuple (count : Nat) : Build Unit := emitUnit count 1 (.wide .tuple count)

def closure (p : Prototype) : Build Unit := do
  emitUnit 0 1 (.wide .closure (← modifyGet (·.addNested p)))

def makeType (t : TypeInfo) : Build Unit := do
  let i ← modifyGet fun b => (b.types.length, { b with types := b.types ++ [t] })
  emitUnit 0 1 (.wide .makeType i)

def this : Build Unit := emitUnit 0 1 (.simple .this)

def invoke (count : Nat) : Build Unit := emitUnit (count + 1) 1 (.wide .invoke count)

def invokeMethod (name : String) (count : Nat) : Build Unit := do
  emitUnit (count + 1) 1 (.split .invokeMethod count (← constant (.str name)))

def prefixOp (symbol : String) : Build Unit := named 1 1 .prefixOp symbol

def infixOp (symbol : String) : Build Unit := named 2 1 .infixOp symbol

def eq (negated : Bool) : Build Unit := emitUnit 2 1 (.simple (if negated then .neq else .eq))

def not : Build Unit := emitUnit 1 1 (.simple .not)

def matchOn (table : Nat) : Build Unit := emitUnit 1 0 (.wide .matchOn table)

def reference (popped : Nat) (kind : RefKind) (b : Nat) : Build Unit :=
  emitUnit popped 1 (.split .ref kind.number b)

def refLocal (slot : Nat) : Build Unit := reference 0 .loc slot

def refOuter (position : Nat) : Build Unit := reference 0 .outer position

def refGlobal (name : String) : Build Unit := do
  reference 0 .global (← constant (.str name))

def refIndex : Build Unit := reference 2 .index 0

def refField (name : String) : Build Unit := do
  reference 1 .field (← constant (.str name))

def deref : Build Unit := emitUnit 1 1 (.simple .deref)

def storeDeref : Build Unit := emitUnit 2 1 (.simple .storeDeref)

def ret : Build Unit := emitUnit 1 0 (.simple .ret)

def startScope : Build Unit :=
  modify fun b => { b with scopes := b.active.length :: b.scopes }

/-- Ends the innermost scope. If one of its locals is captured, the cells of its slots are
closed. -/
def endScope : Build Unit := do
  let b ← get
  match b.scopes with
  | [] => throw .scopeNotStarted
  | base :: scopes =>
    let leaving := b.active.drop base
    set { b with scopes := scopes, active := b.active.take base }
    if leaving.any LocalInfo.captured then closeOuters base
    modify (·.retire leaving)

end Build
end Refscript
