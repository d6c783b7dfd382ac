import Refscript.Code.Builder
import Refscript.Syntax.Normalize

/-!
# Refscript.Code.Lower

Lowering a normalized program to compiled functions. Each node leaves its value on the stack exactly
when its value is wanted. A name is a local of the function at hand, else a captured local of a
function around it, else a global; functions and types defined at the top level are globals.

Mistakes in the program are reported and lowering goes on; the result is to be run only if none was
reported.
-/

namespace Refscript
namespace Lower

/-- The function being built, those around it, innermost first, and what was reported so far. -/
structure State where
  builder : Builder
  enclosing : List Builder
  diagnostics : List Diagnostic

abbrev LowerM := EStateM Inconsistency State

/-- Runs a building step on the function at hand. -/
def build {α : Type} (x : Build α) : LowerM α := fun ⟨b, enclosing, ds⟩ =>
  match x b with
  | .ok a b => .ok a ⟨b, enclosing, ds⟩
  | .error e b => .error e ⟨b, enclosing, ds⟩

def report (pos : Position) (p : Problem) : LowerM Unit :=
  modify fun s => { s with diagnostics := s.diagnostics ++ [⟨pos, p⟩] }

/-- Drops a value that is not wanted. -/
def discard (required : Bool) : LowerM Unit :=
  if required then return else build .pop

/-- Leaves a value by the given step if it is wanted. -/
def whenRequired (required : Bool) (x : Build Unit) : LowerM Unit :=
  if required then build x else return

/-- Where a name is found. -/
inductive Place where
  | loc (slot : Nat)
  | outer (position : Nat)
  | global
deriving DecidableEq, Repr

def resolve (name : String) : LowerM Place := fun ⟨b, enclosing, ds⟩ =>
  match b.localSlot? name with
  | some slot => .ok (.loc slot) ⟨b, enclosing, ds⟩
  | none =>
    match b.resolveOuter? name enclosing with
    | some (position, b, enclosing) => .ok (.outer position) ⟨b, enclosing, ds⟩
    | none => .ok .global ⟨b, enclosing, ds⟩

def load (name : String) : LowerM Unit := do
  match ← resolve name with
  | .loc slot => build (.loadLocal slot)
  | .outer position => build (.loadOuter position)
  | .global => build (.loadGlobal name)

def store (name : String) : LowerM Unit := do
  match ← resolve name with
  | .loc slot => build (.storeLocal slot)
  | .outer position => build (.storeOuter position)
  | .global => build (.storeGlobal name)

def refer (name : String) : LowerM Unit := do
  match ← resolve name with
  | .loc slot =>
    build (modify (·.markCaptured slot))
    build (.refLocal slot)
  | .outer position => build (.refOuter position)
  | .global => build (.refGlobal name)

/-- Declares a local; a name that is taken is reported at `pos`. -/
def declareLocal (name : String) (pos : Position) : LowerM (Option Nat) := do
  match (← get).builder.addLocal? name with
  | some (slot, b) =>
    modify fun s => { s with builder := b }
    return some slot
  | none =>
    report pos (.duplicateLocal name)
    return none

def declareParameter (pos : Position) (name : String) : LowerM Unit := do
  match (← get).builder.addParameter? name with
  | some (_, b) => modify fun s => { s with builder := b }
  | none => report pos (.duplicateLocal name)

/-- Whether code at hand is at the top level of the program. -/
def isRoot : LowerM Bool := do
  let s ← get
  return s.enclosing.isEmpty && s.builder.scopeDepth == 0

/-- Declares the name of a function or a type before its value is lowered, so that the value can
refer to it. -/
def declareBinding (name : String) (pos : Position) : LowerM (Option Nat) := do
  if ← isRoot then return none else declareLocal name pos

/-- Gives a declared name its value. -/
def bindName (name : String) (slot : Option Nat) : LowerM Unit := do
  match slot with
  | some slot => build (.initLocal slot)
  | none => if ← isRoot then build (.storeGlobal name) else return

/-- Starts a function inside the one at hand. -/
def enter (name : Option String) (pos : Position) (params : List String) (variadic : Bool) :
    LowerM Unit := do
  modify fun s => { s with builder := .new name, enclosing := s.builder :: s.enclosing }
  build (.setLine pos.line)
  params.forM (declareParameter pos)
  if variadic then build (modify fun b => { b with variadic := true }) else return

def checkSize (pos : Position) : LowerM Unit := do
  let b := (← get).builder
  if b.oversized then report pos (.tooLarge b.displayName) else return

/-- Finishes the function at hand and returns to the one around it. -/
def leave (pos : Position) : LowerM Prototype := do
  checkSize pos
  modifyGet fun ⟨b, enclosing, ds⟩ =>
    match enclosing with
    | parent :: rest => (b.build, ⟨parent, rest, ds⟩)
    | [] => (b.build, ⟨.new none, [], ds⟩)

/-- The key of a case; `none` for a pattern that is no literal. -/
def matchKey? : Option Node → Option MatchKey
  | none => some .default
  | some n =>
    match n.expr with
    | .null => some .null
    | .bool b => some (.bool b)
    | .int i => some (.int i)
    | .str s => some (.str s)
    | _ => none

/-- The body of a loop; if the loop's value is wanted, the body's value is appended to the list
below it. -/
def loopBody (required : Bool) (body : LowerM Unit) : LowerM Unit := do
  if required then
    build .dup
    body
    build (.invokeMethod "append" 1)
    build .pop
  else
    body

mutual

def node : Node → LowerM Unit
  | ⟨pos, required, e⟩ => do
    build (.setLine pos.line)
    expr pos required e

def expr (pos : Position) (required : Bool) : Expr Node → LowerM Unit
  | .null => whenRequired required .null
  | .bool b => whenRequired required (.bool b)
  | .int i => whenRequired required (.int i)
  | .float d => whenRequired required (.float d)
  | .str s => whenRequired required (.string s)
  | .identifier name => if required then load name else return
  | .this => whenRequired required .this
  | .prefixOp op x => do
    node x
    build (.prefixOp op.symbol)
    discard required
  | .infixOp op l r => do
    node l
    node r
    match op with
    | .equal => build (.eq false)
    | .notEqual => build (.eq true)
    | .operator o => build (.infixOp o.symbol)
    discard required
  | .and l r => do
    node l
    let jump ← build (.and 0)
    node r
    build (.patchHere jump)
    discard required
  | .or l r => do
    node l
    let jump ← build (.or 0)
    node r
    build (.patchHere jump)
    discard required
  | .not x => do
    node x
    build .not
    discard required
  | .scope items => do
    build .startScope
    nodes items
    if items.isEmpty then whenRequired required .null
    build .endScope
  | .varDef bs => do
    bindings pos required bs
    if bs.isEmpty then whenRequired required .null
  | .fnDef name f => do
    let slot ← declareBinding name pos
    let p ← function (some name) pos f
    build (.closure p)
    bindName name slot
    discard required
  | .fn f => do
    let p ← function none pos f
    build (.closure p)
    discard required
  | .typeDef body => do
    let slot ← declareBinding body.name pos
    let t ← typeBody pos body
    build (.makeType t)
    bindName body.name slot
    discard required
  | .assign target value => do
    match target with
    | ⟨_, _, .identifier name⟩ =>
      node value
      store name
    | ⟨_, _, .index t k⟩ =>
      node t
      node k
      node value
      build .storeIndex
    | ⟨_, _, .field t name⟩ =>
      node t
      node value
      build (.storeField name)
    | ⟨_, _, .deref x⟩ =>
      node x
      node value
      build .storeDeref
    | ⟨p, _, _⟩ =>
      report p .invalidTarget
      node value
    discard required
  | .compoundAssign op target value => do
    match target with
    | ⟨_, _, .identifier name⟩ =>
      load name
      node value
      build (.infixOp op.symbol)
      store name
    | ⟨_, _, .index t k⟩ =>
      node t
      node k
      build .dup2
      build .loadIndex
      node value
      build (.infixOp op.symbol)
      build .storeIndex
    | ⟨_, _, .field t name⟩ =>
      node t
      build .dup
      build (.loadField name)
      node value
      build (.infixOp op.symbol)
      build (.storeField name)
    | ⟨_, _, .deref x⟩ =>
      node x
      build .dup
      build .deref
      node value
      build (.infixOp op.symbol)
      build .storeDeref
    | ⟨p, _, _⟩ =>
      report p .invalidTarget
      node value
    discard required
  | .invoke target args => do
    match target with
    | ⟨_, _, .field receiver name⟩ =>
      node receiver
      nodes args
      build (.setLine pos.line)
      build (.invokeMethod name args.length)
    | t =>
      node t
      nodes args
      build (.setLine pos.line)
      build (.invoke args.length)
    discard required
  | .index t k => do
    node t
    node k
    build .loadIndex
    discard required
  | .field t name => do
    node t
    build (.loadField name)
    discard required
  | .ifElse condition pass fail => do
    let skip ←
      match condition with
      | ⟨_, _, .not x⟩ => do
        node x
        build (.jumpTrue 0)
      | c => do
        node c
        build (.jumpFalse 0)
    let height := (← get).builder.height
    node pass
    if fail.isNone && !required then
      build (.patchHere skip)
    else
      let stop ← build (.jump 0)
      build (.patchHere skip)
      build (.setHeight height)
      elseBranch fail
      build (.patchHere stop)
  | .whileElse condition body otherwise => do
    let height := (← get).builder.height
    match otherwise with
    | none =>
      whenRequired required (.list 0)
      let start ← build .position
      node condition
      let exit ← build (.jumpFalse 0)
      loopBody required (node body)
      let _ ← build (.jump start)
      build (.patchHere exit)
    | some other =>
      node condition
      let skip ← build (.jumpFalse 0)
      whenRequired required (.list 0)
      let into ← build (.jump 0)
      let start ← build .position
      node condition
      let exit ← build (.jumpFalse 0)
      build (.patchHere into)
      loopBody required (node body)
      let _ ← build (.jump start)
      build (.patchHere exit)
      let stop ← build (.jump 0)
      build (.patchHere skip)
      build (.setHeight height)
      node other
      build (.patchHere stop)
  | .matchCases scrutinee cases => do
    node scrutinee
    let index ← build (modifyGet (·.reserveTable))
    build (.matchOn index)
    let height := (← get).builder.height
    let (table, ends) ← arms height cases .empty
    let table ←
      if table.contains .default || !required then pure table
      else do
        let table := table.insert .default (← build .position)
        build (.setHeight height)
        build .null
        pure table
    let stop ← build .position
    ends.forM fun jump => build (.patchJump jump stop)
    let table := if table.contains .default then table else table.insert .default stop
    build (modify (·.fillTable index ⟨table⟩))
    build (.setHeight (if required then height + 1 else height))
  | .ref x => do
    match x with
    | ⟨_, _, .identifier name⟩ => refer name
    | ⟨_, _, .index t k⟩ =>
      node t
      node k
      build .refIndex
    | ⟨_, _, .field t name⟩ =>
      node t
      build (.refField name)
    | ⟨p, _, _⟩ =>
      report p .invalidReference
      build .null
    discard required
  | .deref x => do
    node x
    build .deref
    discard required
  | .list items => do
    nodes items
    build (.list items.length)
    discard required
  | .tuple items => do
    nodes items
    build (.tuple items.length)
    discard required
  | .ret value => do
    elseBranch value
    build .ret
    -- What follows is not reached; the height is what the surrounding expression counts on.
    if required then build (.setHeight ((← get).builder.height + 1)) else return

def nodes : List Node → LowerM Unit
  | [] => return
  | n :: ns => do
    node n
    nodes ns

/-- A node, or null in its place. -/
def elseBranch : Option Node → LowerM Unit
  | none => build .null
  | some n => node n

def binding (pos : Position) (keep : Bool) : Binding Node → LowerM Unit
  | ⟨name, value⟩ => do
    let slot ← declareLocal name pos
    node value
    match slot with
    | some slot => build (.initLocal slot)
    | none => pure ()
    discard keep

def bindings (pos : Position) (required : Bool) : List (Binding Node) → LowerM Unit
  | [] => return
  | b :: bs => do
    binding pos (required && bs.isEmpty) b
    bindings pos required bs

/-- One case: its entry in the table and the jump at its end. Cases at fault are reported and left
out. -/
def arm (height : Nat) (table : Table MatchKey Nat) :
    Arm Node → LowerM (Table MatchKey Nat × List Nat)
  | ⟨pos, pattern, body⟩ => do
    match matchKey? pattern with
    | none =>
      report ((pattern.map Node.pos).getD pos) .patternNotLiteral
      return (table, [])
    | some key =>
      if table.contains key then
        report pos (.duplicateCase key.text)
        return (table, [])
      else
        let table := table.insert key (← build .position)
        build (.setHeight height)
        node body
        return (table, [← build (.jump 0)])

def arms (height : Nat) :
    List (Arm Node) → Table MatchKey Nat → LowerM (Table MatchKey Nat × List Nat)
  | [], table => return (table, [])
  | a :: as, table => do
    let (table, first) ← arm height table a
    let (table, more) ← arms height as table
    return (table, first ++ more)

def function (name : Option String) (pos : Position) : Function Node → LowerM Prototype
  | ⟨params, variadic, body⟩ => do
    enter name pos params variadic
    node body
    leave pos

/-- A member of a type: a nested function named after both. -/
def memberFunction (typeName : String) (pos : Position) (name : String) : Function Node → LowerM Nat
  | ⟨params, variadic, body⟩ => do
    enter (some (typeName ++ "." ++ name)) pos params variadic
    node body
    let p ← leave pos
    build (modifyGet (·.addNested p))

def optionalMember (typeName : String) (pos : Position) (name : String) :
    Option (Function Node) → LowerM (Option Nat)
  | none => return none
  | some f => return some (← memberFunction typeName pos name f)

def member (typeName : String) (pos : Position) : Member Node → LowerM (String × Nat)
  | ⟨name, f⟩ => return (name, ← memberFunction typeName pos name f)

def members (typeName : String) (pos : Position) : List (Member Node) → LowerM (List (String × Nat))
  | [] => return []
  | m :: ms => return (← member typeName pos m) :: (← members typeName pos ms)

def typeBody (pos : Position) : TypeBody Node → LowerM TypeInfo
  | ⟨name, ctor, methods, prefixOps, infixOps, invoke⟩ => do
    let ctor ← optionalMember name pos "ctor" ctor
    let invoke ← optionalMember name pos "invoke" invoke
    let methods ← members name pos methods
    let prefixOps ← members name pos prefixOps
    let infixOps ← members name pos infixOps
    return ⟨name, ctor, invoke, methods, prefixOps, infixOps⟩

end

/-- A whole program as the body of the function `script`. -/
def program (items : List Node) : LowerM Prototype := do
  nodes items
  leave ⟨1, 1⟩

def State.start : State :=
  ⟨.new (some "script"), [], []⟩

end Lower

/-- A compiled program with what was reported on the way. -/
structure Lowered where
  prototype : Prototype
  diagnostics : List Diagnostic

/-- Lowers a normalized program. -/
def lower (items : List Node) : Except Inconsistency Lowered :=
  match (Lower.program items).run .start with
  | .ok p s => .ok ⟨p, s.diagnostics⟩
  | .error e _ => .error e

/-- Why a program text gives no code. -/
inductive CompileError where
  | rejected (diagnostics : List Diagnostic)
  | inconsistent (i : Inconsistency)
deriving DecidableEq, Repr

def CompileError.message : CompileError → String
  | rejected ds => s!"Program could not compile: {errorCount ds} error(s)."
  | inconsistent i => i.message

/-- Compiles a program text. Warnings are dropped when there is no error. -/
def compile (source : String) : Except CompileError Prototype :=
  let p := readProgram source
  if !p.isClean then .error (.rejected p.diagnostics)
  else
    match lower p.items with
    | .error i => .error (.inconsistent i)
    | .ok l =>
      let ds := p.diagnostics ++ l.diagnostics
      if errorCount ds = 0 then .ok l.prototype else .error (.rejected ds)

end Refscript
