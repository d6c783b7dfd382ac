import Refscript.Code.Lower
import Refscript.Proofs.Syntax.Parts
import Refscript.Terminal

/-!
# Refscript.Proofs.Semantics.Evaluator

The meaning of programs by evaluation of the tree: no code, no jumps and no stack. It covers the
programs in which all names are global (`plain`): literals, global names and assignments to them,
operators, `if`, `while` with and without `el`, `match`, `and`, `or`, `not`, blocks, `ret`, lists,
tuples, reading of indices and fields, and calls.

Operators that types may overload and calls are tasks for a machine, which carries each of them out
from start to end. Loops and tasks are given a bound, and the evaluation is exhausted if one of them
exceeds it.
-/

namespace Refscript

/-- Whether a construct has a meaning here, if its parts have. -/
def Expr.covered : Expr Node → Bool
  | .null | .bool _ | .int _ | .float _ | .str _ | .identifier _ => true
  | .prefixOp _ _ | .infixOp _ _ _ | .and _ _ | .or _ _ | .not _ => true
  | .scope _ | .ifElse _ _ _ | .whileElse _ _ _ | .matchCases _ _ | .ret _ => true
  | .invoke _ _ | .index _ _ | .field _ _ | .list _ | .tuple _ => true
  | .assign ⟨_, _, .identifier _⟩ _ | .compoundAssign _ ⟨_, _, .identifier _⟩ _ => true
  | _ => false

/-- Whether all constructs of a node are covered. -/
def Node.plain (n : Node) : Bool :=
  n.expr.covered && (parts n.expr).attach.all fun m => m.1.plain
termination_by sizeOf n
decreasing_by
  have hexpr := sizeOf_expr_lt n
  have hpart := sizeOf_parts m.2
  omega

theorem Node.plain_eq (n : Node) : n.plain = (n.expr.covered && (parts n.expr).all Node.plain) := by
  rw [plain]
  simp

/-- Why an evaluation does not come to its value. -/
inductive Stop where
  /-- The program returns the value. -/
  | ret (v : Value)
  | fault (e : Fault)
  /-- There is no meaning. -/
  | stuck
  /-- A bound was exceeded. -/
  | exhausted

/-- A fault ends an evaluation, unless it leaves no way to go on. -/
def Stop.ofFault : Fault → Stop
  | .capacityOverflow => .stuck
  | e => .fault e

/-- Evaluations change a store and a world. -/
abbrev Eval (ω : Type) := EStateM Stop (Store × ω)

/-- What a machine's run has come to. -/
def Outcome.result {ω : Type} (o : Outcome) (w : ω) : EStateM.Result Stop (Store × ω) Value :=
  match o with
  | returned v m => .ok v (m.store, w)
  | failed e m => .error (.fault e.fault) (m.store, w)
  | stuck m => .error .stuck (m.store, w)
  | running m | waiting _ m => .error .exhausted (m.store, w)

/-- What evaluations depend on. -/
structure Evaluator (ω : Type) where
  terminal : Terminal (StateM ω)
  host : Host
  /-- The number of calls in progress, the program's own among them. -/
  depth : Nat
  limit : Nat
  /-- The bound on the turns of each loop and on the rounds of each task. -/
  fuel : Nat

namespace Evaluator

variable {ω : Type}

section

variable (E : Evaluator ω)

def act {α : Type} (x : Action α) : Eval ω α := fun (s, w) =>
  match x s with
  | .ok a s => .ok a (s, w)
  | .error e s => .error (.ofFault e) (s, w)

/-- Has a machine carry out a task. -/
def task (start : Machine → Outcome) : Eval ω Value := fun (s, w) =>
  let (o, w) :=
    (Machine.drive E.terminal E.host false E.fuel (start ⟨s, [], none, E.depth, E.limit⟩)).run w
  o.result w

end

/-- The plain value that a value stands for. -/
def follow (v : Value) : Eval ω Value :=
  act (Action.reading (·.deref v))

/-- Whether a value counts as true. -/
def holds (v : Value) : Eval ω Bool :=
  return (← follow v).truth

/-- Compares. As in all operations here, references are followed in the last operand first. -/
def comparing (left right : Value) : Action Bool := do
  let right ← Action.reading (·.deref right)
  let left ← Action.reading (·.deref left)
  Action.look (·.equal left right)

def readingIndex (target key : Value) : Action Value := do
  let key ← Action.reading (·.deref key)
  let target ← Action.reading (·.deref target)
  Action.reading (·.readIndex target key)

def readingField (target : Value) (name : String) : Action Value := do
  let target ← Action.reading (·.deref target)
  Action.reading (·.readField target name)

/-- Does `body` as long as `test` holds. -/
def repeating (test : Eval ω Bool) (body : Eval ω Unit) : Nat → Eval ω Unit
  | 0 => throw .exhausted
  | n + 1 => do
    if ← test then
      body
      repeating test body n

/-- The list for the values of a loop's body, if they are wanted. -/
def newList? (required : Bool) : Eval ω (Option ListId) :=
  if required then some <$> act (Action.adding (·.addList #[])) else return none

def collect (list : Option ListId) (v : Value) : Eval ω Unit :=
  match list with
  | some id => act (Action.changing (·.modifyList id (·.push v)))
  | none => return

def collected (list : Option ListId) : Value :=
  match list with
  | some id => .list id
  | none => .null

variable (E : Evaluator ω)

mutual

def node : Node → Eval ω Value
  | ⟨_, required, e⟩ => expr required e

def expr (required : Bool) : Expr Node → Eval ω Value
  | .null => return .null
  | .bool b => return .bool b
  | .int i => return .int i
  | .float d => return .float d
  | .str s => return .str s
  | .identifier name => act (Action.look (·.load name))
  | .prefixOp op x => do
    let a ← node x
    E.task (·.applyPrefix op.symbol a)
  | .infixOp op l r => do
    let a ← node l
    let b ← node r
    match op with
    | .equal => return .bool (← act (comparing a b))
    | .notEqual => return .bool !(← act (comparing a b))
    | .operator o => E.task (·.applyInfix o.symbol a b)
  | .and l r => do
    let a ← node l
    if ← holds a then node r else return a
  | .or l r => do
    let a ← node l
    if ← holds a then return a else node r
  | .not x => return .bool !(← holds (← node x))
  | .scope items => block items
  | .assign ⟨_, _, .identifier name⟩ value => do
    let v ← node value
    act (Store.assign (.global name) v)
    return v
  | .compoundAssign op ⟨_, _, .identifier name⟩ value => do
    let a ← act (Action.look (·.load name))
    let b ← node value
    let v ← E.task (·.applyInfix op.symbol a b)
    act (Store.assign (.global name) v)
    return v
  | .invoke ⟨_, _, .field receiver name⟩ args => do
    let a ← node receiver
    let vs ← nodes args
    E.task (·.callMethod a name vs)
  | .invoke target args => do
    let f ← node target
    let vs ← nodes args
    E.task (·.call ⟨f, none, vs, none⟩)
  | .index t k => do
    let a ← node t
    let b ← node k
    act (readingIndex a b)
  | .field t name => do
    let a ← node t
    act (readingField a name)
  | .ifElse condition pass fail => do
    if ← holds (← node condition) then node pass else branch fail
  | .whileElse condition body none => do
    let list ← newList? required
    repeating (do holds (← node condition)) (do collect list (← node body)) E.fuel
    return collected list
  | .whileElse condition body (some otherwise) => do
    if ← holds (← node condition) then
      let list ← newList? required
      collect list (← node body)
      repeating (do holds (← node condition)) (do collect list (← node body)) E.fuel
      return collected list
    else node otherwise
  | .matchCases scrutinee cases => do
    let v ← follow (← node scrutinee)
    match ((MatchKey.of? v).bind (arm cases)).or (arm cases .default) with
    | some body => body
    | none => return .null
  | .list items => do
    let vs ← nodes items
    act (Action.adding (·.newList vs.toArray))
  | .tuple items => return .tuple (← nodes items)
  | .ret value => do throw (.ret (← branch value))
  | _ => throw .stuck

/-- The values of all nodes, from the first to the last. -/
def nodes : List Node → Eval ω (List Value)
  | [] => return []
  | n :: ns => return (← node n) :: (← nodes ns)

/-- The value of the last of some nodes. -/
def block : List Node → Eval ω Value
  | [] => return .null
  | [n] => node n
  | n :: m :: ns => do
    let _ ← node n
    block (m :: ns)

def branch : Option Node → Eval ω Value
  | none => return .null
  | some n => node n

/-- The body of the first case with the key. -/
def arm : List (Arm Node) → MatchKey → Option (Eval ω Value)
  | [], _ => none
  | ⟨_, pattern, body⟩ :: cases, key =>
    if Lower.matchKey? pattern = some key then some (node body) else arm cases key

end

end Evaluator

/-- The end of a program: a value that it returns is its value. -/
def Eval.returning {ω : Type} (x : Eval ω Value) : Eval ω Value := fun s =>
  match x s with
  | .error (.ret v) s => .ok v s
  | r => r

/-- Evaluates a program on an idle machine. As a call of its code `p` would, it leaves a function
value and the slots of the call in the store, and it may exceed the number of calls in progress or
ask for too large a call. -/
def Machine.evaluate {ω : Type} (m : Machine) (t : Terminal (StateM ω)) (host : Host) (fuel : Nat)
    (p : Prototype) (items : List Node) : ω → EStateM.Result Stop (Store × ω) Value := fun w =>
  let s := (m.store.addClosure ⟨p, #[]⟩).2
  if m.limit ≤ m.depth then .error (.fault (.callDepthExceeded m.limit)) (s, w)
  else if !p.startable then .error .stuck (s, w)
  else
    let s := (s.addActivation (Array.replicate p.slots .null)).2
    (Evaluator.block ⟨t, host, m.depth + 1, m.limit, fuel⟩ items).returning (s, w)

end Refscript
