import Refscript.Syntax.Parse

/-!
# Refscript.Syntax.Normalize

Marks the nodes whose value is wanted and simplifies what is known before running: a condition that
is a literal is replaced by the branch it selects, with a warning, and literal arithmetic is carried
out unless an integer result would not fit. `Simplifications` switches the two simplifications
separately; `normalize` uses both.
-/

namespace Refscript

/-- Which simplifications are made. -/
structure Simplifications where
  collapse : Bool
  fold : Bool
deriving DecidableEq, Repr

/-- A result with the diagnostics noted on the way. -/
structure Noted (α : Type) where
  value : α
  notes : List Diagnostic

instance : Monad Noted where
  pure a := ⟨a, []⟩
  bind x f := ⟨(f x.value).value, x.notes ++ (f x.value).notes⟩

def Noted.note (d : Diagnostic) : Noted Unit :=
  ⟨(), [d]⟩

namespace Normalize

/-- A number literal as a double. -/
def numeric? : Expr Node → Option Double
  | .int i => some (.ofInt i.toInt)
  | .float d => some d
  | _ => none

/-- The result of an operation on integers, unless it has overflowed. -/
def checked (overflows : Bool) (result : Int64) : Option (Expr Node) :=
  if overflows then none else some (.int result)

/-- The result of an operation on literals. Integers whose result leaves their range are left
alone. -/
def foldInfix? (op : InfixSymbol) (left right : Expr Node) : Option (Expr Node) :=
  match left, right with
  | .int a, .int b =>
    match op with
    | .operator .plus => checked (a.toBitVec.saddOverflow b.toBitVec) (a + b)
    | .operator .minus => checked (a.toBitVec.ssubOverflow b.toBitVec) (a - b)
    | .operator .star => checked (a.toBitVec.smulOverflow b.toBitVec) (a * b)
    | _ => none
  | left, right => do
    let a ← numeric? left
    let b ← numeric? right
    match op with
    | .operator .plus => some (.float (a.add b))
    | .operator .minus => some (.float (a.sub b))
    | .operator .star => some (.float (a.mul b))
    | _ => none

def foldPrefix? (op : Operator) (operand : Expr Node) : Option (Expr Node) :=
  match op, operand with
  | .minus, .int i => checked i.toBitVec.negOverflow (-i)
  | .minus, .float d => some (.float d.neg)
  | .plus, .int i => some (.int i)
  | .plus, .float d => some (.float d)
  | .tilde, .int i => some (.int (~~~i))
  | _, _ => none

/-- The literal that an operation on literals stands for. -/
def fold? : Expr Node → Option (Expr Node)
  | .not x => x.literalTruth?.map fun truth => .bool (!truth)
  | .prefixOp op x => foldPrefix? op x.expr
  | .infixOp op l r => foldInfix? op l.expr r.expr
  | _ => none

/-- The branch that a literal condition selects, together with the condition's position and
value. -/
def branch? (pos : Position) : Expr Node → Option (Node × Position × Bool)
  | .ifElse condition pass fail =>
    condition.literalTruth?.map fun truth =>
      (if truth then pass else fail.getD (.make pos .null), condition.pos, truth)
  | _ => none

/-- Simplifies a node whose children are done. What replaces it is wanted as much as it was. -/
def simplify (rules : Simplifications) (n : Node) : Noted Node :=
  match (if rules.collapse then branch? n.pos n.expr else none) with
  | some (chosen, pos, truth) => do
    Noted.note ⟨pos, .constantCondition truth⟩
    return { chosen with required := n.required }
  | none =>
    match (if rules.fold then fold? n.expr else none) with
    | some e => return { n with expr := e }
    | none => return n

mutual

/-- Normalizes a node whose value is wanted if `required`. -/
def node (rules : Simplifications) (required : Bool) : Node → Noted Node
  | ⟨pos, _, e⟩ => do
    let e ← expr rules required e
    simplify rules ⟨pos, required, e⟩

def expr (rules : Simplifications) (required : Bool) : Expr Node → Noted (Expr Node)
  | .null => return .null
  | .bool b => return .bool b
  | .int i => return .int i
  | .float d => return .float d
  | .str s => return .str s
  | .identifier name => return .identifier name
  | .this => return .this
  | .prefixOp op x => return .prefixOp op (← node rules true x)
  | .infixOp op l r => return .infixOp op (← node rules true l) (← node rules true r)
  | .and l r => return .and (← node rules true l) (← node rules true r)
  | .or l r => return .or (← node rules true l) (← node rules true r)
  | .not x => return .not (← node rules true x)
  | .scope items => return .scope (← block rules required items)
  | .varDef bs => return .varDef (← bindings rules bs)
  | .fnDef name f => return .fnDef name (← function rules f)
  | .fn f => return .fn (← function rules f)
  | .typeDef body => return .typeDef (← typeBody rules body)
  | .assign t v => return .assign (← target rules t) (← node rules true v)
  | .compoundAssign op t v => return .compoundAssign op (← target rules t) (← node rules true v)
  | .invoke t args => return .invoke (← node rules true t) (← nodes rules args)
  | .index t k => return .index (← node rules true t) (← node rules true k)
  | .field t name => return .field (← node rules true t) name
  | .ifElse c p f =>
    return .ifElse (← node rules true c) (← node rules required p) (← option rules required f)
  | .whileElse c b o =>
    return .whileElse (← node rules true c) (← node rules required b) (← option rules required o)
  | .matchCases x cases => return .matchCases (← node rules true x) (← arms rules required cases)
  | .ref x => return .ref (← node rules true x)
  | .deref x => return .deref (← node rules true x)
  | .list items => return .list (← nodes rules items)
  | .tuple items => return .tuple (← nodes rules items)
  | .ret x => return .ret (← option rules true x)

/-- An assignment target. Its operands are normalized, but the target itself is never replaced. -/
def target (rules : Simplifications) : Node → Noted Node
  | ⟨pos, _, e⟩ => return ⟨pos, true, ← targetExpr rules e⟩

def targetExpr (rules : Simplifications) : Expr Node → Noted (Expr Node)
  | .index t k => return .index (← node rules true t) (← node rules true k)
  | .field t name => return .field (← node rules true t) name
  | .deref x => return .deref (← node rules true x)
  | e => return e

/-- Nodes whose values are all wanted. -/
def nodes (rules : Simplifications) : List Node → Noted (List Node)
  | [] => return []
  | n :: ns => return (← node rules true n) :: (← nodes rules ns)

/-- The items of a block: only the last one's value may be wanted. -/
def block (rules : Simplifications) (required : Bool) : List Node → Noted (List Node)
  | [] => return []
  | n :: ns => return (← node rules (required && ns.isEmpty) n) :: (← block rules required ns)

def option (rules : Simplifications) (required : Bool) : Option Node → Noted (Option Node)
  | none => return none
  | some n => return some (← node rules required n)

def function (rules : Simplifications) : Function Node → Noted (Function Node)
  | ⟨params, variadic, body⟩ => return ⟨params, variadic, ← node rules true body⟩

def functionOption (rules : Simplifications) :
    Option (Function Node) → Noted (Option (Function Node))
  | none => return none
  | some f => return some (← function rules f)

def member (rules : Simplifications) : Member Node → Noted (Member Node)
  | ⟨name, f⟩ => return ⟨name, ← function rules f⟩

def members (rules : Simplifications) : List (Member Node) → Noted (List (Member Node))
  | [] => return []
  | m :: ms => return (← member rules m) :: (← members rules ms)

def typeBody (rules : Simplifications) : TypeBody Node → Noted (TypeBody Node)
  | ⟨name, ctor, methods, prefixOps, infixOps, invoke⟩ => do
    let ctor ← functionOption rules ctor
    let methods ← members rules methods
    let prefixOps ← members rules prefixOps
    let infixOps ← members rules infixOps
    let invoke ← functionOption rules invoke
    return ⟨name, ctor, methods, prefixOps, infixOps, invoke⟩

def binding (rules : Simplifications) : Binding Node → Noted (Binding Node)
  | ⟨name, value⟩ => return ⟨name, ← node rules true value⟩

def bindings (rules : Simplifications) : List (Binding Node) → Noted (List (Binding Node))
  | [] => return []
  | b :: bs => return (← binding rules b) :: (← bindings rules bs)

def arm (rules : Simplifications) (required : Bool) : Arm Node → Noted (Arm Node)
  | ⟨pos, pattern, body⟩ => return ⟨pos, ← option rules true pattern, ← node rules required body⟩

def arms (rules : Simplifications) (required : Bool) : List (Arm Node) → Noted (List (Arm Node))
  | [] => return []
  | a :: as => return (← arm rules required a) :: (← arms rules required as)

end

/-- Normalizes a program under the given simplifications. The last item's value is the program's
result. -/
def program (rules : Simplifications) (items : List Node) : Noted (List Node) :=
  block rules true items

end Normalize

/-- Normalizes a program. -/
def normalize (items : List Node) : Noted (List Node) :=
  Normalize.program ⟨true, true⟩ items

/-- Normalizes what was read and adds the warnings to what was reported. -/
def Parsed.normalize (p : Parsed) : Parsed :=
  let r := Refscript.normalize p.items
  ⟨r.value, p.diagnostics ++ r.notes⟩

/-- Whether nothing but warnings was reported. -/
def Parsed.isClean (p : Parsed) : Bool :=
  errorCount p.diagnostics == 0

/-- Reads a program and normalizes it, unless reading it found errors. -/
def readProgram (source : String) : Parsed :=
  let p := parse source
  if p.isClean then p.normalize else p

end Refscript
