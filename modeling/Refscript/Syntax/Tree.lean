import Refscript.Number.Basic
import Refscript.Source.Diagnostic
import Refscript.Source.Operator

/-!
# Refscript.Syntax.Tree

The tree of a program. Every construct is an expression. `Expr ν` is the shape of one expression
over children of type `ν`, and a `Node` ties the knot and adds a position and a flag that says
whether the value is wanted.
-/

namespace Refscript

structure Function (ν : Type) where
  params : List String
  variadic : Bool
  body : ν

/-- A named function of a type: a method, or an overloaded operator under its symbol. -/
structure Member (ν : Type) where
  name : String
  function : Function ν

structure TypeBody (ν : Type) where
  name : String
  ctor : Option (Function ν)
  methods : List (Member ν)
  prefixOps : List (Member ν)
  infixOps : List (Member ν)
  invoke : Option (Function ν)

structure Binding (ν : Type) where
  name : String
  value : ν

/-- One case of a `match`; without a pattern it is the default. -/
structure Arm (ν : Type) where
  pos : Position
  pattern : Option ν
  body : ν

inductive Expr (ν : Type) where
  | null
  | bool (b : Bool)
  | int (i : Int64)
  | float (d : Double)
  | str (s : String)
  | identifier (name : String)
  | this
  | prefixOp (op : Operator) (operand : ν)
  | infixOp (op : InfixSymbol) (left right : ν)
  | and (left right : ν)
  | or (left right : ν)
  | not (operand : ν)
  | scope (items : List ν)
  | varDef (bindings : List (Binding ν))
  | fnDef (name : String) (function : Function ν)
  | fn (function : Function ν)
  | typeDef (body : TypeBody ν)
  | assign (target value : ν)
  /-- `target op= value`; the operands of the target are evaluated once. -/
  | compoundAssign (op : Operator) (target value : ν)
  | invoke (target : ν) (args : List ν)
  | index (target key : ν)
  | field (target : ν) (name : String)
  | ifElse (condition pass : ν) (fail : Option ν)
  | whileElse (condition body : ν) (otherwise : Option ν)
  | matchCases (scrutinee : ν) (arms : List (Arm ν))
  | ref (operand : ν)
  | deref (operand : ν)
  | list (items : List ν)
  | tuple (items : List ν)
  | ret (value : Option ν)

/-- An expression at a position. `required` says whether its value is left for the surrounding
expression. -/
structure Node where
  pos : Position
  required : Bool
  expr : Expr Node

namespace Node

/-- A node as the grammar builds it, before anyone has asked for its value. -/
def make (pos : Position) (expr : Expr Node) : Node :=
  ⟨pos, false, expr⟩

/-- Whether a literal counts as true; `none` for anything that is not a literal. -/
def literalTruth? (n : Node) : Option Bool :=
  match n.expr with
  | .null => some false
  | .bool b => some b
  | .int i => some (i != 0)
  | .float d => some (!d.isZero)
  | .str s => some (!s.isEmpty)
  | _ => none

end Node
end Refscript
