import Refscript.Syntax.Tree

/-!
# Refscript.Proofs.Syntax.Form

Trees without their positions. `Node.form` sets every position in a tree to the same one and keeps
all else, so two trees are alike except for where they stand if `Node.form` makes them equal.
-/

namespace Refscript

mutual

/-- The tree with all positions wiped out. -/
def Node.form : Node → Node
  | ⟨_, required, e⟩ => ⟨⟨0, 0⟩, required, formExpr e⟩

@[simp] def formExpr : Expr Node → Expr Node
  | .null => .null
  | .bool b => .bool b
  | .int i => .int i
  | .float d => .float d
  | .str s => .str s
  | .identifier name => .identifier name
  | .this => .this
  | .prefixOp op x => .prefixOp op x.form
  | .infixOp op x y => .infixOp op x.form y.form
  | .and x y => .and x.form y.form
  | .or x y => .or x.form y.form
  | .not x => .not x.form
  | .scope items => .scope (formAll items)
  | .varDef bs => .varDef (formBindings bs)
  | .fnDef name f => .fnDef name (formFunction f)
  | .fn f => .fn (formFunction f)
  | .typeDef body => .typeDef (formType body)
  | .assign target value => .assign target.form value.form
  | .compoundAssign op target value => .compoundAssign op target.form value.form
  | .invoke target args => .invoke target.form (formAll args)
  | .index target key => .index target.form key.form
  | .field target name => .field target.form name
  | .ifElse c pass fail => .ifElse c.form pass.form (formOption fail)
  | .whileElse c body otherwise => .whileElse c.form body.form (formOption otherwise)
  | .matchCases x arms => .matchCases x.form (formArms arms)
  | .ref x => .ref x.form
  | .deref x => .deref x.form
  | .list items => .list (formAll items)
  | .tuple items => .tuple (formAll items)
  | .ret x => .ret (formOption x)

@[simp] def formAll : List Node → List Node
  | [] => []
  | n :: ns => n.form :: formAll ns

@[simp] def formOption : Option Node → Option Node
  | none => none
  | some n => some n.form

@[simp] def formFunction : Function Node → Function Node
  | ⟨params, variadic, body⟩ => ⟨params, variadic, body.form⟩

@[simp] def formFunctionOption : Option (Function Node) → Option (Function Node)
  | none => none
  | some f => some (formFunction f)

@[simp] def formMember : Member Node → Member Node
  | ⟨name, f⟩ => ⟨name, formFunction f⟩

@[simp] def formMembers : List (Member Node) → List (Member Node)
  | [] => []
  | m :: ms => formMember m :: formMembers ms

@[simp] def formType : TypeBody Node → TypeBody Node
  | ⟨name, ctor, methods, prefixOps, infixOps, invoke⟩ =>
    ⟨name, formFunctionOption ctor, formMembers methods, formMembers prefixOps,
      formMembers infixOps, formFunctionOption invoke⟩

@[simp] def formBinding : Binding Node → Binding Node
  | ⟨name, value⟩ => ⟨name, value.form⟩

@[simp] def formBindings : List (Binding Node) → List (Binding Node)
  | [] => []
  | b :: bs => formBinding b :: formBindings bs

@[simp] def formArm : Arm Node → Arm Node
  | ⟨_, pattern, body⟩ => ⟨⟨0, 0⟩, formOption pattern, body.form⟩

@[simp] def formArms : List (Arm Node) → List (Arm Node)
  | [] => []
  | a :: arms => formArm a :: formArms arms

end

@[simp] theorem form_make (pos : Position) (e : Expr Node) :
    (Node.make pos e).form = .make ⟨0, 0⟩ (formExpr e) := rfl

theorem formAll_append (ms ns : List Node) : formAll (ms ++ ns) = formAll ms ++ formAll ns := by
  induction ms with
  | nil => rfl
  | cons m ms ih => simp only [List.cons_append, formAll, ih]

theorem formAll_toList (n : Option Node) : formAll n.toList = (formOption n).toList := by
  cases n <;> rfl

theorem formMembers_append (ms ns : List (Member Node)) :
    formMembers (ms ++ ns) = formMembers ms ++ formMembers ns := by
  induction ms with
  | nil => rfl
  | cons m ms ih => simp only [List.cons_append, formMembers, ih]

theorem isSome_formFunctionOption (f : Option (Function Node)) :
    (formFunctionOption f).isSome = f.isSome := by
  cases f <;> rfl

end Refscript
