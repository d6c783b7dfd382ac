import Refscript.Proofs.Syntax.Marking

/-!
# Refscript.Proofs.Syntax.Settled

A second pass of normalization does nothing: what the first one made of a program is left as it is,
with all its marks, and no warning is given again (`normalize_settled`).

The one place where this is not a matter of the parts alone is an `if` that was replaced by a
branch. The branch was normalized as a part of the `if`, and it is settled because it was marked
there as the whole is.
-/

namespace Refscript

namespace Noted

variable {α β γ δ : Type} {x : Noted α} {y : Noted β} {z : Noted γ} {a : α} {b : β} {c : γ}

theorem bind_eq_pure {f : α → Noted β} (h : x >>= f = pure b) :
    x = pure x.value ∧ f x.value = pure b := by
  obtain ⟨hvalue, hnotes⟩ := Noted.mk.inj h
  obtain ⟨hx, hf⟩ := List.append_eq_nil_iff.1 hnotes
  constructor
  · obtain ⟨value, notes⟩ := x
    cases hx
    rfl
  · exact congr (congrArg Noted.mk hvalue) hf

theorem map_pure₁ (f : α → β) (hx : x = pure a) : (do return f (← x)) = pure (f a) := by
  rw [hx]
  rfl

theorem map_pure₂ (f : α → β → γ) (hx : x = pure a) (hy : y = pure b) :
    (do return f (← x) (← y)) = pure (f a b) := by
  rw [hx, hy]
  rfl

theorem map_pure₃ (f : α → β → γ → δ) (hx : x = pure a) (hy : y = pure b) (hz : z = pure c) :
    (do return f (← x) (← y) (← z)) = pure (f a b c) := by
  rw [hx, hy, hz]
  rfl

end Noted

namespace Normalize

open Noted

variable (rules : Simplifications)

section

variable {rules} {r : Bool} {pos : Position} {e : Expr Node}

theorem settled_whole (he : expr rules r e = pure e)
    (h : simplify rules ⟨pos, r, e⟩ = pure ⟨pos, r, e⟩) :
    node rules r ⟨pos, r, e⟩ = pure ⟨pos, r, e⟩ := by
  rw [node, he]
  exact h

theorem simplify_of_none (hbranch : branch? pos e = none) (hfold : fold? e = none) :
    simplify rules ⟨pos, r, e⟩ = pure ⟨pos, r, e⟩ := by
  simp only [simplify, hbranch, hfold, ite_self]

theorem settled_required {n : Node} (h : node rules r n = pure n) :
    { n with required := r } = n := by
  have hmarks := Marking.marks_node rules r n
  rw [h] at hmarks
  exact hmarks.with_required

theorem settled_branch {truth : Bool} {cpos : Position} {n : Node} (he : expr rules r e = pure e)
    (h : branch? pos e = some (n, cpos, truth)) :
    node rules r { n with required := r } = pure { n with required := r } := by
  unfold branch? at h
  split at h
  · rename_i c p f
    obtain ⟨t, -, ht⟩ := Option.map_eq_some_iff.1 h
    cases ht
    obtain ⟨-, he⟩ := bind_eq_pure he
    obtain ⟨hp, he⟩ := bind_eq_pure he
    obtain ⟨hf, he⟩ := bind_eq_pure he
    obtain ⟨-, hp', hf'⟩ := Expr.ifElse.inj (congrArg Noted.value he)
    rw [hp'] at hp
    rw [hf'] at hf
    cases truth with
    | true =>
      rw [if_pos rfl, settled_required hp]
      exact hp
    | false =>
      rw [if_neg Bool.false_ne_true]
      cases f with
      | none => exact settled_whole rfl (simplify_of_none rfl rfl)
      | some n =>
        obtain ⟨hn, hn'⟩ := bind_eq_pure hf
        rw [Option.some.inj (congrArg Noted.value hn')] at hn
        rw [Option.getD_some, settled_required hn]
        exact hn
  · cases h

theorem settled_fold {e' : Expr Node} (h : fold? e = some e') :
    node rules r ⟨pos, r, e'⟩ = pure ⟨pos, r, e'⟩ := by
  rcases Marking.fold?_eq_some h with ⟨b, rfl⟩ | ⟨i, rfl⟩ | ⟨d, rfl⟩ <;>
    exact settled_whole rfl (simplify_of_none rfl rfl)

theorem settled_simplify (he : expr rules r e = pure e) :
    node rules r (simplify rules ⟨pos, r, e⟩).value = pure (simplify rules ⟨pos, r, e⟩).value := by
  cases hbranch : (if rules.collapse then branch? pos e else none) with
  | some chosen =>
    obtain ⟨n, cpos, truth⟩ := chosen
    have hvalue : (simplify rules ⟨pos, r, e⟩).value = { n with required := r } := by
      simp only [simplify, hbranch]
      rfl
    rw [hvalue]
    split at hbranch
    · exact settled_branch he hbranch
    · cases hbranch
  | none =>
    cases hfold : (if rules.fold then fold? e else none) with
    | some e' =>
      have hvalue : (simplify rules ⟨pos, r, e⟩).value = ⟨pos, r, e'⟩ := by
        simp only [simplify, hbranch, hfold]
        rfl
      rw [hvalue]
      split at hfold
      · exact settled_fold hfold
      · cases hfold
    | none =>
      have hsame : simplify rules ⟨pos, r, e⟩ = pure ⟨pos, r, e⟩ := by
        simp only [simplify, hbranch, hfold]
      rw [hsame]
      exact settled_whole he hsame

end

theorem typeBody_of_pure {name : String} {ctor invoke : Option (Function Node)}
    {methods prefixOps infixOps : List (Member Node)}
    (hctor : functionOption rules ctor = pure ctor)
    (hmethods : members rules methods = pure methods)
    (hunary : members rules prefixOps = pure prefixOps)
    (hbinary : members rules infixOps = pure infixOps)
    (hinvoke : functionOption rules invoke = pure invoke) :
    typeBody rules ⟨name, ctor, methods, prefixOps, infixOps, invoke⟩ =
      pure ⟨name, ctor, methods, prefixOps, infixOps, invoke⟩ := by
  rw [typeBody, hctor, hmethods, hunary, hbinary, hinvoke]
  rfl

mutual

theorem settled_node (r : Bool) :
    ∀ n, node rules r (node rules r n).value = pure (node rules r n).value
  | ⟨_, _, e⟩ => settled_simplify (settled_expr r e)

theorem settled_expr (r : Bool) :
    ∀ e, expr rules r (expr rules r e).value = pure (expr rules r e).value
  | .null | .bool _ | .int _ | .float _ | .str _ | .identifier _ | .this => rfl
  | .prefixOp op x => map_pure₁ (Expr.prefixOp op) (settled_node true x)
  | .infixOp op x y => map_pure₂ (Expr.infixOp op) (settled_node true x) (settled_node true y)
  | .and x y => map_pure₂ Expr.and (settled_node true x) (settled_node true y)
  | .or x y => map_pure₂ Expr.or (settled_node true x) (settled_node true y)
  | .not x => map_pure₁ Expr.not (settled_node true x)
  | .scope items => map_pure₁ Expr.scope (settled_block r items)
  | .varDef bs => map_pure₁ Expr.varDef (settled_bindings bs)
  | .fnDef name f => map_pure₁ (Expr.fnDef name) (settled_function f)
  | .fn f => map_pure₁ Expr.fn (settled_function f)
  | .typeDef body => map_pure₁ Expr.typeDef (settled_typeBody body)
  | .assign t v => map_pure₂ Expr.assign (settled_target t) (settled_node true v)
  | .compoundAssign op t v =>
    map_pure₂ (Expr.compoundAssign op) (settled_target t) (settled_node true v)
  | .invoke t args => map_pure₂ Expr.invoke (settled_node true t) (settled_nodes args)
  | .index x y => map_pure₂ Expr.index (settled_node true x) (settled_node true y)
  | .field x name => map_pure₁ (Expr.field · name) (settled_node true x)
  | .ifElse c p f =>
    map_pure₃ Expr.ifElse (settled_node true c) (settled_node r p) (settled_option r f)
  | .whileElse c b o =>
    map_pure₃ Expr.whileElse (settled_node true c) (settled_node r b) (settled_option r o)
  | .matchCases x cases => map_pure₂ Expr.matchCases (settled_node true x) (settled_arms r cases)
  | .ref x => map_pure₁ Expr.ref (settled_node true x)
  | .deref x => map_pure₁ Expr.deref (settled_node true x)
  | .list items => map_pure₁ Expr.list (settled_nodes items)
  | .tuple items => map_pure₁ Expr.tuple (settled_nodes items)
  | .ret x => map_pure₁ Expr.ret (settled_option true x)

theorem settled_target : ∀ n, target rules (target rules n).value = pure (target rules n).value
  | ⟨pos, _, e⟩ => map_pure₁ (Node.mk pos true) (settled_targetExpr e)

theorem settled_targetExpr (e : Expr Node) :
    targetExpr rules (targetExpr rules e).value = pure (targetExpr rules e).value := by
  cases e with
  | index t k => exact map_pure₂ Expr.index (settled_node true t) (settled_node true k)
  | field t name => exact map_pure₁ (Expr.field · name) (settled_node true t)
  | deref x => exact map_pure₁ Expr.deref (settled_node true x)
  | _ => rfl

theorem settled_nodes : ∀ ns, nodes rules (nodes rules ns).value = pure (nodes rules ns).value
  | [] => rfl
  | n :: ns => map_pure₂ List.cons (settled_node true n) (settled_nodes ns)

theorem settled_block (r : Bool) :
    ∀ ns, block rules r (block rules r ns).value = pure (block rules r ns).value
  | [] => rfl
  | n :: ns => by
    -- the last item is in its place, so the items are marked as before
    have hnode := settled_node (r && ns.isEmpty) n
    have hempty := Marking.isEmpty_block rules r ns
    refine map_pure₂ List.cons ?_ (settled_block r ns)
    rw [hempty]
    exact hnode

theorem settled_option (r : Bool) :
    ∀ o, option rules r (option rules r o).value = pure (option rules r o).value
  | none => rfl
  | some n => map_pure₁ some (settled_node r n)

theorem settled_function :
    ∀ f, function rules (function rules f).value = pure (function rules f).value
  | ⟨params, variadic, body⟩ => map_pure₁ (Function.mk params variadic) (settled_node true body)

theorem settled_functionOption :
    ∀ o, functionOption rules (functionOption rules o).value = pure (functionOption rules o).value
  | none => rfl
  | some f => map_pure₁ some (settled_function f)

theorem settled_member : ∀ m, member rules (member rules m).value = pure (member rules m).value
  | ⟨name, f⟩ => map_pure₁ (Member.mk name) (settled_function f)

theorem settled_members :
    ∀ ms, members rules (members rules ms).value = pure (members rules ms).value
  | [] => rfl
  | m :: ms => map_pure₂ List.cons (settled_member m) (settled_members ms)

theorem settled_typeBody :
    ∀ t, typeBody rules (typeBody rules t).value = pure (typeBody rules t).value
  | ⟨_, ctor, methods, prefixOps, infixOps, invoke⟩ =>
    typeBody_of_pure rules (settled_functionOption ctor) (settled_members methods)
      (settled_members prefixOps) (settled_members infixOps) (settled_functionOption invoke)

theorem settled_binding : ∀ b, binding rules (binding rules b).value = pure (binding rules b).value
  | ⟨name, value⟩ => map_pure₁ (Binding.mk name) (settled_node true value)

theorem settled_bindings :
    ∀ bs, bindings rules (bindings rules bs).value = pure (bindings rules bs).value
  | [] => rfl
  | b :: bs => map_pure₂ List.cons (settled_binding b) (settled_bindings bs)

theorem settled_arm (r : Bool) : ∀ a, arm rules r (arm rules r a).value = pure (arm rules r a).value
  | ⟨pos, pattern, body⟩ =>
    map_pure₂ (Arm.mk pos) (settled_option true pattern) (settled_node r body)

theorem settled_arms (r : Bool) :
    ∀ as, arms rules r (arms rules r as).value = pure (arms rules r as).value
  | [] => rfl
  | a :: as => map_pure₂ List.cons (settled_arm r a) (settled_arms r as)

end

end Normalize

/-- Normalizing what is normalized already changes no node and no mark, and it warns of nothing. -/
theorem normalize_settled (items : List Node) :
    (normalize (normalize items).value).value = (normalize items).value ∧
      (normalize (normalize items).value).notes = [] := by
  have h : normalize (normalize items).value = pure (normalize items).value :=
    Normalize.settled_block ⟨true, true⟩ true items
  rw [h]
  exact ⟨rfl, rfl⟩

end Refscript
