import Refscript.Syntax.Tree

/-!
# Refscript.Proofs.Syntax.Parts

The parts of an expression that are lowered by themselves, and induction over them. Of an assignment
target or a reference these are the operands only, not the node itself.
-/

namespace Refscript

/-- The operands of a place. -/
def operands : Expr Node → List Node
  | .index t k => [t, k]
  | .field t _ => [t]
  | .deref x => [x]
  | _ => []

/-- What a negation negates. -/
def negated : Expr Node → List Node
  | .not x => [x]
  | _ => []

def TypeBody.bodies (t : TypeBody Node) : List Node :=
  t.ctor.toList.map Function.body ++ t.invoke.toList.map Function.body ++
    (t.methods ++ t.prefixOps ++ t.infixOps).map fun m => m.function.body

def parts : Expr Node → List Node
  | .null | .bool _ | .int _ | .float _ | .str _ | .identifier _ | .this => []
  | .prefixOp _ x | .not x | .field x _ | .deref x => [x]
  | .infixOp _ x y | .and x y | .or x y | .index x y => [x, y]
  | .scope items | .list items | .tuple items => items
  | .varDef bs => bs.map Binding.value
  | .fnDef _ f | .fn f => [f.body]
  | .typeDef body => body.bodies
  | .assign t v | .compoundAssign _ t v => v :: operands t.expr
  | .invoke t args => t :: (operands t.expr ++ args)
  | .ifElse c p f => c :: p :: (negated c.expr ++ f.toList)
  | .whileElse c b o => c :: b :: o.toList
  | .matchCases x cases => x :: cases.map Arm.body
  | .ref x => operands x.expr
  | .ret x => x.toList

/-- The functions of a type, in the order in which they are lowered. -/
def TypeBody.functions (t : TypeBody Node) : List (Function Node) :=
  t.ctor.toList ++ t.invoke.toList ++ t.methods.map Member.function ++
    t.prefixOps.map Member.function ++ t.infixOps.map Member.function

theorem TypeBody.bodies_eq (t : TypeBody Node) : t.bodies = t.functions.map Function.body := by
  simp [bodies, functions, Function.comp_def]

theorem TypeBody.mem_bodies {t : TypeBody Node} {f : Function Node} (hf : f ∈ t.functions) :
    f.body ∈ t.bodies :=
  t.bodies_eq ▸ List.mem_map_of_mem hf

theorem sizeOf_expr_lt (n : Node) : sizeOf n.expr < sizeOf n := by
  obtain ⟨pos, r, e⟩ := n
  simp

theorem sizeOf_operands {e : Expr Node} {n : Node} (hn : n ∈ operands e) : sizeOf n < sizeOf e := by
  cases e with
  | index t k =>
    simp only [operands, List.mem_cons, List.not_mem_nil, or_false] at hn
    rw [Expr.index.sizeOf_spec]
    rcases hn with rfl | rfl <;> omega
  | field t name =>
    cases List.mem_singleton.1 hn
    rw [Expr.field.sizeOf_spec]
    omega
  | deref x =>
    cases List.mem_singleton.1 hn
    simp
  | _ => cases hn

theorem sizeOf_negated {e : Expr Node} {n : Node} (hn : n ∈ negated e) : sizeOf n < sizeOf e := by
  cases e with
  | not x =>
    cases List.mem_singleton.1 hn
    simp
  | _ => cases hn

theorem sizeOf_body_lt (f : Function Node) : sizeOf f.body < sizeOf f := by
  obtain ⟨params, variadic, body⟩ := f
  simp

theorem sizeOf_toList {α : Type} [SizeOf α] {o : Option α} {a : α} (ha : a ∈ o.toList) :
    sizeOf a < sizeOf o := by
  cases o with
  | none => cases ha
  | some b =>
    cases List.mem_singleton.1 ha
    simp

theorem sizeOf_bodies {t : TypeBody Node} {n : Node} (hn : n ∈ t.bodies) : sizeOf n < sizeOf t := by
  obtain ⟨name, ctor, methods, prefixOps, infixOps, invoke⟩ := t
  have hoption : ∀ o : Option (Function Node), n ∈ o.toList.map Function.body →
      sizeOf n < sizeOf o := by
    intro o ho
    obtain ⟨f, hf, rfl⟩ := List.mem_map.1 ho
    have := sizeOf_toList hf
    have := sizeOf_body_lt f
    omega
  have hlist : ∀ ms : List (Member Node), (∃ m ∈ ms, m.function.body = n) →
      sizeOf n < sizeOf ms := by
    rintro ms ⟨⟨name, f⟩, hm, rfl⟩
    have hmem := List.sizeOf_lt_of_mem hm
    have hbody := sizeOf_body_lt f
    rw [Member.mk.sizeOf_spec] at hmem
    show sizeOf f.body < sizeOf ms
    omega
  simp only [TypeBody.bodies, List.map_append, List.mem_append] at hn
  simp only [TypeBody.mk.sizeOf_spec]
  rcases hn with (hn | hn) | (hn | hn) | hn
  · have := hoption ctor hn
    omega
  · have := hoption invoke hn
    omega
  · have := hlist methods (List.mem_map.1 hn)
    omega
  · have := hlist prefixOps (List.mem_map.1 hn)
    omega
  · have := hlist infixOps (List.mem_map.1 hn)
    omega

theorem sizeOf_parts {e : Expr Node} {n : Node} (hn : n ∈ parts e) : sizeOf n < sizeOf e := by
  cases e with
  | null | bool | int | float | str | identifier | this => cases hn
  | not x | deref x =>
    cases List.mem_singleton.1 hn
    simp
  | prefixOp _ x | field x _ =>
    cases List.mem_singleton.1 hn
    simp only [Expr.prefixOp.sizeOf_spec, Expr.field.sizeOf_spec]
    omega
  | infixOp _ x y | and x y | or x y | index x y =>
    simp only [parts, List.mem_cons, List.not_mem_nil, or_false] at hn
    simp only [Expr.infixOp.sizeOf_spec, Expr.and.sizeOf_spec, Expr.or.sizeOf_spec,
      Expr.index.sizeOf_spec]
    rcases hn with rfl | rfl <;> omega
  | scope items | list items | tuple items =>
    have hlt : sizeOf n < sizeOf items := List.sizeOf_lt_of_mem hn
    simp only [Expr.scope.sizeOf_spec, Expr.list.sizeOf_spec, Expr.tuple.sizeOf_spec]
    omega
  | varDef bs =>
    obtain ⟨⟨name, value⟩, hb, rfl⟩ := List.mem_map.1 hn
    have hlt := List.sizeOf_lt_of_mem hb
    simp only [Binding.mk.sizeOf_spec, Expr.varDef.sizeOf_spec] at *
    omega
  | fnDef _ f | fn f =>
    cases List.mem_singleton.1 hn
    have hlt := sizeOf_body_lt f
    simp only [Expr.fnDef.sizeOf_spec, Expr.fn.sizeOf_spec]
    omega
  | typeDef body =>
    have hlt := sizeOf_bodies hn
    rw [Expr.typeDef.sizeOf_spec]
    omega
  | assign t v | compoundAssign _ t v =>
    have hexpr := sizeOf_expr_lt t
    simp only [Expr.assign.sizeOf_spec, Expr.compoundAssign.sizeOf_spec]
    rcases List.mem_cons.1 hn with rfl | hn
    · omega
    · have hlt := sizeOf_operands hn
      omega
  | invoke t args =>
    have hexpr := sizeOf_expr_lt t
    simp only [parts, List.mem_cons, List.mem_append] at hn
    rw [Expr.invoke.sizeOf_spec]
    rcases hn with rfl | hn | hn
    · omega
    · have hlt := sizeOf_operands hn
      omega
    · have hlt := List.sizeOf_lt_of_mem hn
      omega
  | ifElse c p f =>
    have hexpr := sizeOf_expr_lt c
    simp only [parts, List.mem_cons, List.mem_append] at hn
    rw [Expr.ifElse.sizeOf_spec]
    rcases hn with rfl | rfl | hn | hn
    · omega
    · omega
    · have hlt := sizeOf_negated hn
      omega
    · have hlt := sizeOf_toList hn
      omega
  | whileElse c b o =>
    simp only [parts, List.mem_cons] at hn
    rw [Expr.whileElse.sizeOf_spec]
    rcases hn with rfl | rfl | hn
    · omega
    · omega
    · have hlt := sizeOf_toList hn
      omega
  | matchCases x cases =>
    rw [Expr.matchCases.sizeOf_spec]
    rcases List.mem_cons.1 hn with rfl | hn
    · omega
    · obtain ⟨⟨pos, pattern, body⟩, ha, rfl⟩ := List.mem_map.1 hn
      have hlt := List.sizeOf_lt_of_mem ha
      simp only [Arm.mk.sizeOf_spec] at hlt ⊢
      omega
  | ref x =>
    have hexpr := sizeOf_expr_lt x
    have hlt := sizeOf_operands hn
    rw [Expr.ref.sizeOf_spec]
    omega
  | ret x =>
    have hlt := sizeOf_toList hn
    rw [Expr.ret.sizeOf_spec]
    omega

/-- Induction over the parts of nodes. -/
theorem Node.induction_parts {motive : Node → Prop}
    (step : ∀ n : Node, (∀ m ∈ parts n.expr, motive m) → motive n) (n : Node) : motive n := by
  induction h : sizeOf n using Nat.strongRecOn generalizing n with
  | ind k ih =>
    refine step n fun m hm => ih (sizeOf m) ?_ m rfl
    have hparts := sizeOf_parts hm
    have hexpr := sizeOf_expr_lt n
    omega

end Refscript
