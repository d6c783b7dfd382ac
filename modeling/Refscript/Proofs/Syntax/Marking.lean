import Refscript.Proofs.Syntax.Parts
import Refscript.Syntax.Normalize

/-!
# Refscript.Proofs.Syntax.Marking

Which values are wanted. `Marks r n` says that `n` is marked as wanted exactly if `r`, and that the
marks below it follow from its own: operands are wanted, branches are wanted as much as the whole,
and of a block only the last item may be. Parts that are never evaluated (patterns, the nodes of
assignment targets themselves) are left out.

`marks_normalize`: normalizing any program marks it, with the last item wanted.
-/

namespace Refscript
namespace Marking

variable {r : Bool} {e : Expr Node} {n : Node}

mutual

def Marks (r : Bool) : Node → Prop
  | ⟨_, r', e⟩ => r' = r ∧ MarksExpr r e

def MarksExpr (r : Bool) : Expr Node → Prop
  | .null | .bool _ | .int _ | .float _ | .str _ | .identifier _ | .this => True
  | .prefixOp _ x | .not x | .field x _ | .ref x | .deref x => Marks true x
  | .infixOp _ x y | .and x y | .or x y | .index x y => Marks true x ∧ Marks true y
  | .scope items => MarksBlock r items
  | .varDef bs => MarksBindings bs
  | .fnDef _ f | .fn f => MarksFunction f
  | .typeDef body => MarksType body
  | .assign t v | .compoundAssign _ t v => MarksTarget t ∧ Marks true v
  | .invoke t args => Marks true t ∧ MarksAll args
  | .ifElse c p f => Marks true c ∧ Marks r p ∧ MarksOption r f
  | .whileElse c b o => Marks true c ∧ Marks r b ∧ MarksOption r o
  | .matchCases x cases => Marks true x ∧ MarksArms r cases
  | .list items | .tuple items => MarksAll items
  | .ret x => MarksOption true x

/-- The operands of an assignment target. -/
def MarksTarget : Node → Prop
  | ⟨_, _, e⟩ => MarksTargetExpr e

def MarksTargetExpr : Expr Node → Prop
  | .index t k => Marks true t ∧ Marks true k
  | .field t _ => Marks true t
  | .deref x => Marks true x
  | _ => True

def MarksAll : List Node → Prop
  | [] => True
  | n :: ns => Marks true n ∧ MarksAll ns

def MarksBlock (r : Bool) : List Node → Prop
  | [] => True
  | n :: ns => Marks (r && ns.isEmpty) n ∧ MarksBlock r ns

def MarksOption (r : Bool) : Option Node → Prop
  | none => True
  | some n => Marks r n

def MarksFunction : Function Node → Prop
  | ⟨_, _, body⟩ => Marks true body

def MarksFunctionOption : Option (Function Node) → Prop
  | none => True
  | some f => MarksFunction f

def MarksMember : Member Node → Prop
  | ⟨_, f⟩ => MarksFunction f

def MarksMembers : List (Member Node) → Prop
  | [] => True
  | m :: ms => MarksMember m ∧ MarksMembers ms

def MarksType : TypeBody Node → Prop
  | ⟨_, ctor, methods, prefixOps, infixOps, invoke⟩ =>
    MarksFunctionOption ctor ∧ MarksFunctionOption invoke ∧ MarksMembers methods ∧
      MarksMembers prefixOps ∧ MarksMembers infixOps

def MarksBinding : Binding Node → Prop
  | ⟨_, value⟩ => Marks true value

def MarksBindings : List (Binding Node) → Prop
  | [] => True
  | b :: bs => MarksBinding b ∧ MarksBindings bs

def MarksArm (r : Bool) : Arm Node → Prop
  | ⟨_, _, body⟩ => Marks r body

def MarksArms (r : Bool) : List (Arm Node) → Prop
  | [] => True
  | a :: as => MarksArm r a ∧ MarksArms r as

end

theorem MarksAll.of_mem {ns : List Node} (h : MarksAll ns) : ∀ n ∈ ns, Marks true n := by
  induction ns with
  | nil => exact fun _ hn => (List.not_mem_nil hn).elim
  | cons n ns ih => exact List.forall_mem_cons.2 ⟨h.1, ih h.2⟩

theorem MarksArms.of_mem {as : List (Arm Node)} (h : MarksArms r as) :
    ∀ a ∈ as, Marks r a.body := by
  induction as with
  | nil => exact fun _ ha => (List.not_mem_nil ha).elim
  | cons a as ih =>
    obtain ⟨_, _, _⟩ := a
    exact List.forall_mem_cons.2 ⟨h.1, ih h.2⟩

theorem MarksBindings.of_mem {bs : List (Binding Node)} (h : MarksBindings bs) :
    ∀ b ∈ bs, Marks true b.value := by
  induction bs with
  | nil => exact fun _ hb => (List.not_mem_nil hb).elim
  | cons b bs ih =>
    obtain ⟨_, _⟩ := b
    exact List.forall_mem_cons.2 ⟨h.1, ih h.2⟩

theorem MarksMembers.of_mem {ms : List (Member Node)} (h : MarksMembers ms) :
    ∀ m ∈ ms, Marks true m.function.body := by
  induction ms with
  | nil => exact fun _ hm => (List.not_mem_nil hm).elim
  | cons m ms ih =>
    obtain ⟨_, _, _, _⟩ := m
    exact List.forall_mem_cons.2 ⟨h.1, ih h.2⟩

theorem MarksFunctionOption.body {f : Function Node} (h : MarksFunctionOption (some f)) :
    Marks true f.body := by
  obtain ⟨_, _, _⟩ := f
  exact h

theorem MarksType.bodies {t : TypeBody Node} (h : MarksType t) : ∀ n ∈ t.bodies, Marks true n := by
  obtain ⟨name, ctor, methods, prefixOps, infixOps, invoke⟩ := t
  obtain ⟨hctor, hinvoke, hmethods, hunary, hbinary⟩ := h
  have hoption : ∀ {o : Option (Function Node)}, MarksFunctionOption o →
      ∀ n ∈ o.toList.map Function.body, Marks true n := by
    intro o ho n hn
    cases o with
    | none => cases hn
    | some f =>
      cases List.mem_singleton.1 hn
      exact ho.body
  intro n hn
  simp only [TypeBody.bodies, List.map_append, List.mem_append, List.mem_map] at hn
  rcases hn with (hn | hn) | (⟨m, hm, rfl⟩ | ⟨m, hm, rfl⟩) | ⟨m, hm, rfl⟩
  · exact hoption hctor n (List.mem_map.2 hn)
  · exact hoption hinvoke n (List.mem_map.2 hn)
  · exact hmethods.of_mem m hm
  · exact hunary.of_mem m hm
  · exact hbinary.of_mem m hm

theorem MarksTarget.operands (h : MarksTarget n) : ∀ m ∈ operands n.expr, Marks true m := by
  obtain ⟨pos, r, e⟩ := n
  cases e with
  | index t k => exact List.forall_mem_cons.2 ⟨h.1, List.forall_mem_singleton.2 h.2⟩
  | field t name | deref x => exact List.forall_mem_singleton.2 h
  | _ => exact fun _ hm => (List.not_mem_nil hm).elim

theorem Marks.target (h : Marks r n) : MarksTarget n := by
  obtain ⟨pos, r', e⟩ := n
  cases e with
  | index t k => exact h.2
  | field t name => exact h.2
  | deref x => exact h.2
  | _ => exact trivial

theorem Marks.required (h : Marks r n) : Marks n.required n := by
  obtain ⟨pos, r', e⟩ := n
  obtain ⟨rfl, h⟩ := h
  exact ⟨rfl, h⟩

theorem MarksBlock.of_mem {ns : List Node} (h : MarksBlock r ns) :
    ∀ n ∈ ns, Marks n.required n := by
  induction ns with
  | nil => exact fun _ hn => (List.not_mem_nil hn).elim
  | cons n ns ih =>
    unfold MarksBlock at h
    exact List.forall_mem_cons.2 ⟨h.1.required, ih h.2⟩

theorem MarksOption.of_mem {o : Option Node} (h : MarksOption r o) : ∀ n ∈ o.toList, Marks r n := by
  cases o with
  | none => exact fun _ hn => (List.not_mem_nil hn).elim
  | some n => exact List.forall_mem_singleton.2 h

/-- The parts of what is marked are marked. -/
theorem MarksExpr.parts (h : MarksExpr r e) : ∀ n ∈ parts e, Marks n.required n := by
  cases e with
  | null | bool | int | float | str | identifier | this =>
    exact fun _ hn => (List.not_mem_nil hn).elim
  | prefixOp _ x | not x | field x _ | deref x =>
    exact List.forall_mem_singleton.2 (Marks.required h)
  | infixOp _ x y | and x y | or x y | index x y =>
    exact List.forall_mem_cons.2 ⟨h.1.required, List.forall_mem_singleton.2 h.2.required⟩
  | scope items => exact MarksBlock.of_mem h
  | list items | tuple items => exact fun n hn => (MarksAll.of_mem h n hn).required
  | varDef bs =>
    intro n hn
    obtain ⟨b, hb, rfl⟩ := List.mem_map.1 hn
    exact (MarksBindings.of_mem h b hb).required
  | fnDef _ f | fn f =>
    obtain ⟨_, _, _⟩ := f
    exact List.forall_mem_singleton.2 (Marks.required h)
  | typeDef body => exact fun n hn => (MarksType.bodies h n hn).required
  | assign t v | compoundAssign _ t v =>
    exact List.forall_mem_cons.2 ⟨h.2.required, fun n hn => (h.1.operands n hn).required⟩
  | invoke t args =>
    refine List.forall_mem_cons.2
      ⟨h.1.required, List.forall_mem_append.2 ⟨fun n hn => ?_, fun n hn => ?_⟩⟩
    · exact (h.1.target.operands n hn).required
    · exact (h.2.of_mem n hn).required
  | ifElse c p f =>
    refine List.forall_mem_cons.2 ⟨h.1.required, List.forall_mem_cons.2 ⟨h.2.1.required, ?_⟩⟩
    refine List.forall_mem_append.2 ⟨?_, fun n hn => (h.2.2.of_mem n hn).required⟩
    obtain ⟨pos, r', e⟩ := c
    cases e with
    | not x => exact List.forall_mem_singleton.2 (Marks.required h.1.2)
    | _ => exact fun _ hn => (List.not_mem_nil hn).elim
  | whileElse c b o =>
    refine List.forall_mem_cons.2
      ⟨h.1.required, List.forall_mem_cons.2 ⟨h.2.1.required, fun n hn => ?_⟩⟩
    exact (h.2.2.of_mem n hn).required
  | matchCases x cases =>
    refine List.forall_mem_cons.2 ⟨h.1.required, fun n hn => ?_⟩
    obtain ⟨a, ha, rfl⟩ := List.mem_map.1 hn
    exact (h.2.of_mem a ha).required
  | ref x => exact fun n hn => (Marks.target h |>.operands n hn).required
  | ret x => exact fun n hn => (MarksOption.of_mem h n hn).required

theorem Marks.with_required (h : Marks r n) : { n with required := r } = n := by
  obtain ⟨pos, r', e⟩ := n
  unfold Marks at h
  rw [h.1]

theorem marks_branch {truth : Bool} {pos cpos : Position} (h : MarksExpr r e)
    (hb : Normalize.branch? pos e = some (n, cpos, truth)) : Marks r { n with required := r } := by
  unfold Normalize.branch? at hb
  split at hb
  · rename_i c p f
    unfold MarksExpr at h
    obtain ⟨_, hp, hf⟩ := h
    obtain ⟨t, _, ht⟩ := Option.map_eq_some_iff.1 hb
    cases ht
    cases truth with
    | true =>
      rw [if_pos rfl, hp.with_required]
      exact hp
    | false =>
      rw [if_neg Bool.false_ne_true]
      cases f with
      | none =>
        simp only [Option.getD_none, Node.make, Marks, MarksExpr, and_self]
      | some n =>
        unfold MarksOption at hf
        rw [Option.getD_some, hf.with_required]
        exact hf
  · cases hb

theorem checked_eq_some {overflows : Bool} {i : Int64}
    (h : Normalize.checked overflows i = some e) : overflows = false ∧ e = .int i := by
  cases overflows with
  | true => cases h
  | false => exact ⟨rfl, (Option.some.inj h).symm⟩

/-- What takes the place of an operation on literals is a literal. -/
theorem fold?_eq_some {e' : Expr Node} (h : Normalize.fold? e = some e') :
    (∃ b, e' = .bool b) ∨ (∃ i, e' = .int i) ∨ ∃ d, e' = .float d := by
  have hint : ∀ {overflows i}, Normalize.checked overflows i = some e' → ∃ i, e' = .int i :=
    fun h => ⟨_, (checked_eq_some h).2⟩
  have hfloat : ∀ {d}, some (Expr.float d) = some e' → ∃ d, e' = .float d :=
    fun h => ⟨_, (Option.some.inj h).symm⟩
  unfold Normalize.fold? at h
  split at h
  · obtain ⟨t, -, rfl⟩ := Option.map_eq_some_iff.1 h
    exact .inl ⟨_, rfl⟩
  · unfold Normalize.foldPrefix? at h
    split at h
    · exact .inr (.inl (hint h))
    · exact .inr (.inr (hfloat h))
    · exact .inr (.inl ⟨_, (Option.some.inj h).symm⟩)
    · exact .inr (.inr (hfloat h))
    · exact .inr (.inl ⟨_, (Option.some.inj h).symm⟩)
    · cases h
  · unfold Normalize.foldInfix? at h
    split at h
    · split at h
      · exact .inr (.inl (hint h))
      · exact .inr (.inl (hint h))
      · exact .inr (.inl (hint h))
      · cases h
    · obtain ⟨a, -, h⟩ := Option.bind_eq_some_iff.1 h
      obtain ⟨b, -, h⟩ := Option.bind_eq_some_iff.1 h
      split at h
      · exact .inr (.inr (hfloat h))
      · exact .inr (.inr (hfloat h))
      · exact .inr (.inr (hfloat h))
      · cases h
  · cases h

theorem marks_fold {e' : Expr Node} (hf : Normalize.fold? e = some e') : MarksExpr r e' := by
  rcases fold?_eq_some hf with ⟨b, rfl⟩ | ⟨i, rfl⟩ | ⟨d, rfl⟩ <;> simp only [MarksExpr]

theorem marks_simplify {rules : Simplifications} {pos : Position} (h : MarksExpr r e) :
    Marks r (Normalize.simplify rules ⟨pos, r, e⟩).value := by
  have hsame : Marks r ⟨pos, r, e⟩ := by
    unfold Marks
    exact ⟨rfl, h⟩
  unfold Normalize.simplify
  split
  · rename_i n cpos truth hb
    split at hb
    · exact marks_branch h hb
    · cases hb
  · split
    · rename_i e' hf
      split at hf
      · have hfold := marks_fold (r := r) hf
        simp only [pure, Marks]
        exact ⟨trivial, hfold⟩
      · cases hf
    · exact hsame

section

variable (rules : Simplifications)

theorem isEmpty_block (r : Bool) (ns : List Node) :
    (Normalize.block rules r ns).value.isEmpty = ns.isEmpty := by
  cases ns with
  | nil => rfl
  | cons n ns => rfl

mutual

theorem marks_node (r : Bool) : ∀ n, Marks r (Normalize.node rules r n).value
  | ⟨_, _, e⟩ => by
    rw [Normalize.node]
    exact marks_simplify (marks_expr r e)

theorem marks_expr (r : Bool) : ∀ e, MarksExpr r (Normalize.expr rules r e).value
  | .null | .bool _ | .int _ | .float _ | .str _ | .identifier _ | .this => by
    simp only [Normalize.expr, pure, MarksExpr]
  | .prefixOp _ x => marks_node true x
  | .infixOp _ x y => ⟨marks_node true x, marks_node true y⟩
  | .and x y => ⟨marks_node true x, marks_node true y⟩
  | .or x y => ⟨marks_node true x, marks_node true y⟩
  | .not x => marks_node true x
  | .scope items => marks_block r items
  | .varDef bs => marks_bindings bs
  | .fnDef _ f => marks_function f
  | .fn f => marks_function f
  | .typeDef body => marks_typeBody body
  | .assign t v => ⟨marks_target t, marks_node true v⟩
  | .compoundAssign _ t v => ⟨marks_target t, marks_node true v⟩
  | .invoke t args => ⟨marks_node true t, marks_nodes args⟩
  | .index x y => ⟨marks_node true x, marks_node true y⟩
  | .field x _ => marks_node true x
  | .ifElse c p f => ⟨marks_node true c, marks_node r p, marks_option r f⟩
  | .whileElse c b o => ⟨marks_node true c, marks_node r b, marks_option r o⟩
  | .matchCases x cases => ⟨marks_node true x, marks_arms r cases⟩
  | .ref x => marks_node true x
  | .deref x => marks_node true x
  | .list items => marks_nodes items
  | .tuple items => marks_nodes items
  | .ret x => marks_option true x

theorem marks_target : ∀ n, MarksTarget (Normalize.target rules n).value
  | ⟨_, _, e⟩ => marks_targetExpr e

theorem marks_targetExpr (e : Expr Node) :
    MarksTargetExpr (Normalize.targetExpr rules e).value := by
  cases e with
  | index t k => exact ⟨marks_node true t, marks_node true k⟩
  | field t name => exact marks_node true t
  | deref x => exact marks_node true x
  | _ => exact trivial

theorem marks_nodes : ∀ ns, MarksAll (Normalize.nodes rules ns).value
  | [] => trivial
  | n :: ns => ⟨marks_node true n, marks_nodes ns⟩

theorem marks_block (r : Bool) : ∀ ns, MarksBlock r (Normalize.block rules r ns).value
  | [] => trivial
  | n :: ns => by
    refine ⟨?_, marks_block r ns⟩
    have h := isEmpty_block rules r ns
    exact h ▸ marks_node _ n

theorem marks_option (r : Bool) : ∀ o, MarksOption r (Normalize.option rules r o).value
  | none => trivial
  | some n => marks_node r n

theorem marks_function : ∀ f, MarksFunction (Normalize.function rules f).value
  | ⟨_, _, body⟩ => marks_node true body

theorem marks_functionOption : ∀ o, MarksFunctionOption (Normalize.functionOption rules o).value
  | none => trivial
  | some f => marks_function f

theorem marks_member : ∀ m, MarksMember (Normalize.member rules m).value
  | ⟨_, f⟩ => marks_function f

theorem marks_members : ∀ ms, MarksMembers (Normalize.members rules ms).value
  | [] => trivial
  | m :: ms => ⟨marks_member m, marks_members ms⟩

theorem marks_typeBody : ∀ t, MarksType (Normalize.typeBody rules t).value
  | ⟨_, ctor, methods, prefixOps, infixOps, invoke⟩ =>
    ⟨marks_functionOption ctor, marks_functionOption invoke, marks_members methods,
      marks_members prefixOps, marks_members infixOps⟩

theorem marks_binding : ∀ b, MarksBinding (Normalize.binding rules b).value
  | ⟨_, value⟩ => marks_node true value

theorem marks_bindings : ∀ bs, MarksBindings (Normalize.bindings rules bs).value
  | [] => trivial
  | b :: bs => ⟨marks_binding b, marks_bindings bs⟩

theorem marks_arm (r : Bool) : ∀ a, MarksArm r (Normalize.arm rules r a).value
  | ⟨_, _, body⟩ => marks_node r body

theorem marks_arms (r : Bool) : ∀ as, MarksArms r (Normalize.arms rules r as).value
  | [] => trivial
  | a :: as => ⟨marks_arm r a, marks_arms r as⟩

end

end

theorem marks_normalize (items : List Node) : MarksBlock true (normalize items).value :=
  marks_block ⟨true, true⟩ true items

end Marking
end Refscript
