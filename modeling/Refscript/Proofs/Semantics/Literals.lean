import Refscript.Proofs.Semantics.Refinement
import Refscript.Proofs.Store.Likeness

/-!
# Refscript.Proofs.Semantics.Literals

Trees of operators over literals. Such a tree has a meaning, `Node.compute`: the operations of the
store, applied from the leaves up.

* `Number.add_of_not_saddOverflow` and the lemmas after it: where the arithmetic of the folding pass
  sees no overflow, the arithmetic of the machine gives the same integer.
* `Normalize.node_abridges`: normalizing keeps the meaning, also where only a part of the tree can
  be folded.
* `Node.isData_compute`: the value is data, which stands for itself and has no operators of its own.
* `Node.OfLiterals.respects`: the meaning depends only on what operations look at in a store.
-/

namespace Refscript

variable {n x : Node} {e : Expr Node} {v : Value} {a b : Number} {op : Operator} {truth : Bool}

/-- Trees of operators over literals. -/
inductive Node.OfLiterals : Node → Prop where
  | null (pos : Position) (r : Bool) : OfLiterals ⟨pos, r, .null⟩
  | bool (pos : Position) (r : Bool) (b : Bool) : OfLiterals ⟨pos, r, .bool b⟩
  | int (pos : Position) (r : Bool) (i : Int64) : OfLiterals ⟨pos, r, .int i⟩
  | float (pos : Position) (r : Bool) (d : Double) : OfLiterals ⟨pos, r, .float d⟩
  | str (pos : Position) (r : Bool) (s : String) : OfLiterals ⟨pos, r, .str s⟩
  | not (pos : Position) (r : Bool) {x : Node} : x.OfLiterals → OfLiterals ⟨pos, r, .not x⟩
  | prefixOp (pos : Position) (r : Bool) (op : Operator) {x : Node} : x.OfLiterals →
      OfLiterals ⟨pos, r, .prefixOp op x⟩
  | infixOp (pos : Position) (r : Bool) (op : InfixSymbol) {x y : Node} : x.OfLiterals →
      y.OfLiterals → OfLiterals ⟨pos, r, .infixOp op x y⟩

mutual

/-- The value of a tree of operators over literals; other constructs count as null. -/
def Node.compute : Node → Action Value
  | ⟨_, _, e⟩ => Expr.compute e

def Expr.compute : Expr Node → Action Value
  | .bool b => return .bool b
  | .int i => return .int i
  | .float d => return .float d
  | .str s => return .str s
  | .not x => return .bool !(← Node.compute x).truth
  | .prefixOp op x => do
    let a ← Node.compute x
    Action.reading (·.plainPrefix op.symbol a)
  | .infixOp op x y => do
    let a ← Node.compute x
    let b ← Node.compute y
    Store.plainInfix op.text a b
  | _ => return .null

end

mutual

/-- The number of operators and literals in a tree. -/
def Node.weight : Node → Nat
  | ⟨_, _, e⟩ => Expr.weight e

def Expr.weight : Expr Node → Nat
  | .not x => Node.weight x + 1
  | .prefixOp _ x => Node.weight x + 1
  | .infixOp _ x y => Node.weight x + Node.weight y + 1
  | _ => 1

end

namespace Number

variable {i j : Int64}

theorem exactOr_toInt (i : Int64) (d : Double) : exactOr i.toInt d = int i := by
  rw [exactOr, fit?, if_pos ⟨i.minValue_le_toInt, i.toInt_le⟩, Int64.ofInt_toInt]

theorem add_of_not_saddOverflow (h : i.toBitVec.saddOverflow j.toBitVec = false) :
    add (int i) (int j) = int (i + j) := by
  have hexact : (i + j).toInt = i.toInt + j.toInt :=
    BitVec.toInt_add_of_not_saddOverflow (Bool.not_eq_true _ ▸ h)
  rw [add, ← hexact, exactOr_toInt]

theorem sub_of_not_ssubOverflow (h : i.toBitVec.ssubOverflow j.toBitVec = false) :
    sub (int i) (int j) = int (i - j) := by
  have hexact : (i - j).toInt = i.toInt - j.toInt :=
    BitVec.toInt_sub_of_not_ssubOverflow (Bool.not_eq_true _ ▸ h)
  rw [sub, ← hexact, exactOr_toInt]

theorem mul_of_not_smulOverflow (h : i.toBitVec.smulOverflow j.toBitVec = false) :
    mul (int i) (int j) = int (i * j) := by
  have hexact : (i * j).toInt = i.toInt * j.toInt :=
    BitVec.toInt_mul_of_not_smulOverflow (Bool.not_eq_true _ ▸ h)
  rw [mul, ← hexact, exactOr_toInt]

theorem neg_of_not_negOverflow (h : i.toBitVec.negOverflow = false) :
    neg (int i) = int (-i) := by
  have hexact : (-i).toInt = -i.toInt :=
    BitVec.toInt_neg_of_not_negOverflow (Bool.not_eq_true _ ▸ h)
  rw [neg, ← hexact, exactOr_toInt]

end Number

namespace Normalize

theorem compute_of_literalTruth? (h : n.literalTruth? = some truth) :
    ∃ v : Value, n.compute = pure v ∧ v.truth = truth := by
  obtain ⟨pos, r, e⟩ := n
  unfold Node.literalTruth? at h
  rw [Node.compute]
  cases e with
  | null | bool b | int i | float d | str s =>
    cases h
    exact ⟨_, rfl, rfl⟩
  | _ => cases h

theorem numeric?_eq_some {d : Double} (h : numeric? e = some d) :
    (∃ i, e = .int i) ∨ e = .float d := by
  cases e with
  | int i => exact .inl ⟨i, rfl⟩
  | float d' =>
    cases h
    exact .inr rfl
  | _ => cases h

theorem compute_infixOp {op : InfixSymbol} {y : Node} (hx : x.compute = pure (.num a))
    (hy : y.compute = pure (.num b)) :
    (Expr.infixOp op x y).compute = Store.plainInfix op.text (.num a) (.num b) := by
  rw [Expr.compute, hx, hy, pure_bind, pure_bind]

/-- What an operation on integers folds to, if it folds, is what the machine makes of it. -/
theorem compute_of_foldInts {op : InfixSymbol} {i j : Int64}
    (h : foldInfix? op (.int i) (.int j) = some e) :
    e.compute = Store.plainInfix op.text (.num (.int i)) (.num (.int j)) := by
  have hsame : ∀ {k} {a : Number}, a = .int k →
      (Expr.int k).compute = (pure (.num a) : Action Value) := by
    rintro k _ rfl
    rfl
  simp only [foldInfix?] at h
  split at h
  · obtain ⟨hfits, rfl⟩ := Marking.checked_eq_some h
    exact hsame (Number.add_of_not_saddOverflow hfits)
  · obtain ⟨hfits, rfl⟩ := Marking.checked_eq_some h
    exact hsame (Number.sub_of_not_ssubOverflow hfits)
  · obtain ⟨hfits, rfl⟩ := Marking.checked_eq_some h
    exact hsame (Number.mul_of_not_smulOverflow hfits)
  · cases h

theorem compute_of_foldInfix? {op : InfixSymbol} {y : Node}
    (h : foldInfix? op x.expr y.expr = some e) :
    e.compute = (Expr.infixOp op x y).compute := by
  obtain ⟨px, rx, ex⟩ := x
  obtain ⟨py, ry, ey⟩ := y
  dsimp only at h
  by_cases hints : (∃ i, ex = .int i) ∧ ∃ j, ey = .int j
  · obtain ⟨⟨i, rfl⟩, ⟨j, rfl⟩⟩ := hints
    rw [compute_infixOp (x := ⟨px, rx, .int i⟩) (y := ⟨py, ry, .int j⟩) rfl rfl]
    exact compute_of_foldInts h
  · -- one of the two is a double, and so is the result
    unfold foldInfix? at h
    split at h
    · exact absurd ⟨⟨_, rfl⟩, ⟨_, rfl⟩⟩ hints
    · obtain ⟨a, ha, h⟩ := Option.bind_eq_some_iff.1 h
      obtain ⟨b, hb, h⟩ := Option.bind_eq_some_iff.1 h
      rcases numeric?_eq_some ha with ⟨i, rfl⟩ | rfl <;>
        rcases numeric?_eq_some hb with ⟨j, rfl⟩ | rfl
      · exact absurd ⟨⟨i, rfl⟩, ⟨j, rfl⟩⟩ hints
      all_goals
        cases ha
        cases hb
        rw [compute_infixOp rfl rfl]
        split at h <;> cases h
        all_goals rfl

theorem compute_prefixOp (hx : x.compute = pure (.num a)) :
    (Expr.prefixOp op x).compute = Action.reading (·.plainPrefix op.symbol (.num a)) := by
  rw [Expr.compute, hx, pure_bind]

theorem compute_of_foldPrefix? (h : foldPrefix? op x.expr = some e) :
    e.compute = (Expr.prefixOp op x).compute := by
  obtain ⟨pos, r, operand⟩ := x
  cases operand with
  | int i =>
    rw [compute_prefixOp rfl]
    cases op with
    | minus =>
      obtain ⟨hfits, rfl⟩ := Marking.checked_eq_some h
      show pure (Value.num (.int (-i))) = _
      rw [← Number.neg_of_not_negOverflow hfits]
      rfl
    | plus | tilde =>
      cases h
      rfl
    | _ => cases h
  | float d =>
    rw [compute_prefixOp rfl]
    cases op with
    | minus | plus =>
      cases h
      rfl
    | _ => cases h
  | _ => cases op <;> cases h

theorem compute_of_fold? {e' : Expr Node} (h : fold? e = some e') : e'.compute = e.compute := by
  cases e with
  | not x =>
    obtain ⟨truth, htruth, rfl⟩ := Option.map_eq_some_iff.1 h
    obtain ⟨v, hv, rfl⟩ := compute_of_literalTruth? htruth
    rw [Expr.compute, Expr.compute, hv, pure_bind]
  | prefixOp op x => exact compute_of_foldPrefix? h
  | infixOp op x y => exact compute_of_foldInfix? h
  | _ => cases h

theorem branch?_of_ofLiterals (hn : n.OfLiterals) (pos : Position) : branch? pos n.expr = none := by
  cases hn <;> rfl

theorem simplify_cases (rules : Simplifications) (hn : n.OfLiterals) :
    (simplify rules n).value = n ∨ ∃ e, fold? n.expr = some e ∧ (simplify rules n).value =
      { n with expr := e } := by
  unfold simplify
  rw [branch?_of_ofLiterals hn, ite_self]
  dsimp only
  split
  · rename_i e he
    cases hfold : rules.fold with
    | true =>
      rw [hfold, if_pos rfl] at he
      exact .inr ⟨e, he, rfl⟩
    | false =>
      rw [hfold, if_neg Bool.false_ne_true] at he
      cases he
  · exact .inl rfl

theorem ofLiterals_of_literalTruth? (h : n.literalTruth? = some truth) : n.OfLiterals := by
  obtain ⟨pos, r, e⟩ := n
  cases e with
  | null => exact .null pos r
  | bool b => exact .bool pos r b
  | int i => exact .int pos r i
  | float d => exact .float pos r d
  | str t => exact .str pos r t
  | _ => cases h

theorem weight_of_literalTruth? (h : n.literalTruth? = some truth) : n.weight = 1 := by
  obtain ⟨pos, r, e⟩ := n
  cases e with
  | null | bool b | int i | float d | str t => rfl
  | _ => cases h

theorem literalTruth?_fold? {e' : Expr Node} (h : fold? e = some e') (pos : Position) (r : Bool) :
    ∃ truth, Node.literalTruth? ⟨pos, r, e'⟩ = some truth := by
  rcases Marking.fold?_eq_some h with ⟨b, rfl⟩ | ⟨i, rfl⟩ | ⟨d, rfl⟩
  · exact ⟨_, rfl⟩
  · exact ⟨_, rfl⟩
  · exact ⟨_, rfl⟩

theorem weight_pos (n : Node) : 1 ≤ n.weight := by
  obtain ⟨pos, r, e⟩ := n
  rw [Node.weight]
  unfold Expr.weight
  split <;> omega

/-- The one tree computes what the other one does, and is no larger. -/
structure Abridges (n n' : Node) : Prop where
  ofLiterals : n'.OfLiterals
  compute : n'.compute = n.compute
  weight : n'.weight ≤ n.weight

theorem simplify_abridges (rules : Simplifications) (hn : n.OfLiterals) :
    Abridges n (simplify rules n).value := by
  obtain heq | ⟨e, he, heq⟩ := simplify_cases rules hn
  · rw [heq]
    exact ⟨hn, rfl, Nat.le_refl _⟩
  · rw [heq]
    obtain ⟨truth, htruth⟩ := literalTruth?_fold? he n.pos n.required
    obtain ⟨pos, r, e'⟩ := n
    exact ⟨ofLiterals_of_literalTruth? htruth, compute_of_fold? he,
      Nat.le_trans (Nat.le_of_eq (weight_of_literalTruth? htruth)) (weight_pos _)⟩

theorem Abridges.trans {a b c : Node} (h : Abridges a b) (h' : Abridges b c) : Abridges a c :=
  ⟨h'.ofLiterals, h'.compute.trans h.compute, Nat.le_trans h'.weight h.weight⟩

/-- Normalizing such a tree, with or without folding, gives such a tree with the same value. -/
theorem node_abridges (rules : Simplifications) (r : Bool) (hn : n.OfLiterals) :
    Abridges n (node rules r n).value := by
  induction hn generalizing r with
  | null pos r' =>
    exact .trans ⟨.null pos r, rfl, Nat.le_refl _⟩ (simplify_abridges rules (.null pos r))
  | bool pos r' b =>
    exact .trans ⟨.bool pos r b, rfl, Nat.le_refl _⟩ (simplify_abridges rules (.bool pos r b))
  | int pos r' i =>
    exact .trans ⟨.int pos r i, rfl, Nat.le_refl _⟩ (simplify_abridges rules (.int pos r i))
  | float pos r' d =>
    exact .trans ⟨.float pos r d, rfl, Nat.le_refl _⟩ (simplify_abridges rules (.float pos r d))
  | str pos r' t =>
    exact .trans ⟨.str pos r t, rfl, Nat.le_refl _⟩ (simplify_abridges rules (.str pos r t))
  | not pos r' hx ih =>
    obtain ⟨hx, hvalue, hweight⟩ := ih true
    refine .trans ⟨.not pos r hx, ?_, Nat.succ_le_succ hweight⟩
      (simplify_abridges rules (.not pos r hx))
    simp only [Node.compute, Expr.compute, hvalue]
  | prefixOp pos r' op hx ih =>
    obtain ⟨hx, hvalue, hweight⟩ := ih true
    refine .trans ⟨.prefixOp pos r op hx, ?_, Nat.succ_le_succ hweight⟩
      (simplify_abridges rules (.prefixOp pos r op hx))
    simp only [Node.compute, Expr.compute, hvalue]
  | infixOp pos r' op hx hy ihx ihy =>
    obtain ⟨hx, hleft, hweightx⟩ := ihx true
    obtain ⟨hy, hright, hweighty⟩ := ihy true
    refine .trans ⟨.infixOp pos r op hx hy, ?_, Nat.succ_le_succ (Nat.add_le_add hweightx hweighty)⟩
      (simplify_abridges rules (.infixOp pos r op hx hy))
    simp only [Node.compute, Expr.compute, hleft, hright]

end Normalize

/-- Values that stand for themselves and whose operators are the provided ones. -/
def Value.IsData : Value → Prop
  | .ref _ _ | .object _ => False
  | _ => True

theorem Value.IsData.deref (hv : v.IsData) (s : Store) : s.deref v = .ok v := by
  refine s.deref_of_plain ?_
  rintro id place rfl
  exact hv

theorem Value.IsData.ownOperator? (hv : v.IsData) (s : Store) (table : TypeDef → Table String Value)
    (op : String) : s.ownOperator? table op v = none := by
  cases v with
  | object id => exact hv.elim
  | _ => rfl

namespace Store

open Refscript.Action

theorem isData_onNumbers (h : Operation.onNumbers op a b = .ok (some v)) : v.IsData := by
  cases op with
  | slash | doubleSlash | percent =>
    simp only [Operation.onNumbers] at h
    split at h
    · cases h
      trivial
    · cases h
  | ampersand | bar | tilde | shiftLeft | shiftRight | shiftRightLogical =>
    obtain ⟨n, _, rfl⟩ := Option.map_eq_some_iff.1 (Except.ok.inj h)
    trivial
  | diamond | arrow => cases h
  | _ =>
    cases h
    trivial

theorem isData_onTexts {a b : String} (h : Operation.onTexts op a b = some v) : v.IsData := by
  cases op with
  | less | lessEqual | greater | greaterEqual | spaceship =>
    cases h
    trivial
  | _ => cases h

theorem isData_operate (op : Operator) (left right : Value) (s : Store) :
    Ensures (operate op left right) s (fun r _ => ∀ v, r = some v → v.IsData) fun _ _ => True := by
  have hsome : ∀ u : Value, u.IsData → ∀ v, some u = some v → v.IsData := by
    rintro u hu _ ⟨⟩
    exact hu
  unfold operate
  split
  · exact hsome _ trivial
  · refine ensures_bind.2 (ensures_ofExcept.2 ⟨fun items _ => ?_, fun _ _ => trivial⟩)
    exact ensures_map.2 (hsome _ trivial)
  · exact ensures_ofExcept.2 ⟨fun r hr v hv => isData_onNumbers (hr.trans (congrArg _ hv)),
      fun _ _ => trivial⟩
  · exact hsome _ trivial
  · exact hsome _ trivial
  · rename_i text n
    refine ensures_ofExcept.2 ⟨fun r hr => ?_, fun _ _ => trivial⟩
    cases hrepeat : Operation.repeatText text n with
    | ok t =>
      rw [hrepeat] at hr
      cases hr
      exact hsome _ trivial
    | error f =>
      rw [hrepeat] at hr
      cases hr
  · exact ensures_map.2 (hsome _ trivial)
  · exact fun v hv => isData_onTexts hv
  · exact fun v hv => by cases hv

theorem isData_plainInfix (op : String) (left right : Value) (s : Store) :
    Ensures (plainInfix op left right) s (fun v _ => v.IsData) fun _ _ => True := by
  unfold plainInfix
  extract_lets finish
  have hfinish : ∀ result t, (∀ v, result = some v → v.IsData) →
      Ensures (finish result) t (fun v _ => v.IsData) fun _ _ => True := by
    intro result t hresult
    cases result with
    | some v => exact hresult v rfl
    | none => exact ensures_reading.2 ⟨fun v hv => (by cases hv), fun _ _ => trivial⟩
  have hbool : ∀ (b : Bool) v, some (Value.bool b) = some v → v.IsData := by
    rintro b _ ⟨⟩
    trivial
  split
  · exact ensures_bind.2 (ensures_look.2 (hfinish _ s (hbool _)))
  · exact ensures_bind.2 (ensures_look.2 (hfinish _ s (hbool _)))
  · exact ensures_bind.2 ((isData_operate _ left right s).imp hfinish fun _ _ _ => trivial)
  · exact ensures_bind.2 (ensures_pure.2 (hfinish none s fun v hv => by cases hv))

theorem isData_plainPrefix {s : Store} {op : String} {operand : Value}
    (h : s.plainPrefix op operand = .ok v) : v.IsData := by
  unfold plainPrefix at h
  split at h
  · cases h
    trivial
  · cases h
    trivial
  · cases h
    trivial
  · cases h

end Store

theorem Node.isData_compute (n : Node) (s : Store) :
    n.compute.Ensures s (fun v _ => v.IsData) fun _ _ => True := by
  obtain ⟨pos, r, e⟩ := n
  rw [Node.compute]
  cases e with
  | not x =>
    rw [Expr.compute, Action.ensures_bind]
    unfold Action.Ensures
    cases x.compute s with
    | ok v t => trivial
    | error f t => trivial
  | prefixOp op x =>
    rw [Expr.compute, Action.ensures_bind]
    unfold Action.Ensures
    cases x.compute s with
    | ok v t =>
      exact Action.ensures_reading.2 ⟨fun _ => Store.isData_plainPrefix, fun _ _ => trivial⟩
    | error f t => trivial
  | infixOp op x y =>
    rw [Expr.compute, Action.ensures_bind]
    unfold Action.Ensures
    cases x.compute s with
    | ok a t =>
      show Action.Ensures _ t _ _
      rw [Action.ensures_bind]
      unfold Action.Ensures
      cases y.compute t with
      | ok b u => exact Store.isData_plainInfix op.text a b u
      | error f u => trivial
    | error f t => trivial
  | _ => trivial

theorem Node.OfLiterals.respects {R : Store → Store → Prop} (hR : Store.Blurs R)
    (hn : n.OfLiterals) : n.compute.Respects R := by
  induction hn with
  | null | bool | int | float | str => exact .pure _
  | not pos r hx ih => exact ih.bind fun v => .pure _
  | prefixOp pos r op hx ih => exact ih.bind fun a => hR.plainPrefix _ a
  | infixOp pos r op hx hy ihx ihy => exact ihx.bind fun a => ihy.bind fun b => hR.plainInfix _ a b

end Refscript
