import Refscript.Proofs.Syntax.Compact
import Refscript.Syntax.Normalize

/-!
# Refscript.Proofs.Syntax.Literal

The text of data is a program, and normalizing this program gives the literal of the data.

* `Datum.term`: the expression for data. A negative integer is the negation of a positive one.
* `Datum.written_text`: the text of data is made of the tokens of this expression.
* `Datum.Denotes`: a node is the literal of data, with every value in it wanted and no operator
  left.
* `Datum.readProgram_text`: the text is read, without complaints or warnings, as the literal.
-/

namespace Refscript

open Parse

theorem toInt_neg_of_ne_minValue {i : Int64} (h : i ≠ Int64.minValue) : (-i).toInt = -i.toInt := by
  have hne : i.toInt ≠ Int64.minValue.toInt := fun he => h (Int64.toInt_inj.1 he)
  have hlo := i.minValue_le_toInt
  have hhi := i.toInt_lt
  rw [Int64.toInt_minValue] at hne hlo
  rw [Int64.toInt_neg]
  exact Int.bmod_eq_of_le (by omega) (by omega)

theorem toList_toString_int (z : Int) :
    (toString z).toList = if 0 ≤ z then Decimal.digits z.toNat
      else '-' :: Decimal.digits (-z).toNat := by
  cases z with
  | ofNat n => exact String.toList_ofList
  | negSucc n =>
    show ("-" ++ Nat.repr (n + 1)).toList = _
    rw [if_neg (by omega), String.toList_append]
    exact congrArg ('-' :: ·) String.toList_ofList

namespace Datum

mutual

/-- The expression for data. -/
def term : Datum → Term
  | .null => .null
  | .bool b => .bool b
  | .int i h =>
    if hi : 0 ≤ i.toInt then .int i hi
    else .unary .minus (.int (-i) (by rw [toInt_neg_of_ne_minValue h]; omega))
  | .str s _ => .str s
  | .list items => .list (terms items)
  | .tuple items => .tuple (terms items)

def terms : List Datum → List Term
  | [] => []
  | d :: ds => d.term :: terms ds

end

/-- The text of data, in front of what ends it, is made of the tokens of its expression. -/
def Writes (d : Datum) : Prop :=
  ∀ ⦃ls : List Lexeme⦄ ⦃cs : List Char⦄, Written ls cs → Delimited cs →
    Written (d.term.lexemes ++ ls) (d.text.toList ++ cs)

theorem writes_int (i : Int64) (h : i ≠ Int64.minValue) : Writes (.int i h) := by
  intro ls cs hls hcs
  rw [text, toList_toString_int, term]
  split
  · rename_i hi
    exact hls.digits _ hcs
  · rename_i hi
    rw [← toInt_neg_of_ne_minValue h]
    exact hls.negative _ hcs

theorem writes_separated {ds : List Datum} (ih : ∀ d ∈ ds, d.Writes) {ls : List Lexeme}
    {cs : List Char} (hls : Written ls cs) (hcs : Delimited cs) :
    Written (Term.separated (terms ds) ++ ls) ((", ".intercalate (texts ds)).toList ++ cs) := by
  rw [String.toList_intercalate]
  cases ds with
  | nil => exact hls
  | cons d ds =>
    induction ds generalizing d with
    | nil =>
      simpa [terms, texts, Term.separated, Term.continued] using ih d List.mem_cons_self hls hcs
    | cons e ds ihs =>
      obtain ⟨ihd, ih⟩ := List.forall_mem_cons.1 ih
      have hwritten := ihd (ihs e ih).blank.comma (by simp [Delimited])
      simpa [terms, texts, Term.separated, Term.continued,
        List.intercalate_cons_cons] using hwritten

/-- The text of data is made of the tokens of its expression. -/
theorem writes (d : Datum) : d.Writes := by
  induction d using induction_items with
  | null => exact fun ls cs hls hcs => hls.keyword .nullKw hcs
  | bool b =>
    intro ls cs hls hcs
    cases b with
    | true => exact hls.keyword .trueKw hcs
    | false => exact hls.keyword .falseKw hcs
  | int i h => exact writes_int i h
  | str s h => exact fun ls cs hls hcs => hls.quote h
  | list items ih =>
    intro ls cs hls hcs
    have hwritten := (writes_separated ih hls.rightBracket (by simp [Delimited])).leftBracket
    simpa [text, term, Term.lexemes] using hwritten
  | tuple items ih =>
    intro ls cs hls hcs
    have hclosed : Written (.rightParen :: ls) (')' :: cs) := hls.rightParen
    have hwritten := (writes_separated ih hclosed (by simp [Delimited])).leftParen
    cases items with
    | nil => simpa [text, term, terms, Term.lexemes] using hwritten
    | cons d ds =>
      cases ds with
      | nil =>
        have hsingle := (ih d List.mem_cons_self hclosed.comma (by simp [Delimited])).leftParen
        simpa [text, term, terms, Term.lexemes, Term.separated, Term.continued] using hsingle
      | cons e ds => simpa [text, term, terms, Term.lexemes] using hwritten

theorem parse_text (d : Datum) :
    (parse d.text).diagnostics = [] ∧ ∃ n, (parse d.text).items = [n] ∧ d.term.Describes n := by
  have hwritten := d.writes .nil (by simp [Delimited])
  rw [List.append_nil, List.append_nil] at hwritten
  exact parse_of_spelled (Scan.spelled_tokens hwritten)

/-- The node is the literal of data: every value in it is wanted. -/
inductive Denotes : Datum → Node → Prop where
  | null (pos : Position) : Denotes .null ⟨pos, true, .null⟩
  | bool (pos : Position) (b : Bool) : Denotes (.bool b) ⟨pos, true, .bool b⟩
  | int (pos : Position) (i : Int64) (h : i ≠ Int64.minValue) :
      Denotes (.int i h) ⟨pos, true, .int i⟩
  | str (pos : Position) (s : String) (h : Text.isPlain s = true) :
      Denotes (.str s h) ⟨pos, true, .str s⟩
  | list (pos : Position) {items : List Datum} {ns : List Node}
      (h : List.Forall₂ Denotes items ns) : Denotes (.list items) ⟨pos, true, .list ns⟩
  | tuple (pos : Position) {items : List Datum} {ns : List Node}
      (h : List.Forall₂ Denotes items ns) : Denotes (.tuple items) ⟨pos, true, .tuple ns⟩

/-- Normalizing the expression for data gives its literal, and there is nothing to warn about. -/
def Normalizes (d : Datum) : Prop :=
  ∀ n, d.term.Describes n → ∃ n', Normalize.node ⟨true, true⟩ true n = ⟨n', []⟩ ∧ d.Denotes n'

theorem normalizes_int (i : Int64) (h : i ≠ Int64.minValue) : Normalizes (.int i h) := by
  intro n hn
  rw [term] at hn
  split at hn
  · cases hn with
    | int pos => exact ⟨_, rfl, .int pos i h⟩
  · cases hn with
    | unary pos op hx =>
      cases hx with
      | int pos' =>
        have hfold : Normalize.foldPrefix? .minus (.int (-i)) = some (.int i) := by
          have hle := i.toInt_le
          have hmax : Int64.maxValue.toInt = 9223372036854775807 := rfl
          have hsafe : (-i).toBitVec.negOverflow = false := by
            show ((-i).toInt == -9223372036854775808) = false
            rw [toInt_neg_of_ne_minValue h, beq_eq_false_iff_ne]
            omega
          rw [Normalize.foldPrefix?, hsafe, Int64.neg_neg]
          rfl
        refine ⟨⟨pos, true, .int i⟩, ?_, .int pos i h⟩
        show Normalize.simplify ⟨true, true⟩ ⟨pos, true, .prefixOp .minus ⟨pos', true, .int (-i)⟩⟩ =
          _
        simp only [Normalize.simplify, Normalize.branch?, Normalize.fold?, hfold, if_pos]
        rfl

theorem normalizes_items {ds : List Datum} (ih : ∀ d ∈ ds, d.Normalizes) {ns : List Node}
    (h : List.Forall₂ Term.Describes (terms ds) ns) :
    ∃ ns', Normalize.nodes ⟨true, true⟩ ns = ⟨ns', []⟩ ∧ List.Forall₂ Denotes ds ns' := by
  induction ds generalizing ns with
  | nil =>
    cases h
    exact ⟨[], rfl, .nil⟩
  | cons d ds ihs =>
    obtain ⟨ihd, ih⟩ := List.forall_mem_cons.1 ih
    cases h with
    | cons hd hds =>
      obtain ⟨n, hn, hdenotes⟩ := ihd _ hd
      obtain ⟨ns, hns, hall⟩ := ihs ih hds
      refine ⟨n :: ns, ?_, .cons hdenotes hall⟩
      rw [Normalize.nodes, hn, hns]
      rfl

theorem normalizes (d : Datum) : d.Normalizes := by
  induction d using induction_items with
  | null =>
    intro n hn
    cases hn with
    | null pos => exact ⟨_, rfl, .null pos⟩
  | bool b =>
    intro n hn
    cases hn with
    | bool pos => exact ⟨_, rfl, .bool pos b⟩
  | int i h => exact normalizes_int i h
  | str s h =>
    intro n hn
    cases hn with
    | str pos => exact ⟨_, rfl, .str pos s h⟩
  | list items ih =>
    intro n hn
    cases hn with
    | list pos hitems =>
      obtain ⟨ns, hns, hall⟩ := normalizes_items ih hitems
      refine ⟨_, ?_, .list pos hall⟩
      rw [Node.make, Normalize.node, Normalize.expr, hns]
      rfl
  | tuple items ih =>
    intro n hn
    cases hn with
    | tuple pos hitems =>
      obtain ⟨ns, hns, hall⟩ := normalizes_items ih hitems
      refine ⟨_, ?_, .tuple pos hall⟩
      rw [Node.make, Normalize.node, Normalize.expr, hns]
      rfl

/-- The text of data is read, without complaints or warnings, as its literal. -/
theorem readProgram_text (d : Datum) : ∃ n, readProgram d.text = ⟨[n], []⟩ ∧ d.Denotes n := by
  obtain ⟨hclean, n, hitems, hn⟩ := d.parse_text
  obtain ⟨n', hnormal, hdenotes⟩ := d.normalizes n hn
  refine ⟨n', ?_, hdenotes⟩
  have hprogram : normalize [n] = ⟨[n'], []⟩ := by
    have hlast : (true && ([] : List Node).isEmpty) = true := rfl
    rw [normalize, Normalize.program, Normalize.block, hlast, hnormal]
    rfl
  have hparse : parse d.text = ⟨[n], []⟩ := by
    rw [← hitems, ← hclean]
  rw [readProgram, hparse]
  show Parsed.mk (normalize [n]).value ([] ++ (normalize [n]).notes) = _
  rw [hprogram]
  rfl

end Datum

end Refscript
