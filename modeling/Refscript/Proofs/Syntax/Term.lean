import Mathlib.Data.List.Forall2
import Refscript.Proofs.Source.Spacing
import Refscript.Syntax.Precedence
import Refscript.Syntax.Tree

/-!
# Refscript.Proofs.Syntax.Term

Expressions made of names, literals, operators, assignments, calls, access, lists and tuples, and
how they are written with as few parentheses as the precedences allow.

* `Term`: the expressions. `Term.Describes` says that a node is such an expression, at whatever
  positions.
* `Term.printed`: the tokens of an expression where operators bind at least as tightly as a given
  precedence.
* `Term.print`: its text, with a blank between each two tokens.
-/

namespace Refscript

/-- Whether a word may be used as a name. -/
def isIdent (word : String) : Bool :=
  match word.toList with
  | [] => false
  | c :: cs => Scan.isNameStart c && cs.all Scan.isNamePart && (Keyword.ofWord? word).isNone

structure Ident where
  word : String
  valid : isIdent word = true

/-- Operators before their operand. -/
inductive Unary where
  | minus | plus | tilde
  | not | ref | deref
deriving DecidableEq, Repr

/-- Operators between their operands, assignments apart. -/
inductive Binary where
  | symbol (s : InfixSymbol)
  | and
  | or
deriving DecidableEq, Repr

/-- The signs between the target and the value of an assignment. -/
inductive Assigner where
  | plain
  | plus | minus | star | slash
deriving DecidableEq, Repr

inductive Term where
  | null
  | bool (b : Bool)
  | int (i : Int64) (h : 0 ≤ i.toInt)
  | str (s : String)
  | name (x : Ident)
  | this
  | unary (op : Unary) (operand : Term)
  | binary (op : Binary) (left right : Term)
  | assign (op : Assigner) (target value : Term)
  | call (target : Term) (args : List Term)
  | index (target key : Term)
  | field (target : Term) (x : Ident)
  | list (items : List Term)
  | tuple (items : List Term)

def Unary.build (operand : Node) : Unary → Expr Node
  | minus => .prefixOp .minus operand
  | plus => .prefixOp .plus operand
  | tilde => .prefixOp .tilde operand
  | not => .not operand
  | ref => .ref operand
  | deref => .deref operand

def Binary.build (left right : Node) : Binary → Expr Node
  | symbol s => .infixOp s left right
  | and => .and left right
  | or => .or left right

def Assigner.build (target value : Node) : Assigner → Expr Node
  | plain => .assign target value
  | plus => .compoundAssign .plus target value
  | minus => .compoundAssign .minus target value
  | star => .compoundAssign .star target value
  | slash => .compoundAssign .slash target value

/-- The node is the expression, at whatever positions. -/
inductive Term.Describes : Term → Node → Prop where
  | null (pos : Position) : Describes .null (.make pos .null)
  | bool (pos : Position) (b : Bool) : Describes (.bool b) (.make pos (.bool b))
  | int (pos : Position) (i : Int64) (h : 0 ≤ i.toInt) : Describes (.int i h) (.make pos (.int i))
  | str (pos : Position) (s : String) : Describes (.str s) (.make pos (.str s))
  | name (pos : Position) (x : Ident) : Describes (.name x) (.make pos (.identifier x.word))
  | this (pos : Position) : Describes .this (.make pos .this)
  | unary (pos : Position) (op : Unary) {x : Term} {m : Node} :
      Describes x m → Describes (.unary op x) (.make pos (op.build m))
  | binary (pos : Position) (op : Binary) {l r : Term} {m n : Node} :
      Describes l m → Describes r n → Describes (.binary op l r) (.make pos (op.build m n))
  | assign (pos : Position) (op : Assigner) {t v : Term} {m n : Node} :
      Describes t m → Describes v n → Describes (.assign op t v) (.make pos (op.build m n))
  | call (pos : Position) {t : Term} {args : List Term} {m : Node} {ns : List Node} :
      Describes t m → List.Forall₂ Describes args ns →
        Describes (.call t args) (.make pos (.invoke m ns))
  | index (pos : Position) {t k : Term} {m n : Node} :
      Describes t m → Describes k n → Describes (.index t k) (.make pos (.index m n))
  | field (pos : Position) (x : Ident) {t : Term} {m : Node} :
      Describes t m → Describes (.field t x) (.make pos (.field m x.word))
  | list (pos : Position) {items : List Term} {ns : List Node} :
      List.Forall₂ Describes items ns → Describes (.list items) (.make pos (.list ns))
  | tuple (pos : Position) {items : List Term} {ns : List Node} :
      List.Forall₂ Describes items ns → Describes (.tuple items) (.make pos (.tuple ns))

namespace Lexeme

def leftParen : Lexeme := ⟨.leftParen, "("⟩
def rightParen : Lexeme := ⟨.rightParen, ")"⟩
def leftBracket : Lexeme := ⟨.leftBracket, "["⟩
def rightBracket : Lexeme := ⟨.rightBracket, "]"⟩
def comma : Lexeme := ⟨.comma, ","⟩
def dot : Lexeme := ⟨.dot, "."⟩
def keyword (k : Keyword) : Lexeme := ⟨.keyword k, k.word⟩
def operator (o : Operator) : Lexeme := ⟨.operator o, o.symbol⟩
def ident (x : Ident) : Lexeme := ⟨.identifier, x.word⟩

end Lexeme

def Unary.lexeme : Unary → Lexeme
  | minus => .operator .minus
  | plus => .operator .plus
  | tilde => .operator .tilde
  | not => .keyword .notKw
  | ref => .keyword .refKw
  | deref => .keyword .derefKw

def Binary.lexeme : Binary → Lexeme
  | symbol (.operator o) => .operator o
  | symbol .equal => ⟨.equal, "=="⟩
  | symbol .notEqual => ⟨.notEqual, "!="⟩
  | and => .keyword .andKw
  | or => .keyword .orKw

def Assigner.lexeme : Assigner → Lexeme
  | plain => ⟨.assign, "="⟩
  | plus => ⟨.compoundAssign .plus, "+="⟩
  | minus => ⟨.compoundAssign .minus, "-="⟩
  | star => ⟨.compoundAssign .star, "*="⟩
  | slash => ⟨.compoundAssign .slash, "/="⟩

namespace Binary

def level : Binary → Precedence
  | symbol (.operator o) => .ofOperator o
  | symbol .equal | symbol .notEqual => .equality
  | and => .and
  | or => .or

/-- The operators that group from the right. -/
def groupsRight : Binary → Bool
  | symbol (.operator .caret) => true
  | _ => false

/-- How tightly the left operand must bind to need no parentheses. -/
def leftLevel (op : Binary) : Precedence :=
  if op.groupsRight then op.level.next else op.level

/-- How tightly the right operand must bind to need no parentheses. -/
def rightLevel (op : Binary) : Precedence :=
  if op.groupsRight then op.level else op.level.next

end Binary

/-- Parentheses around what does not bind tightly enough. -/
def enclosed (prec level : Precedence) (ls : List Lexeme) : List Lexeme :=
  if prec ≤ level then ls else .leftParen :: (ls ++ [.rightParen])

namespace Term

/-- How tightly an expression binds. -/
def level : Term → Precedence
  | .assign .. => .assignment
  | .binary op .. => op.level
  | .unary .. => .unary
  | .call .. | .index .. | .field .. => .call
  | _ => .primary

mutual

/-- The tokens of an expression. -/
def lexemes : Term → List Lexeme
  | .null => [.keyword .nullKw]
  | .bool b => [.keyword (if b then .trueKw else .falseKw)]
  | .int i _ => [⟨.int, String.ofList (Decimal.digits i.toInt.toNat)⟩]
  | .str s => [⟨.string, Scan.quoted s⟩]
  | .name x => [.ident x]
  | .this => [.keyword .thisKw]
  | .unary op x => op.lexeme :: enclosed .unary x.level x.lexemes
  | .binary op l r =>
    enclosed op.leftLevel l.level l.lexemes ++ op.lexeme :: enclosed op.rightLevel r.level r.lexemes
  | .assign op t v => enclosed .or t.level t.lexemes ++ op.lexeme :: v.lexemes
  | .call t args =>
    enclosed .call t.level t.lexemes ++ .leftParen :: (separated args ++ [.rightParen])
  | .index t k => enclosed .call t.level t.lexemes ++ .leftBracket :: (k.lexemes ++ [.rightBracket])
  | .field t x => enclosed .call t.level t.lexemes ++ [.dot, .ident x]
  | .list items => .leftBracket :: (separated items ++ [.rightBracket])
  | .tuple items =>
    .leftParen ::
      (separated items ++ if items.length = 1 then [.comma, .rightParen] else [.rightParen])

/-- Expressions with commas between them. -/
def separated : List Term → List Lexeme
  | [] => []
  | t :: ts => t.lexemes ++ continued ts

/-- Further expressions, with a comma before each. -/
def continued : List Term → List Lexeme
  | [] => []
  | t :: ts => .comma :: (t.lexemes ++ continued ts)

end

/-- The tokens of an expression where only operators are expected that bind at least as tightly as
`prec`. -/
def printed (prec : Precedence) (t : Term) : List Lexeme :=
  enclosed prec t.level t.lexemes

def print (t : Term) : String :=
  spaced t.lexemes

def parts : Term → List Term
  | .unary _ x | .field x _ => [x]
  | .binary _ x y | .assign _ x y | .index x y => [x, y]
  | .call x xs => x :: xs
  | .list xs | .tuple xs => xs
  | _ => []

theorem sizeOf_parts {t x : Term} (hx : x ∈ t.parts) : sizeOf x < sizeOf t := by
  cases t with
  | null | bool | int | str | name | this => cases hx
  | unary op y =>
    cases List.mem_singleton.1 hx
    simp only [unary.sizeOf_spec]
    omega
  | field y name =>
    cases List.mem_singleton.1 hx
    simp only [field.sizeOf_spec]
    omega
  | binary op y z | assign op y z | index y z =>
    simp only [parts, List.mem_cons, List.not_mem_nil, or_false] at hx
    simp only [binary.sizeOf_spec, assign.sizeOf_spec, index.sizeOf_spec]
    rcases hx with rfl | rfl <;> omega
  | call y ys =>
    rw [call.sizeOf_spec]
    rcases List.mem_cons.1 hx with rfl | hx
    · omega
    · have := List.sizeOf_lt_of_mem hx
      omega
  | list ys | tuple ys =>
    have : sizeOf x < sizeOf ys := List.sizeOf_lt_of_mem hx
    simp only [list.sizeOf_spec, tuple.sizeOf_spec]
    omega

theorem induction_parts {motive : Term → Prop}
    (step : ∀ t : Term, (∀ x ∈ t.parts, motive x) → motive t) (t : Term) :
    motive t := by
  induction h : sizeOf t using Nat.strongRecOn generalizing t with
  | ind k ih =>
    refine step t fun x hx => ih (sizeOf x) ?_ x rfl
    have := sizeOf_parts hx
    omega

theorem proper_ident (x : Ident) : (Lexeme.ident x).Proper := by
  obtain ⟨word, hvalid⟩ := x
  unfold isIdent at hvalid
  split at hvalid
  · cases hvalid
  · rename_i c cs hword
    simp only [Bool.and_eq_true, List.all_eq_true, Option.isNone_iff_eq_none] at hvalid
    have hproper := Scan.proper_word hword hvalid.1.1 hvalid.1.2
    rw [Scan.wordKind, hvalid.2] at hproper
    exact hproper

theorem proper_operator (o : Operator) : (Lexeme.operator o).Proper :=
  Scan.proper_symbol rfl (by cases o <;> decide)

theorem proper_unary (op : Unary) : op.lexeme.Proper := by
  cases op with
  | minus | plus | tilde => exact proper_operator _
  | not | ref | deref => exact Scan.proper_keyword _

theorem proper_binary (op : Binary) : op.lexeme.Proper := by
  cases op with
  | symbol s =>
    cases s with
    | operator o => exact proper_operator o
    | equal | notEqual => exact Scan.proper_symbol rfl (by decide)
  | and | or => exact Scan.proper_keyword _

theorem proper_assigner (op : Assigner) : op.lexeme.Proper := by
  cases op <;> exact Scan.proper_symbol rfl (by decide)

theorem proper_enclosed {prec level : Precedence} {ls : List Lexeme} (hls : ∀ l ∈ ls, l.Proper) :
    ∀ l ∈ enclosed prec level ls, l.Proper := by
  unfold enclosed
  split
  · exact hls
  · simp only [List.forall_mem_cons, List.forall_mem_append]
    exact ⟨Scan.proper_symbol rfl (by decide), hls, Scan.proper_symbol rfl (by decide), nofun⟩

theorem proper_continued {ts : List Term} (hts : ∀ t ∈ ts, ∀ l ∈ t.lexemes, l.Proper) :
    ∀ l ∈ continued ts, l.Proper := by
  induction ts with
  | nil => exact nofun
  | cons t ts ih =>
    obtain ⟨ht, hts⟩ := List.forall_mem_cons.1 hts
    simp only [continued, List.forall_mem_cons, List.forall_mem_append]
    exact ⟨Scan.proper_symbol rfl (by decide), ht, ih hts⟩

theorem proper_separated {ts : List Term} (hts : ∀ t ∈ ts, ∀ l ∈ t.lexemes, l.Proper) :
    ∀ l ∈ separated ts, l.Proper := by
  cases ts with
  | nil => exact nofun
  | cons t ts =>
    obtain ⟨ht, hts⟩ := List.forall_mem_cons.1 hts
    simp only [separated, List.forall_mem_append]
    exact ⟨ht, proper_continued hts⟩

theorem proper_lexemes (t : Term) : ∀ l ∈ t.lexemes, l.Proper := by
  have hpunct : ∀ l ∈ [Lexeme.leftParen, .rightParen, .leftBracket, .rightBracket, .comma, .dot],
      l.Proper := by
    simp only [List.forall_mem_cons]
    exact ⟨Scan.proper_symbol rfl (by decide), Scan.proper_symbol rfl (by decide),
      Scan.proper_symbol rfl (by decide),
      Scan.proper_symbol rfl (by decide), Scan.proper_symbol rfl (by decide),
      Scan.proper_symbol rfl (by decide), nofun⟩
  simp only [List.forall_mem_cons] at hpunct
  obtain ⟨hleft, hright, hopen, hclose, hcomma, hdot, _⟩ := hpunct
  induction t using induction_parts with
  | step t ih =>
    cases t with
    | null | this | bool => exact List.forall_mem_singleton.2 (Scan.proper_keyword _)
    | int i h => exact List.forall_mem_singleton.2 (Scan.proper_digits _)
    | str s => exact List.forall_mem_singleton.2 (Scan.proper_quoted s)
    | name x => exact List.forall_mem_singleton.2 (proper_ident x)
    | unary op x =>
      exact List.forall_mem_cons.2 ⟨proper_unary op, proper_enclosed (ih x (by simp [parts]))⟩
    | binary op l r =>
      simp only [lexemes, List.forall_mem_cons, List.forall_mem_append]
      exact ⟨proper_enclosed (ih l (by simp [parts])), proper_binary op,
        proper_enclosed (ih r (by simp [parts]))⟩
    | assign op x v =>
      simp only [lexemes, List.forall_mem_cons, List.forall_mem_append]
      exact ⟨proper_enclosed (ih x (by simp [parts])), proper_assigner op, ih v (by simp [parts])⟩
    | call x args =>
      simp only [lexemes, List.forall_mem_cons, List.forall_mem_append]
      refine ⟨proper_enclosed (ih x (by simp [parts])), hleft, proper_separated fun y hy => ?_,
        hright, nofun⟩
      exact ih y (by simp [parts, hy])
    | index x k =>
      simp only [lexemes, List.forall_mem_cons, List.forall_mem_append]
      exact ⟨proper_enclosed (ih x (by simp [parts])), hopen, ih k (by simp [parts]), hclose, nofun⟩
    | field x name =>
      simp only [lexemes, List.forall_mem_cons, List.forall_mem_append]
      exact ⟨proper_enclosed (ih x (by simp [parts])), hdot, proper_ident name, nofun⟩
    | list items =>
      simp only [lexemes, List.forall_mem_cons, List.forall_mem_append]
      exact ⟨hopen, proper_separated ih, hclose, nofun⟩
    | tuple items =>
      simp only [lexemes, List.forall_mem_cons, List.forall_mem_append]
      refine ⟨hleft, proper_separated ih, ?_⟩
      split
      · exact List.forall_mem_cons.2 ⟨hcomma, List.forall_mem_singleton.2 hright⟩
      · exact List.forall_mem_singleton.2 hright

end Term
end Refscript
