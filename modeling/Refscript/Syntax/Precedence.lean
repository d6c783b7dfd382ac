import Refscript.Source.Token

/-!
# Refscript.Syntax.Precedence

How tightly the operators bind, from assignment, which binds least, to access and calls.
-/

namespace Refscript

inductive Precedence where
  | none
  | assignment
  | or
  | and
  | equality
  | comparison
  | concat
  | bitwiseOr
  | bitwiseXor
  | bitwiseAnd
  | shift
  | term
  | factor
  | power
  | unary
  | call
  | primary
deriving DecidableEq, Repr

namespace Precedence

/-- The place of a precedence in the order, from loose to tight. -/
def rank : Precedence → Nat
  | none => 0
  | assignment => 1
  | or => 2
  | and => 3
  | equality => 4
  | comparison => 5
  | concat => 6
  | bitwiseOr => 7
  | bitwiseXor => 8
  | bitwiseAnd => 9
  | shift => 10
  | term => 11
  | factor => 12
  | power => 13
  | unary => 14
  | call => 15
  | primary => 16

instance : LE Precedence where
  le a b := a.rank ≤ b.rank

instance : LT Precedence where
  lt a b := a.rank < b.rank

instance (a b : Precedence) : Decidable (a ≤ b) :=
  inferInstanceAs (Decidable (a.rank ≤ b.rank))

instance (a b : Precedence) : Decidable (a < b) :=
  inferInstanceAs (Decidable (a.rank < b.rank))

/-- The next tighter precedence; the tightest is its own. -/
def next : Precedence → Precedence
  | none => assignment
  | assignment => or
  | or => and
  | and => equality
  | equality => comparison
  | comparison => concat
  | concat => bitwiseOr
  | bitwiseOr => bitwiseXor
  | bitwiseXor => bitwiseAnd
  | bitwiseAnd => shift
  | shift => term
  | term => factor
  | factor => power
  | power => unary
  | unary => call
  | call => primary
  | primary => primary

def ofOperator : Operator → Precedence
  | .plus | .minus => term
  | .star | .slash | .doubleSlash | .percent => factor
  | .caret => power
  | .ampersand => bitwiseAnd
  | .bar => bitwiseOr
  | .tilde => bitwiseXor
  | .shiftLeft | .shiftRight | .shiftRightLogical => shift
  | .less | .lessEqual | .greater | .greaterEqual | .spaceship => comparison
  | .diamond | .arrow => concat

/-- The precedence at which a token continues an expression; `none` if it does not. -/
def ofToken : TokenKind → Precedence
  | .leftParen | .leftBracket | .dot => call
  | .keyword .orKw => or
  | .keyword .andKw => and
  | .equal | .notEqual => equality
  | .operator o => ofOperator o
  | _ => none

end Precedence
end Refscript
