/-!
# Refscript.Source.Operator

The operator symbols of the language. Each of them may be overloaded by a type; `==` and `!=` are
not among them.
-/

namespace Refscript

inductive Operator where
  | plus | minus | star | slash | doubleSlash | percent | caret
  | ampersand | bar | tilde
  | shiftLeft | shiftRight | shiftRightLogical
  | less | lessEqual | greater | greaterEqual | spaceship
  | diamond | arrow
deriving DecidableEq, Inhabited, Repr

namespace Operator

def symbol : Operator → String
  | plus => "+"
  | minus => "-"
  | star => "*"
  | slash => "/"
  | doubleSlash => "//"
  | percent => "%"
  | caret => "^"
  | ampersand => "&"
  | bar => "|"
  | tilde => "~"
  | shiftLeft => "<<"
  | shiftRight => ">>"
  | shiftRightLogical => ">>>"
  | less => "<"
  | lessEqual => "<="
  | greater => ">"
  | greaterEqual => ">="
  | spaceship => "<=>"
  | diamond => "<>"
  | arrow => "->"

/-- Every operator, once. -/
def all : List Operator :=
  [plus, minus, star, slash, doubleSlash, percent, caret, ampersand, bar, tilde,
    shiftLeft, shiftRight,
    shiftRightLogical, less, lessEqual, greater, greaterEqual, spaceship, diamond, arrow]

def ofSymbol? (s : String) : Option Operator :=
  all.find? fun o => o.symbol == s

end Operator

/-- What may stand between two operands of a binary expression, `and` and `or` apart. -/
inductive InfixSymbol where
  | operator (o : Operator)
  | equal
  | notEqual
deriving DecidableEq, Inhabited, Repr

namespace InfixSymbol

def text : InfixSymbol → String
  | operator o => o.symbol
  | equal => "=="
  | notEqual => "!="

def ofText? (s : String) : Option InfixSymbol :=
  if s = "==" then some equal
  else if s = "!=" then some notEqual
  else (Operator.ofSymbol? s).map operator

end InfixSymbol
end Refscript
