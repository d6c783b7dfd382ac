import Refscript.Source.Diagnostic
import Refscript.Source.Operator

/-!
# Refscript.Source.Token

Tokens: what kind they are, where they stand in the text and the characters they are made of.
-/

namespace Refscript

inductive Keyword where
  | varKw | fnKw | typeKw
  | ifKw | elKw | whileKw | matchKw
  | refKw | derefKw
  | andKw | orKw | notKw
  | thisKw | retKw
  | trueKw | falseKw | nullKw
deriving DecidableEq, Repr

namespace Keyword

def word : Keyword → String
  | varKw => "var"
  | fnKw => "fn"
  | typeKw => "type"
  | ifKw => "if"
  | elKw => "el"
  | whileKw => "while"
  | matchKw => "match"
  | refKw => "ref"
  | derefKw => "deref"
  | andKw => "and"
  | orKw => "or"
  | notKw => "not"
  | thisKw => "this"
  | retKw => "ret"
  | trueKw => "true"
  | falseKw => "false"
  | nullKw => "null"

def all : List Keyword :=
  [varKw, fnKw, typeKw, ifKw, elKw, whileKw, matchKw, refKw, derefKw, andKw, orKw, notKw,
    thisKw, retKw,
    trueKw, falseKw, nullKw]

def ofWord? (s : String) : Option Keyword :=
  all.find? fun k => k.word == s

end Keyword

inductive TokenKind where
  | leftParen | rightParen
  | leftBracket | rightBracket
  | leftBrace | rightBrace
  | comma | semicolon | colon
  | dot | dotDot
  | assign
  /-- One of `+=`, `-=`, `*=` and `/=`. -/
  | compoundAssign (o : Operator)
  | operator (o : Operator)
  | equal | notEqual
  | identifier | string | int | float
  | keyword (k : Keyword)
  | error (e : LexicalError)
  | endOfInput
deriving DecidableEq, Repr

/-- Kinds that may name an overloadable operator. -/
def TokenKind.isOperator : TokenKind → Bool
  | .operator _ => true
  | _ => false

/-- A token with the bytes `start` up to `stop` of the text it was read from. -/
structure Token where
  kind : TokenKind
  start : Nat
  stop : Nat
  pos : Position
  lexeme : String
deriving DecidableEq, Repr

end Refscript
