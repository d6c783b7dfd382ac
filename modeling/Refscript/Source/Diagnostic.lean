/-!
# Refscript.Source.Diagnostic

Positions in program text and the diagnostics that reading and lowering a program may report. A
diagnostic holds its cause; the wording is in `Problem.message`.
-/

namespace Refscript

/-- A line and a column, both counted from 1. Columns count bytes of the text's UTF-8 form. The
counts have no bound here; 32 bits hold them for texts below 4 GiB. -/
structure Position where
  line : Nat
  column : Nat
deriving DecidableEq, Inhabited, Repr

def Position.text (p : Position) : String :=
  s!"{p.line}:{p.column}"

/-- Text that is no token. -/
inductive LexicalError where
  | bang
  | unexpected (c : Char)
  | unterminatedString
deriving DecidableEq, Repr

def LexicalError.message : LexicalError → String
  | bang => "Unexpected character '!', use 'not' for negation."
  | unexpected c => "Unexpected character '" ++ c.toString ++ "'."
  | unterminatedString => "Unterminated string."

/-- What the grammar asked for at a token that does not fit. -/
inductive Expectation where
  | expression
  | integerInRange
  | floatLiteral
  | completeEscape
  | tupleEnd
  | listEnd
  | blockEnd
  | argumentsEnd
  | indexEnd
  | fieldName
  | variableName
  | parametersStart
  | variadicLast
  | parameterName
  | parametersEnd
  | typeName
  | typeBodyStart
  | methodName
  | singleConstructor
  | singleInvoke
  | operator
  | member
  | typeBodyEnd
  | matchStart
  | patternEnd
  | matchEnd
deriving DecidableEq, Repr

def Expectation.message : Expectation → String
  | expression => "Expected expression."
  | integerInRange => "Integer literal is too large."
  | floatLiteral => "Invalid float literal."
  | completeEscape => "Invalid escape at end of string."
  | tupleEnd => "Expected ')' after tuple elements."
  | listEnd => "Expected ']' after list elements."
  | blockEnd => "Expected '\x7d' after block."
  | argumentsEnd => "Expected ')' after arguments."
  | indexEnd => "Expected ']' after index."
  | fieldName => "Expected field name after '.'."
  | variableName => "Expected variable name."
  | parametersStart => "Expected '(' before parameters."
  | variadicLast => "Only the last parameter can be variadic."
  | parameterName => "Expected parameter name."
  | parametersEnd => "Expected ')' after parameters."
  | typeName => "Expected type name."
  | typeBodyStart => "Expected '\x7b' after type name."
  | methodName => "Expected method name."
  | singleConstructor => "Type already has a constructor."
  | singleInvoke => "Type already has an invoke member."
  | operator => "Expected an operator."
  | member => "Expected 'ctor', 'fn', 'prefix', 'infix' or 'invoke'."
  | typeBodyEnd => "Expected '\x7d' after type body."
  | matchStart => "Expected '\x7b' after match value."
  | patternEnd => "Expected ':' after match pattern."
  | matchEnd => "Expected '\x7d' after match arms."

/-- The cause of a diagnostic. In `unmet`, `found` is the text of the offending token, `none` at the
end. -/
inductive Problem where
  | lexical (e : LexicalError)
  | unmet (found : Option String) (e : Expectation)
  | constantCondition (value : Bool)
  | duplicateLocal (name : String)
  | invalidTarget
  | invalidReference
  | patternNotLiteral
  | duplicateCase (key : String)
  | tooLarge (function : String)
deriving DecidableEq, Repr

namespace Problem

/-- Warnings do not stop a program from being compiled. -/
def isWarning : Problem → Bool
  | constantCondition _ => true
  | _ => false

def message : Problem → String
  | lexical e => e.message
  | unmet none e => "Error at end: " ++ e.message
  | unmet (some lexeme) e => "Error at '" ++ lexeme ++ "': " ++ e.message
  | constantCondition value => s!"Condition is always {value}."
  | duplicateLocal name => s!"A local named '{name}' already exists in this function."
  | invalidTarget => "Invalid assignment target."
  | invalidReference => "'ref' expects a variable, an index or a field."
  | patternNotLiteral => "Match cases must be null, bool, int or string literals."
  | duplicateCase key => s!"Duplicate match case '{key}'."
  | tooLarge function => s!"Function '{function}' is too large to encode."

end Problem

structure Diagnostic where
  pos : Position
  problem : Problem
deriving DecidableEq, Repr

namespace Diagnostic

def isError (d : Diagnostic) : Bool :=
  !d.problem.isWarning

def text (d : Diagnostic) : String :=
  let severity := if d.isError then "error" else "warning"
  s!"[line {d.pos.text}] {severity}: " ++ d.problem.message

end Diagnostic

/-- The number of errors among diagnostics, warnings left out. -/
def errorCount (ds : List Diagnostic) : Nat :=
  ds.countP Diagnostic.isError

end Refscript
