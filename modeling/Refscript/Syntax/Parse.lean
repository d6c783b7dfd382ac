import Refscript.Source.Scan
import Refscript.Syntax.Precedence
import Refscript.Syntax.Tree

/-!
# Refscript.Syntax.Parse

From tokens to the tree of a program, by precedence climbing. An error is reported and reading goes
on at the next statement, so the tree may be partial.

Every rule takes the parser for the expressions inside it. `parsePrecedence` closes the recursion;
its fuel bounds the nesting and the length of every list, and `parse` gives it more than there are
tokens. Each level and each turn of a loop takes a token, so `exhausted` does not arise.
-/

namespace Refscript
namespace Parse

/-- The last token taken, the token at hand, those after it, and what was reported so far. -/
structure State where
  previous : Token
  current : Token
  rest : List Token
  diagnostics : List Diagnostic

inductive Failure where
  | grammar (d : Diagnostic)
  | exhausted

abbrev Parser := EStateM Failure State

/-- The first proper token, after reporting the malformed ones before it. After the last token comes
`eof`. -/
def nextToken (eof : Token) : List Token → List Diagnostic × Token × List Token
  | [] => ([], eof, [])
  | t :: ts =>
    match t.kind with
    | .error e =>
      let (ds, u, rest) := nextToken eof ts
      (⟨t.pos, .lexical e⟩ :: ds, u, rest)
    | _ => ([], t, ts)

theorem length_nextToken (eof t : Token) (ts : List Token) :
    (nextToken eof (t :: ts)).2.2.length ≤ ts.length := by
  induction ts generalizing t with
  | nil => simp only [nextToken]; split <;> simp
  | cons u us ih =>
    rw [nextToken]
    split
    · exact Nat.le_succ_of_le (ih u)
    · exact Nat.le_refl _

def State.advance (s : State) : State :=
  let (ds, t, rest) := nextToken s.current s.rest
  ⟨s.current, t, rest, s.diagnostics ++ ds⟩

/-- Taking a token leaves fewer of them. -/
theorem State.length_advance {s : State} (h : s.rest ≠ []) :
    s.advance.rest.length < s.rest.length := by
  unfold State.advance
  cases hr : s.rest with
  | nil => exact absurd hr h
  | cons t ts => exact Nat.lt_succ_of_le (length_nextToken s.current t ts)

def advance : Parser Unit :=
  modify State.advance

def previous : Parser Token :=
  return (← get).previous

def current : Parser Token :=
  return (← get).current

def check (kind : TokenKind) : Parser Bool :=
  return (← current).kind == kind

/-- Takes the token at hand if it is of the given kind. -/
def accept (kind : TokenKind) : Parser Bool := do
  if ← check kind then
    advance
    return true
  else
    return false

/-- Whether the token at hand is the given word, used as a name. -/
def checkName (word : String) : Parser Bool := do
  let t ← current
  return t.kind == .identifier && t.lexeme == word

def unmetAt (t : Token) (e : Expectation) : Diagnostic :=
  ⟨t.pos, .unmet (if t.kind = .endOfInput then none else some t.lexeme) e⟩

def failAt {α : Type} (t : Token) (e : Expectation) : Parser α :=
  throw (.grammar (unmetAt t e))

def expect (kind : TokenKind) (e : Expectation) : Parser Unit := do
  if !(← accept kind) then failAt (← current) e

def expectName (e : Expectation) : Parser String := do
  expect .identifier e
  return (← previous).lexeme

/-- Takes tokens of the given kinds as long as there are any. -/
def State.skip (kinds : List TokenKind) (s : State) : State :=
  if kinds.contains s.current.kind then
    if _h : s.rest = [] then s.advance else s.advance.skip kinds
  else s
termination_by s.rest.length
decreasing_by exact State.length_advance _h

def skipKinds (kinds : List TokenKind) : Parser Unit :=
  modify (State.skip kinds)

def skipSemicolons : Parser Unit :=
  skipKinds [.semicolon]

/-- Tokens at which reading may go on after an error. -/
def startsStatement : TokenKind → Bool
  | .keyword .varKw | .keyword .fnKw | .keyword .typeKw | .keyword .ifKw | .keyword .whileKw
  | .keyword .matchKw | .keyword .retKw | .rightBrace => true
  | _ => false

/-- Skips to the end of a statement or to a token that starts one. -/
def State.synchronize (s : State) : State :=
  if s.current.kind = .endOfInput ∨ s.previous.kind = .semicolon ∨
    startsStatement s.current.kind then s
  else if _h : s.rest = [] then s.advance
  else s.advance.synchronize
termination_by s.rest.length
decreasing_by exact State.length_advance _h

/-- Runs a parser; an error in it is reported, and reading goes on at the next statement. -/
def recovering (p : Parser Node) : Parser (Option Node) := fun s =>
  match p s with
  | .ok node s => .ok (some node) s
  | .error (.grammar d) s =>
    .ok none { s with diagnostics := s.diagnostics ++ [d] }.synchronize
  | .error .exhausted s => .error .exhausted s

/-- The text that the body of a string literal stands for. -/
def unescape : List Char → Option (List Char)
  | [] => some []
  | '\\' :: [] => none
  | '\\' :: c :: cs => (unescape cs).map (escapedChar c :: ·)
  | c :: cs => (unescape cs).map (c :: ·)
where
  escapedChar (c : Char) : Char :=
    if c = 'n' then '\n'
    else if c = 't' then '\t'
    else if c = 'r' then '\r'
    else if c = '0' then Char.ofNat 0
    else c

/-- The text between the quotes of a string token. -/
def quotedBody (lexeme : String) : List Char :=
  (lexeme.toList.drop 1).dropLast

def stringLiteral (t : Token) : Parser Node :=
  match unescape (quotedBody t.lexeme) with
  | some cs => return .make t.pos (.str (String.ofList cs))
  | none => failAt t .completeEscape

def intLiteral (t : Token) : Parser Node :=
  match Number.fit? (Decimal.natOfDigits t.lexeme.toList) with
  | some i => return .make t.pos (.int i)
  | none => failAt t .integerInRange

def floatLiteral (t : Token) : Parser Node :=
  match Decimal.readDouble? t.lexeme.toList with
  | some d => return .make t.pos (.float d)
  | none => failAt t .floatLiteral

section Rules

variable (sub : Precedence → Parser Node)

def expression : Parser Node :=
  sub .assignment

/-- Expressions separated by commas up to `close`, at least one; a comma may stand before
`close`. -/
def elements (close : TokenKind) : Nat → Parser (List Node)
  | 0 => throw .exhausted
  | fuel + 1 => do
    let first ← expression sub
    if !(← accept .comma) || (← check close) then
      return [first]
    else
      return first :: (← elements close fuel)

def commaSeparated (fuel : Nat) (close : TokenKind) (e : Expectation) : Parser (List Node) := do
  let items ← if ← check close then pure [] else elements sub close fuel
  expect close e
  return items

/-- Parentheses: the empty tuple, a single expression as it is, or a tuple. -/
def grouping (fuel : Nat) (t : Token) : Parser Node := do
  if ← accept .rightParen then
    return .make t.pos (.tuple [])
  let first ← expression sub
  if ← accept .rightParen then
    return first
  let more ←
    if ← accept .comma then
      if ← check .rightParen then pure [] else elements sub .rightParen fuel
    else pure []
  expect .rightParen .tupleEnd
  return .make t.pos (.tuple (first :: more))

/-- Statements up to the closing brace or the end. -/
def statements : Nat → Parser (List Node)
  | 0 => throw .exhausted
  | fuel + 1 => do
    let t ← current
    if t.kind = .rightBrace ∨ t.kind = .endOfInput then
      return []
    let item ← recovering (expression sub)
    skipSemicolons
    return item.toList ++ (← statements fuel)

def scope (fuel : Nat) (t : Token) : Parser Node := do
  let items ← statements sub fuel
  expect .rightBrace .blockEnd
  return .make t.pos (.scope items)

def unary (t : Token) (build : Node → Expr Node) : Parser Node := do
  let operand ← sub .unary
  return .make t.pos (build operand)

/-- The right operand binds tighter than the operator, except that `^` takes another power. -/
def rightPrecedence (kind : TokenKind) : Precedence :=
  if kind = .operator .caret then .power else (Precedence.ofToken kind).next

def binary (t : Token) (build : Node → Expr Node) : Parser Node := do
  let right ← sub (rightPrecedence t.kind)
  return .make t.pos (build right)

def call (fuel : Nat) (t : Token) (target : Node) : Parser Node := do
  let args ← commaSeparated sub fuel .rightParen .argumentsEnd
  return .make t.pos (.invoke target args)

def index (t : Token) (target : Node) : Parser Node := do
  let key ← expression sub
  expect .rightBracket .indexEnd
  return .make t.pos (.index target key)

def field (t : Token) (target : Node) : Parser Node := do
  let name ← expectName .fieldName
  return .make t.pos (.field target name)

/-- Continues the expression `left` with the token `t` just taken. -/
def continueWith (fuel : Nat) (t : Token) (left : Node) : Parser Node :=
  match t.kind with
  | .leftParen => call sub fuel t left
  | .leftBracket => index sub t left
  | .dot => field t left
  | .keyword .orKw => binary sub t (.or left)
  | .keyword .andKw => binary sub t (.and left)
  | .equal => binary sub t (.infixOp .equal left)
  | .notEqual => binary sub t (.infixOp .notEqual left)
  | .operator o => binary sub t (.infixOp (.operator o) left)
  | _ => return left

/-- Continues an expression as long as the tokens bind at least as tightly as `prec`. -/
def continuations (prec : Precedence) : Nat → Node → Parser Node
  | 0, _ => throw .exhausted
  | fuel + 1, left => do
    if prec ≤ Precedence.ofToken (← current).kind then
      advance
      continuations prec fuel (← continueWith sub fuel (← previous) left)
    else
      return left

/-- An assignment to `target`, if one of the assignment tokens is at hand. -/
def assignment (target : Node) : Parser Node := do
  let t ← current
  match t.kind with
  | .assign =>
    advance
    let value ← expression sub
    return .make t.pos (.assign target value)
  | .compoundAssign op =>
    advance
    let value ← expression sub
    return .make t.pos (.compoundAssign op target value)
  | _ => return target

/-- Names with their initial values, separated by commas. -/
def bindings : Nat → Parser (List (Binding Node))
  | 0 => throw .exhausted
  | fuel + 1 => do
    let name ← expectName .variableName
    let pos := (← previous).pos
    let value ← if ← accept .assign then sub .or else pure (.make pos .null)
    if ← accept .comma then
      return ⟨name, value⟩ :: (← bindings fuel)
    else
      return [⟨name, value⟩]

/-- Parameter names, and whether the last one takes all further arguments. -/
def parameters : Nat → Parser (List String × Bool)
  | 0 => throw .exhausted
  | fuel + 1 => do
    let name ← expectName .parameterName
    let variadic ← accept .dotDot
    if ← accept .comma then
      if variadic then failAt (← current) .variadicLast
      let (names, variadic) ← parameters fuel
      return (name :: names, variadic)
    else
      return ([name], variadic)

/-- Parameters and body of a function. -/
def function (fuel : Nat) : Parser (Function Node) := do
  expect .leftParen .parametersStart
  let (params, variadic) ← if ← check .rightParen then pure ([], false) else parameters fuel
  expect .rightParen .parametersEnd
  let body ← expression sub
  return ⟨params, variadic, body⟩

def functionExpr (fuel : Nat) (t : Token) : Parser Node := do
  if ← accept .identifier then
    let name := (← previous).lexeme
    return .make t.pos (.fnDef name (← function sub fuel))
  else
    return .make t.pos (.fn (← function sub fuel))

/-- One member of a type, added to those before it. -/
def member (fuel : Nat) (body : TypeBody Node) : Parser (TypeBody Node) := do
  if ← accept (.keyword .fnKw) then
    let name ← expectName .methodName
    let f ← function sub fuel
    return { body with methods := body.methods ++ [⟨name, f⟩] }
  else if ← checkName "ctor" then
    advance
    if body.ctor.isSome then failAt (← previous) .singleConstructor
    let f ← function sub fuel
    return { body with ctor := some f }
  else if ← checkName "invoke" then
    advance
    if body.invoke.isSome then failAt (← previous) .singleInvoke
    let f ← function sub fuel
    return { body with invoke := some f }
  else if (← checkName "prefix") || (← checkName "infix") then
    advance
    let place := (← previous).lexeme
    if !(← current).kind.isOperator then failAt (← current) .operator
    advance
    let symbol := (← previous).lexeme
    let f ← function sub fuel
    if place = "prefix" then
      return { body with prefixOps := body.prefixOps ++ [⟨symbol, f⟩] }
    else
      return { body with infixOps := body.infixOps ++ [⟨symbol, f⟩] }
  else
    failAt (← current) .member

def members : Nat → TypeBody Node → Parser (TypeBody Node)
  | 0, _ => throw .exhausted
  | fuel + 1, body => do
    let t ← current
    if t.kind = .rightBrace ∨ t.kind = .endOfInput then
      return body
    let body ← member sub fuel body
    skipSemicolons
    members fuel body

def typeDefinition (fuel : Nat) (t : Token) : Parser Node := do
  let name ← expectName .typeName
  expect .leftBrace .typeBodyStart
  let body ← members sub fuel ⟨name, none, [], [], [], none⟩
  expect .rightBrace .typeBodyEnd
  return .make t.pos (.typeDef body)

/-- The expression after `el`, if there is one. -/
def elseBranch : Parser (Option Node) := do
  if ← accept (.keyword .elKw) then
    return some (← expression sub)
  else
    return none

def conditional (t : Token) : Parser Node := do
  let condition ← expression sub
  let pass ← expression sub
  let fail ← elseBranch sub
  return .make t.pos (.ifElse condition pass fail)

def loop (t : Token) : Parser Node := do
  let condition ← expression sub
  let body ← expression sub
  let otherwise ← elseBranch sub
  return .make t.pos (.whileElse condition body otherwise)

/-- The pattern of a case; the name `_` marks the default. -/
def pattern : Parser (Option Node) := do
  if ← checkName "_" then
    advance
    return none
  else
    return some (← sub .or)

def arms : Nat → Parser (List (Arm Node))
  | 0 => throw .exhausted
  | fuel + 1 => do
    let t ← current
    if t.kind = .rightBrace ∨ t.kind = .endOfInput then
      return []
    let pattern ← pattern sub
    expect .colon .patternEnd
    let body ← expression sub
    skipKinds [.comma, .semicolon]
    return ⟨t.pos, pattern, body⟩ :: (← arms fuel)

def matchCases (fuel : Nat) (t : Token) : Parser Node := do
  let scrutinee ← expression sub
  expect .leftBrace .matchStart
  let cases ← arms sub fuel
  expect .rightBrace .matchEnd
  return .make t.pos (.matchCases scrutinee cases)

/-- Tokens after which a `ret` has no value. -/
def endsReturn : TokenKind → Bool
  | .rightBrace | .semicolon | .keyword .elKw | .comma | .endOfInput => true
  | _ => false

def returnExpr (t : Token) : Parser Node := do
  if endsReturn (← current).kind then
    return .make t.pos (.ret none)
  else
    return .make t.pos (.ret (some (← expression sub)))

/-- The expression that starts with the token `t` just taken. -/
def startWith (fuel : Nat) (t : Token) : Parser Node :=
  match t.kind with
  | .leftParen => grouping sub fuel t
  | .leftBracket => return .make t.pos (.list (← commaSeparated sub fuel .rightBracket .listEnd))
  | .leftBrace => scope sub fuel t
  | .operator .minus => unary sub t (.prefixOp .minus)
  | .operator .plus => unary sub t (.prefixOp .plus)
  | .operator .tilde => unary sub t (.prefixOp .tilde)
  | .keyword .notKw => unary sub t .not
  | .keyword .refKw => unary sub t .ref
  | .keyword .derefKw => unary sub t .deref
  | .int => intLiteral t
  | .float => floatLiteral t
  | .string => stringLiteral t
  | .keyword .trueKw => return .make t.pos (.bool true)
  | .keyword .falseKw => return .make t.pos (.bool false)
  | .keyword .nullKw => return .make t.pos .null
  | .keyword .thisKw => return .make t.pos .this
  | .identifier => return .make t.pos (.identifier t.lexeme)
  | .keyword .varKw => return .make t.pos (.varDef (← bindings sub fuel))
  | .keyword .fnKw => functionExpr sub fuel t
  | .keyword .typeKw => typeDefinition sub fuel t
  | .keyword .ifKw => conditional sub t
  | .keyword .whileKw => loop sub t
  | .keyword .matchKw => matchCases sub fuel t
  | .keyword .retKw => returnExpr sub t
  | _ => failAt t .expression

end Rules

/-- An expression whose operators bind at least as tightly as the given precedence. -/
def parsePrecedence : Nat → Precedence → Parser Node
  | 0, _ => throw .exhausted
  | fuel + 1, prec => do
    advance
    let first ← startWith (parsePrecedence fuel) fuel (← previous)
    let node ← continuations (parsePrecedence fuel) prec fuel first
    if prec ≤ .assignment then assignment (parsePrecedence fuel) node else return node

/-- Statements up to the end of the text. A closing brace out of place is an error like any
other. -/
def program (sub : Precedence → Parser Node) : Nat → Parser (List Node)
  | 0 => throw .exhausted
  | fuel + 1 => do
    if (← current).kind = .endOfInput then
      return []
    let item ← recovering (expression sub)
    skipSemicolons
    return item.toList ++ (← program sub fuel)

/-- The state before the first token. -/
def State.ofTokens (tokens : List Token) : State :=
  let start : Token := ⟨.endOfInput, 0, 0, ⟨1, 1⟩, ""⟩
  ⟨start, start, tokens, []⟩

/-- Reads all tokens as a program. -/
def ofTokens (tokens : List Token) : EStateM.Result Failure State (List Node) :=
  (do advance; program (parsePrecedence (tokens.length + 1)) (tokens.length + 1) : Parser
    (List Node)).run
    (.ofTokens tokens)

end Parse

/-- A program as far as it could be read, with what was reported on the way. -/
structure Parsed where
  items : List Node
  diagnostics : List Diagnostic

/-- Reads a program text. -/
def parse (source : String) : Parsed :=
  match Parse.ofTokens (Scan.tokens source) with
  | .ok items s => ⟨items, s.diagnostics⟩
  | .error _ s => ⟨[], s.diagnostics⟩

end Refscript
