import Refscript.Source.Token
import Refscript.Text.Letter

/-!
# Refscript.Source.Scan

From program text to tokens. Blanks and comments are skipped, then the longest token at hand is
taken; a character that starts no token becomes a token of its own, so nothing of the text is lost.

`tokens` always ends with one `endOfInput` token and is total, because every other token takes at
least one character (`tokenLength_pos`).
-/

namespace Refscript
namespace Scan

/-- A place in the text: what is left, the byte offset, the line and the offset at which the line
starts. -/
structure Cursor where
  rest : List Char
  offset : Nat
  line : Nat
  lineStart : Nat
deriving DecidableEq, Repr

def Cursor.ofText (text : List Char) : Cursor :=
  ⟨text, 0, 1, 0⟩

def Cursor.pos (c : Cursor) : Position :=
  ⟨c.line, c.offset - c.lineStart + 1⟩

/-- The number of bytes of a text in UTF-8. -/
def byteLength (cs : List Char) : Nat :=
  cs.foldr (fun c n => c.utf8Size + n) 0

/-- Skips blanks and comments. A comment runs from `#` to the end of its line. -/
def skipBlanks (inComment : Bool) (offset line lineStart : Nat) : List Char → Cursor
  | [] => ⟨[], offset, line, lineStart⟩
  | c :: cs =>
    if c = '\n' then skipBlanks false (offset + 1) (line + 1) (offset + 1) cs
    else if inComment then skipBlanks true (offset + c.utf8Size) line lineStart cs
    else if c = ' ' ∨ c = '\r' ∨ c = '\t' then skipBlanks false (offset + 1) line lineStart cs
    else if c = '#' then skipBlanks true (offset + 1) line lineStart cs
    else ⟨c :: cs, offset, line, lineStart⟩

def Cursor.skip (c : Cursor) : Cursor :=
  skipBlanks false c.offset c.line c.lineStart c.rest

/-- The tokens made of punctuation, longer ones before their own beginnings. -/
def symbols : List (String × TokenKind) :=
  [("<=>", .operator .spaceship), (">>>", .operator .shiftRightLogical),
    ("..", .dotDot), ("+=", .compoundAssign .plus), ("*=", .compoundAssign .star),
    ("-=", .compoundAssign .minus), ("->", .operator .arrow), ("//", .operator .doubleSlash),
    ("/=", .compoundAssign .slash), ("==", .equal), ("!=", .notEqual), ("<<", .operator .shiftLeft),
    ("<>", .operator .diamond), ("<=", .operator .lessEqual), (">>", .operator .shiftRight),
    (">=", .operator .greaterEqual),
    ("(", .leftParen), (")", .rightParen), ("[", .leftBracket), ("]", .rightBracket),
    ("\x7b", .leftBrace), ("\x7d", .rightBrace), (",", .comma), (";", .semicolon), (":", .colon),
    (".", .dot), ("=", .assign), ("+", .operator .plus), ("-", .operator .minus),
    ("*", .operator .star), ("/", .operator .slash), ("%", .operator .percent),
    ("^", .operator .caret), ("&", .operator .ampersand), ("|", .operator .bar),
    ("~", .operator .tilde), ("<", .operator .less), (">", .operator .greater),
    ("!", .error .bang)]

/-- The punctuation token at the start of a text, with its length. -/
def symbolAt (cs : List Char) : Option (TokenKind × Nat) :=
  symbols.findSome? fun (s, kind) => if s.toList.isPrefixOf cs then some (kind, s.length) else none

def isNameStart (c : Char) : Bool :=
  Text.isLetter c || c == '_'

def isNamePart (c : Char) : Bool :=
  Text.isLetter c || Text.isNumeral c || c == '_'

/-- The length of a string's text after the opening quote, up to and including the closing one, and
whether there is one. A backslash hides the character after it. -/
def stringLength (escaped : Bool) : List Char → Nat × Bool
  | [] => (0, false)
  | c :: cs =>
    if !escaped && c == '"' then (1, true)
    else
      let (n, closed) := stringLength (!escaped && c == '\\') cs
      (n + 1, closed)

/-- The length of a number: digits, and a point with more digits if one follows. -/
def numberLength (cs : List Char) : TokenKind × Nat :=
  let whole := cs.takeWhile Char.isDigit
  match cs.dropWhile Char.isDigit with
  | '.' :: more =>
    let fraction := more.takeWhile Char.isDigit
    if fraction.isEmpty then (.int, whole.length) else (.float, whole.length + 1 + fraction.length)
  | _ => (.int, whole.length)

/-- The kind of the word at the start of a text, with its length. -/
def wordAt (cs : List Char) : TokenKind × Nat :=
  let word := cs.takeWhile isNamePart
  match Keyword.ofWord? (String.ofList word) with
  | some k => (.keyword k, word.length)
  | none => (.identifier, word.length)

/-- The kind and the length, in characters, of the token that starts with `c` and goes on in
`cs`. -/
def tokenAt (c : Char) (cs : List Char) : TokenKind × Nat :=
  if c = '"' then
    let (n, closed) := stringLength false cs
    (if closed then .string else .error .unterminatedString, n + 1)
  else if c.isDigit then numberLength (c :: cs)
  else if isNameStart c then wordAt (c :: cs)
  else (symbolAt (c :: cs)).getD (.error (.unexpected c), 1)

/-- The line, and the offset of its start, after the characters of a string. An escaped line break
does not start a line. -/
def linesIn (escaped : Bool) (offset line lineStart : Nat) : List Char → Nat × Nat
  | [] => (line, lineStart)
  | c :: cs =>
    let next := offset + c.utf8Size
    if escaped then linesIn false next line lineStart cs
    else if c = '\n' then linesIn false next (line + 1) next cs
    else linesIn (c == '\\') next line lineStart cs

/-- The next token and the place after it. -/
def next (start : Cursor) : Token × Cursor :=
  let c := start.skip
  match c.rest with
  | [] => (⟨.endOfInput, c.offset, c.offset, c.pos, ""⟩, c)
  | ch :: cs =>
    let (kind, n) := tokenAt ch cs
    let taken := c.rest.take n
    let stop := c.offset + byteLength taken
    let (line, lineStart) := linesIn false c.offset c.line c.lineStart taken
    (⟨kind, c.offset, stop, c.pos, String.ofList taken⟩, ⟨c.rest.drop n, stop, line, lineStart⟩)

theorem symbolAt_pos {cs : List Char} {kind : TokenKind} {n : Nat}
    (h : symbolAt cs = some (kind, n)) :
    0 < n := by
  obtain ⟨⟨s, k⟩, hm, hs⟩ := List.exists_of_findSome?_eq_some h
  have hpos : ∀ p ∈ symbols, 0 < p.1.length := by decide
  have := hpos _ hm
  split at hs <;> simp_all

theorem length_takeWhile_pos (p : Char → Bool) {c : Char} (cs : List Char) (h : p c = true) :
    0 < ((c :: cs).takeWhile p).length := by
  simp [h]

/-- Every token takes at least one character. -/
theorem tokenLength_pos (c : Char) (cs : List Char) : 0 < (tokenAt c cs).2 := by
  unfold tokenAt
  split
  · simp
  split
  · rename_i h
    have := length_takeWhile_pos Char.isDigit cs h
    unfold numberLength
    simp only
    split
    · split <;> simp <;> omega
    · exact this
  split
  · rename_i h
    have hp : isNamePart c = true := by
      simp only [isNameStart, isNamePart, Bool.or_eq_true] at h ⊢
      rcases h with h | h <;> simp [h]
    have := length_takeWhile_pos isNamePart cs hp
    unfold wordAt
    simp only
    split <;> exact this
  · cases hs : symbolAt (c :: cs) with
    | none => simp
    | some p => simpa using symbolAt_pos hs

theorem length_skipBlanks (inComment : Bool) (offset line lineStart : Nat) (cs : List Char) :
    (skipBlanks inComment offset line lineStart cs).rest.length ≤ cs.length := by
  induction cs generalizing inComment offset line lineStart with
  | nil => simp [skipBlanks]
  | cons c cs ih =>
    simp only [skipBlanks]
    split <;> (try split) <;> (try split) <;> (try split) <;>
      first
        | exact Nat.le_succ_of_le (ih ..)
        | exact Nat.le_refl _

theorem length_next (c : Cursor) (h : (next c).1.kind ≠ .endOfInput) :
    (next c).2.rest.length < c.rest.length := by
  have hs := length_skipBlanks false c.offset c.line c.lineStart c.rest
  unfold next at h ⊢
  simp only [Cursor.skip] at h ⊢
  split at h
  · simp at h
  · rename_i ch cs hr
    have := tokenLength_pos ch cs
    simp only [hr, List.length_drop, List.length_cons] at hs ⊢
    omega

/-- The tokens from a place on, up to and including the end of the text. -/
def tokensFrom (c : Cursor) : List Token :=
  let r := next c
  if _h : r.1.kind = .endOfInput then [r.1] else r.1 :: tokensFrom r.2
termination_by c.rest.length
decreasing_by exact length_next c _h

/-- All tokens of a text. -/
def tokens (source : String) : List Token :=
  tokensFrom (.ofText source.toList)

end Scan
end Refscript
