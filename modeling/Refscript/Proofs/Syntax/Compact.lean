import Refscript.Proofs.Store.Datum
import Refscript.Proofs.Syntax.Reading

/-!
# Refscript.Proofs.Syntax.Compact

Texts in which tokens stand next to each other.

* `Written`: a text that is made of tokens, with blanks before some of them. Every token is judged
  with what comes after it in place, since that decides where it ends.
* `spelled_tokens`: such a text is scanned as these tokens.
* `Written.keyword`, `Written.digits`, `Written.quote`: words and numbers in front of what ends
  them, and strings in the form in which values are shown.
-/

namespace Refscript

open Scan Parse

/-- The text is made of tokens that are read as the lexemes. -/
inductive Written : List Lexeme → List Char → Prop where
  | nil : Written [] []
  | blank {ls : List Lexeme} {cs : List Char} (h : Written ls cs) : Written ls (' ' :: cs)
  | token {l : Lexeme} {ls : List Lexeme} {word cs : List Char} (hcut : Cut l.kind word cs)
      (hstart : ∀ c ∈ word.head?, isSkipped c = false)
        (halike : Lexeme.Alike ⟨l.kind, String.ofList word⟩ l)
      (h : Written ls cs) : Written (l :: ls) (word ++ cs)

namespace Scan

theorem spelled_tokensFrom {ls : List Lexeme} {cs : List Char} (h : Written ls cs) (c : Cursor)
    (hrest : c.rest = cs) : Spelled (tokensFrom c) (ls ++ [.endOfInput]) := by
  induction h generalizing c with
  | nil =>
    have hskip : c.skip.rest = [] := by rw [skip_nil hrest, hrest]
    rw [tokensFrom_of_end (next_of_end hskip) rfl]
    exact .cons (.refl .endOfInput) .nil
  | @blank ls cs _ ih =>
    have hnext : next c = next (c.pass ' ') := by
      unfold next
      rw [skip_blank hrest (by simp)]
    rw [tokensFrom_congr hnext]
    exact ih _ (by rw [Cursor.rest_pass, hrest, List.tail_cons])
  | @token l ls word cs hcut hstart halike _ ih =>
    obtain ⟨ch, more, rfl⟩ := List.exists_cons_of_ne_nil hcut.ne_nil
    have hnext := next_of_cut (by rw [skip_of_start hrest (hstart ch rfl), hrest]) hcut
    rw [tokensFrom_of_token hnext hcut.ne_endOfInput]
    exact .cons halike (ih _ rfl)

theorem spelled_tokens {ls : List Lexeme} {source : String} (h : Written ls source.toList) :
    Spelled (tokens source) (ls ++ [.endOfInput]) :=
  spelled_tokensFrom h _ rfl

end Scan

/-- What comes after a text ends every word and every number. -/
def Delimited (rest : List Char) : Prop :=
  ∀ c ∈ rest.head?, c ∈ [',', ')', ']']

theorem Delimited.head {rest : List Char} {p : Char → Prop} (h : Delimited rest) (hcomma : p ',')
    (hparen : p ')') (hbracket : p ']') : ∀ c ∈ rest.head?, p c := by
  intro c hc
  have hmark := h c hc
  simp only [List.mem_cons, List.not_mem_nil, or_false] at hmark
  rcases hmark with rfl | rfl | rfl
  · exact hcomma
  · exact hparen
  · exact hbracket

namespace Written

variable {ls : List Lexeme} {cs : List Char}

theorem verbatim {kind : TokenKind} {c : Char} {word : List Char} (h : Written ls cs)
    (hc : isSkipped c = false) (htoken : tokenAt c (word ++ cs) = (kind, word.length + 1)) :
    Written (⟨kind, String.ofList (c :: word)⟩ :: ls) (c :: word ++ cs) :=
  .token (.of_tokenAt htoken) (by simpa using hc) (.refl _) h

theorem mark {kind : TokenKind} {c : Char} (h : Written ls cs) (hc : isSkipped c = false)
    (htoken : tokenAt c cs = (kind, 1)) : Written (⟨kind, String.ofList [c]⟩ :: ls) (c :: cs) :=
  @verbatim _ _ _ _ [] h hc htoken

theorem leftParen (h : Written ls cs) : Written (.leftParen :: ls) ('(' :: cs) :=
  h.mark rfl rfl

theorem rightParen (h : Written ls cs) : Written (.rightParen :: ls) (')' :: cs) :=
  h.mark rfl rfl

theorem leftBracket (h : Written ls cs) : Written (.leftBracket :: ls) ('[' :: cs) :=
  h.mark rfl rfl

theorem rightBracket (h : Written ls cs) : Written (.rightBracket :: ls) (']' :: cs) :=
  h.mark rfl rfl

theorem comma (h : Written ls cs) : Written (.comma :: ls) (',' :: cs) :=
  h.mark rfl rfl

/-- A minus sign before a digit is no arrow and no assignment. -/
theorem minus {c : Char} (h : Written ls (c :: cs)) (hc : c.isDigit = true) :
    Written (.operator .minus :: ls) ('-' :: c :: cs) := by
  have hall : ∀ p ∈ symbols, p.1.toList.all (fun d => !d.isDigit) = true := by decide
  have hdigit : ∀ p ∈ symbols, c ∉ p.1.toList := by
    intro p hp hmem
    have := List.all_eq_true.1 (hall p hp) c hmem
    simp [hc] at this
  obtain ⟨d, word, htext, hd, htoken⟩ :=
    tokenAt_symbol (show ("-", .operator .minus) ∈ symbols by decide)
  cases htext
  refine h.mark hd (htoken (c :: cs) ?_)
  rintro e ⟨⟩
  exact hdigit

theorem keyword (k : Keyword) (h : Written ls cs) (hcs : Delimited cs) :
    Written (.keyword k :: ls) (k.word.toList ++ cs) := by
  obtain ⟨hkind, c, word, hword, hc, hpart⟩ := word_keyword k
  have hrest : ∀ d ∈ cs.head?, isNamePart d = false := hcs.head (by decide) (by decide) (by decide)
  have htoken := tokenAt_word hword hc hpart hrest
  have hwritten := h.verbatim (plain_of_isNameStart hc).1 htoken
  rwa [hkind, ← hword, String.ofList_toList] at hwritten

theorem digits (n : Nat) (h : Written ls cs) (hcs : Delimited cs) :
    Written (⟨.int, String.ofList (Decimal.digits n)⟩ :: ls) (Decimal.digits n ++ cs) := by
  obtain ⟨c, word, hword, hdigits⟩ := digits_eq_cons n
  have hrest : ∀ d ∈ cs.head?, d.isDigit = false ∧ d ≠ '.' :=
    hcs.head (by decide) (by decide) (by decide)
  rw [hword]
  exact h.verbatim (plain_of_isDigit (hdigits c List.mem_cons_self)).1
    (tokenAt_digits hdigits hrest)

theorem negative (n : Nat) (h : Written ls cs) (hcs : Delimited cs) :
    Written (.operator .minus :: ⟨.int, String.ofList (Decimal.digits n)⟩ :: ls)
      ('-' :: (Decimal.digits n ++ cs)) := by
  have hdigits := h.digits n hcs
  obtain ⟨c, word, hword, hall⟩ := digits_eq_cons n
  rw [hword] at hdigits ⊢
  exact hdigits.minus (hall c List.mem_cons_self)

end Written

namespace Text

/-- A character that is not written by its code point stands for itself, or for what it means after
a backslash. -/
theorem quoteChar_cases {c : Char} (h : ['\\', 'u'].isPrefixOf (quoteChar c) = false) :
    (quoteChar c = [c] ∧ c ≠ '"' ∧ c ≠ '\\') ∨ ∃ e, quoteChar c = ['\\', e] ∧
      unescape.escapedChar e = c := by
  by_cases hc : c ∈ ['"', '\\', '\n', '\r', '\t']
  · simp only [List.mem_cons, List.not_mem_nil, or_false] at hc
    rcases hc with rfl | rfl | rfl | rfl | rfl <;> exact .inr ⟨_, rfl, rfl⟩
  · simp only [List.mem_cons, List.not_mem_nil, or_false, not_or] at hc
    obtain ⟨hquote, hbackslash, hbreak, hreturn, htab⟩ := hc
    rw [quoteChar, if_neg hquote, if_neg hbackslash, if_neg hbreak, if_neg hreturn,
      if_neg htab] at h ⊢
    split
    · rename_i hzero
      refine .inr ⟨'0', rfl, ?_⟩
      rw [← Char.ofNat_toNat c, hzero]
      rfl
    · rename_i hzero
      rw [if_neg hzero] at h
      split
      · rename_i hhidden
        rw [if_pos hhidden] at h
        cases h
      · exact .inl ⟨rfl, hquote, hbackslash⟩

theorem isPlain_cons {c : Char} {cs : List Char} :
    isPlain (String.ofList (c :: cs)) = true ↔
      ['\\', 'u'].isPrefixOf (quoteChar c) = false ∧ isPlain (String.ofList cs) = true := by
  simp [isPlain]

/-- The closing quote of a plain string is the first one that is not hidden. -/
theorem stringLength_quoteChar {cs : List Char} (h : isPlain (String.ofList cs) = true)
    (rest : List Char) : stringLength false (cs.flatMap quoteChar ++ '"' :: rest) =
      ((cs.flatMap quoteChar).length + 1, true) := by
  induction cs with
  | nil => rfl
  | cons c cs ih =>
    obtain ⟨hc, hcs⟩ := isPlain_cons.1 h
    rw [List.flatMap_cons]
    rcases quoteChar_cases hc with ⟨heq, hquote, hbackslash⟩ | ⟨e, heq, -⟩
    · simp [heq, stringLength, hquote, beq_eq_false_iff_ne.2 hbackslash, ih hcs]
    · simp [heq, stringLength, ih hcs]

/-- A plain string in its quoted form is read as itself. -/
theorem unescape_quoteChar {cs : List Char} (h : isPlain (String.ofList cs) = true) :
    unescape (cs.flatMap quoteChar) = some cs := by
  induction cs with
  | nil => rfl
  | cons c cs ih =>
    obtain ⟨hc, hcs⟩ := isPlain_cons.1 h
    rw [List.flatMap_cons]
    rcases quoteChar_cases hc with ⟨heq, hquote, hbackslash⟩ | ⟨e, heq, he⟩
    · rw [heq, List.singleton_append, unescape, ih hcs, Option.map_some]
      · exact fun hc => absurd hc hbackslash
      · exact fun _ _ hc => absurd hc hbackslash
    · rw [heq, List.cons_append, List.singleton_append, unescape, ih hcs, he, Option.map_some]

end Text

theorem Written.quote {ls : List Lexeme} {cs : List Char} {s : String} (h : Written ls cs)
    (hs : Text.isPlain s = true) :
    Written (⟨.string, quoted s⟩ :: ls) ((Text.quote s).toList ++ cs) := by
  rw [← String.ofList_toList (s := s)] at hs
  have htoken : tokenAt '"' ((s.toList.flatMap Text.quoteChar ++ ['"']) ++ cs) =
      (.string, (s.toList.flatMap Text.quoteChar ++ ['"']).length + 1) := by
    rw [tokenAt_of_quote, List.append_assoc, List.singleton_append, Text.stringLength_quoteChar hs]
    simp
  have hbody : unescape (quotedBody (Text.quote s)) = unescape (quotedBody (quoted s)) := by
    rw [quotedBody_quoted, unescape_escaped, Text.quote, quotedBody_enclosed,
      Text.unescape_quoteChar hs]
  rw [Text.quote, String.toList_ofList]
  exact .token (.of_tokenAt htoken) (by simp [isSkipped])
    ⟨rfl, fun hkind => absurd rfl hkind, fun _ => hbody⟩ h

end Refscript
