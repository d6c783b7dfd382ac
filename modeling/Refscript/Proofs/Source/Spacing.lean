import Refscript.Number.Decimal
import Refscript.Proofs.Source.Tiling

/-!
# Refscript.Proofs.Source.Spacing

Scanning texts that are made of tokens with a blank between each two.

* `Lexeme.Proper`: a text that is scanned as one token of a kind, whatever comes after a blank.
* `form_tokens`: such texts, written one after the other with blanks between them, are scanned as
  these tokens.
* `proper_symbol`, `proper_keyword`, `proper_name`, `proper_digits`, `proper_quoted`: what is
  proper.
-/

namespace Refscript

variable {cs rest : List Char} {c : Char} {kind : TokenKind}

/-- What a token is, apart from where it stands. -/
structure Lexeme where
  kind : TokenKind
  text : String
deriving DecidableEq, Repr

def Token.form (t : Token) : Lexeme := ⟨t.kind, t.lexeme⟩

def Lexeme.endOfInput : Lexeme := ⟨.endOfInput, ""⟩

/-- The texts with a blank between each two. -/
def spaced (ls : List Lexeme) : String :=
  " ".intercalate (ls.map Lexeme.text)

/-- What is left of a text is empty or starts with a blank. -/
inductive Broken : List Char → Prop where
  | nothing : Broken []
  | blank (cs : List Char) : Broken (' ' :: cs)

theorem Broken.head (h : Broken rest) : ∀ c ∈ rest.head?, c = ' ' := by
  cases h with
  | nothing => simp
  | blank cs => simp

/-- Characters that are skipped or start a comment. -/
def Scan.isSkipped (c : Char) : Bool :=
  c == '\n' || c == ' ' || c == '\r' || c == '\t' || c == '#'

/-- Kinds of tokens that are neither malformed nor the end. -/
def TokenKind.isProper : TokenKind → Bool
  | .error _ | .endOfInput => false
  | _ => true

/-- The text is scanned as one token of the kind if it ends there or a blank follows. -/
structure Lexeme.Proper (l : Lexeme) : Prop where
  kind : l.kind.isProper = true
  scanned : ∃ c cs, l.text.toList = c :: cs ∧ Scan.isSkipped c = false ∧
    ∀ rest, Broken rest → Scan.tokenAt c (cs ++ rest) = (l.kind, cs.length + 1)

theorem Lexeme.Proper.ne_endOfInput {l : Lexeme} (h : l.Proper) (hkind : kind = l.kind) :
    kind ≠ .endOfInput := by
  rintro rfl
  have := h.kind
  rw [← hkind] at this
  cases this

namespace Scan

theorem skip_of_start {c : Cursor} {ch : Char} (hrest : c.rest = ch :: cs)
    (hch : isSkipped ch = false) : c.skip = c := by
  simp only [isSkipped, Bool.or_eq_false_iff, beq_eq_false_iff_ne] at hch
  exact skip_start hrest (by simp [hch]) hch.2

theorem next_of_proper {c : Cursor} {l : Lexeme} (hl : l.Proper) (hbroken : Broken rest)
    (hskip : c.rest = l.text.toList ++ rest ∨ c.rest = ' ' :: (l.text.toList ++ rest)) :
    ∃ t c', next c = (t, c') ∧ t.form = l ∧ c'.rest = rest := by
  obtain ⟨ch, cs, htext, hch, htoken⟩ := hl.scanned
  have hcut : Cut l.kind l.text.toList rest := by
    rw [htext]
    exact .of_tokenAt (htoken rest hbroken)
  have hstart : c.skip.rest = l.text.toList ++ rest := by
    rw [htext] at hskip ⊢
    rcases hskip with h | h
    · rw [skip_of_start h hch, h]
    · have hpass : (c.pass ' ').rest = ch :: cs ++ rest := by
        rw [Cursor.rest_pass, h, List.tail_cons]
      rw [skip_blank h (by simp), skip_of_start hpass hch, hpass]
  refine ⟨_, _, next_of_cut hstart hcut, ?_, rfl⟩
  simp [Token.form, Cursor.token]

/-- The characters of texts with a blank before each. -/
def tailOf (ls : List Lexeme) : List Char :=
  ls.flatMap fun l => ' ' :: l.text.toList

theorem broken_tailOf (ls : List Lexeme) : Broken (tailOf ls) := by
  cases ls with
  | nil => exact .nothing
  | cons l ls => exact .blank _

theorem toList_spaced (l : Lexeme) (ls : List Lexeme) :
    (spaced (l :: ls)).toList = l.text.toList ++ tailOf ls := by
  rw [spaced, String.toList_intercalate]
  induction ls generalizing l with
  | nil => simp [tailOf]
  | cons l' ls ih =>
    simp only [List.map_cons, List.map_map] at ih ⊢
    rw [List.intercalate_cons_cons, ih l']
    simp [tailOf]

theorem form_tokensFrom_tailOf {ls : List Lexeme} (hls : ∀ l ∈ ls, l.Proper) (c : Cursor)
    (hrest : c.rest = tailOf ls) : (tokensFrom c).map Token.form = ls ++ [.endOfInput] := by
  induction ls generalizing c with
  | nil =>
    have hend : c.skip.rest = [] := by rw [skip_nil hrest, hrest]; rfl
    rw [tokensFrom_of_end (next_of_end hend) rfl]
    rfl
  | cons l ls ih =>
    obtain ⟨hl, hls⟩ := List.forall_mem_cons.1 hls
    obtain ⟨t, c', hnext, hform, hrest'⟩ := next_of_proper hl (broken_tailOf ls) (.inr hrest)
    rw [tokensFrom_of_token hnext (hl.ne_endOfInput (congrArg Lexeme.kind hform))]
    simp [hform, ih hls c' hrest']

theorem form_tokens {ls : List Lexeme} (hls : ∀ l ∈ ls, l.Proper) :
    (tokens (spaced ls)).map Token.form = ls ++ [.endOfInput] := by
  cases ls with
  | nil => exact form_tokensFrom_tailOf hls _ rfl
  | cons l ls =>
    obtain ⟨hl, hls⟩ := List.forall_mem_cons.1 hls
    obtain ⟨t, c', hnext, hform, hrest⟩ :=
      next_of_proper (c := .ofText (spaced (l :: ls)).toList) hl (broken_tailOf ls)
      (.inl (toList_spaced l ls))
    rw [tokens, tokensFrom_of_token hnext (hl.ne_endOfInput (congrArg Lexeme.kind hform))]
    simp [hform, form_tokensFrom_tailOf hls c' hrest]

theorem isPrefixOf_append_of_head {s : List Char} (hrest : ∀ c ∈ rest.head?, c ∉ s) :
    s.isPrefixOf (cs ++ rest) = s.isPrefixOf cs := by
  induction s generalizing cs with
  | nil => simp
  | cons c s ih =>
    cases cs with
    | nil =>
      cases rest with
      | nil => rfl
      | cons d rest =>
        have hd := hrest d rfl
        simp only [List.mem_cons, not_or] at hd
        simp [List.isPrefixOf, Ne.symm hd.1]
    | cons d cs =>
      have hs : ∀ c ∈ rest.head?, c ∉ s := fun e he hmem => hrest e he (List.mem_cons_of_mem _ hmem)
      simp [List.isPrefixOf, ih hs]

theorem symbolAt_append (hrest : ∀ c ∈ rest.head?, ∀ p ∈ symbols, c ∉ p.1.toList) :
    symbolAt (cs ++ rest) = symbolAt cs := by
  unfold symbolAt
  generalize symbols = ps at hrest
  induction ps with
  | nil => rfl
  | cons p ps ih =>
    obtain ⟨text, kind⟩ := p
    have hp : ∀ c ∈ rest.head?, c ∉ text.toList := fun c hc => hrest c hc _ List.mem_cons_self
    have hps : ∀ c ∈ rest.head?, ∀ p ∈ ps, c ∉ p.1.toList :=
      fun c hc p hp => hrest c hc p (List.mem_cons_of_mem _ hp)
    simp only [List.findSome?_cons]
    rw [isPrefixOf_append_of_head hp, ih hps]

/-- Punctuation is scanned as a whole in front of what is no punctuation. -/
theorem tokenAt_symbol {text : String} (h : (text, kind) ∈ symbols) :
    ∃ c cs, text.toList = c :: cs ∧ isSkipped c = false ∧
      ∀ rest : List Char, (∀ d ∈ rest.head?, ∀ p ∈ symbols, d ∉ p.1.toList) →
        tokenAt c (cs ++ rest) = (kind, cs.length + 1) := by
  have hall : ∀ p ∈ symbols, symbolAt p.1.toList = some (p.2, p.1.toList.length) ∧
      p.1.toList.head?.any (fun c => !isSkipped c && c != '"' && !c.isDigit && !isNameStart c) =
        true := by
    decide
  obtain ⟨hsymbol, hstart⟩ := hall _ h
  obtain ⟨c, hhead, hc⟩ := (Option.any_eq_true _ _).1 hstart
  simp only [Bool.and_eq_true, Bool.not_eq_true', bne_iff_ne] at hc
  obtain ⟨⟨⟨hskipped, hquote⟩, hdigit⟩, hname⟩ := hc
  obtain ⟨cs, htext⟩ := List.head?_eq_some_iff.1 hhead
  refine ⟨c, cs, htext, hskipped, fun rest hrest => ?_⟩
  rw [tokenAt, if_neg hquote, if_neg (by simp [hdigit]), if_neg (by simp [hname]),
    ← List.cons_append, symbolAt_append hrest, ← htext, hsymbol, htext]
  rfl

theorem proper_symbol {text : String} (hkind : kind.isProper = true) (h : (text, kind) ∈ symbols) :
    Lexeme.Proper ⟨kind, text⟩ := by
  obtain ⟨c, cs, htext, hskipped, htoken⟩ := tokenAt_symbol h
  have hblank : ∀ p ∈ symbols, ' ' ∉ p.1.toList := by decide
  refine ⟨hkind, c, cs, htext, hskipped, fun rest hrest => htoken rest fun d hd => ?_⟩
  rw [hrest.head d hd]
  exact hblank

theorem takeWhile_append_of_head {p : Char → Bool} (hcs : ∀ c ∈ cs, p c = true)
    (hrest : ∀ c ∈ rest.head?, p c = false) : (cs ++ rest).takeWhile p = cs := by
  rw [List.takeWhile_append_of_pos hcs]
  cases rest with
  | nil => simp
  | cons c rest => simp [hrest c rfl]

theorem plain_of_isNameStart (h : isNameStart c = true) :
    isSkipped c = false ∧ c ≠ '"' ∧ c.isDigit = false ∧ isNamePart c = true := by
  have hne : ∀ d, isNameStart d = false → c ≠ d := by
    rintro d hd rfl
    rw [h] at hd
    cases hd
  refine ⟨?_, hne _ (by decide), ?_, ?_⟩
  · simp [isSkipped, hne '\n' (by decide), hne ' ' (by decide), hne '\r' (by decide),
      hne '\t' (by decide), hne '#' (by decide)]
  · cases hdigit : c.isDigit with
    | false => rfl
    | true =>
      exfalso
      simp only [Char.isDigit, Bool.and_eq_true, decide_eq_true_eq, ge_iff_le,
        UInt32.le_iff_toNat_le] at hdigit
      have hascii : c.toNat < 128 := Nat.lt_of_le_of_lt hdigit.2 (by decide)
      have halpha : c.isAlpha = false := by
        change (decide ('A'.val ≤ c.val ∧ c.val ≤ 'Z'.val) ||
          (decide ('a'.val ≤ c.val) && decide (c.val ≤ 'z'.val))) = false
        simp only [UInt32.le_iff_toNat_le]
        have hnat : c.val.toNat = c.toNat := rfl
        have hnine : '9'.val.toNat = 57 := rfl
        simp
        omega
      have hunderscore : c = '_' := by simpa [isNameStart, Text.isLetter, hascii, halpha] using h
      subst hunderscore
      exact absurd hdigit.2 (by decide)
  · simp only [isNameStart, isNamePart, Bool.or_eq_true] at h ⊢
    rcases h with h | h
    · exact .inl (.inl h)
    · exact .inr h

/-- The kind of a word. -/
def wordKind (word : String) : TokenKind :=
  match Keyword.ofWord? word with
  | some k => .keyword k
  | none => .identifier

theorem tokenAt_word {word : String} (hword : word.toList = c :: cs) (hc : isNameStart c = true)
    (hcs : ∀ d ∈ cs, isNamePart d = true) (hrest : ∀ d ∈ rest.head?, isNamePart d = false) :
    tokenAt c (cs ++ rest) = (wordKind word, cs.length + 1) := by
  obtain ⟨-, hquote, hdigit, hpart⟩ := plain_of_isNameStart hc
  have htake : (c :: cs ++ rest).takeWhile isNamePart = c :: cs :=
    takeWhile_append_of_head (List.forall_mem_cons.2 ⟨hpart, hcs⟩) hrest
  rw [tokenAt, if_neg hquote, if_neg (by simp [hdigit]), if_pos hc, wordAt, ← List.cons_append,
    htake, ← hword, String.ofList_toList]
  simp only [wordKind]
  cases Keyword.ofWord? word with
  | none | some k => simp [hword]

theorem proper_word {word : String} (hword : word.toList = c :: cs) (hc : isNameStart c = true)
    (hcs : ∀ d ∈ cs, isNamePart d = true) : Lexeme.Proper ⟨wordKind word, word⟩ := by
  refine ⟨?_, c, cs, hword, (plain_of_isNameStart hc).1, fun rest hrest => ?_⟩
  · show (wordKind word).isProper = true
    unfold wordKind
    split
    · rfl
    · rfl
  · exact tokenAt_word hword hc hcs fun d hd => by rw [hrest.head d hd]; decide

theorem word_keyword (k : Keyword) :
    wordKind k.word = .keyword k ∧ ∃ c cs, k.word.toList = c :: cs ∧ isNameStart c = true ∧
      ∀ d ∈ cs, isNamePart d = true := by
  have hkind : wordKind k.word = .keyword k := by
    cases k <;> decide
  have hname : k.word.toList.head?.any isNameStart = true ∧
      k.word.toList.tail.all isNamePart = true := by
    cases k <;> decide
  obtain ⟨hstart, hcs⟩ := hname
  obtain ⟨c, hhead, hc⟩ := (Option.any_eq_true _ _).1 hstart
  obtain ⟨cs, hword⟩ := List.head?_eq_some_iff.1 hhead
  rw [hword, List.tail_cons, List.all_eq_true] at hcs
  exact ⟨hkind, c, cs, hword, hc, hcs⟩

theorem proper_keyword (k : Keyword) : Lexeme.Proper ⟨.keyword k, k.word⟩ := by
  obtain ⟨hkind, c, cs, hword, hc, hcs⟩ := word_keyword k
  rw [← hkind]
  exact proper_word hword hc hcs

theorem plain_of_isDigit (h : c.isDigit = true) : isSkipped c = false ∧ c ≠ '"' := by
  have hne : ∀ d, d.isDigit = false → c ≠ d := by
    rintro d hd rfl
    rw [h] at hd
    cases hd
  refine ⟨?_, hne _ (by decide)⟩
  simp [isSkipped, hne '\n' (by decide), hne ' ' (by decide), hne '\r' (by decide),
    hne '\t' (by decide), hne '#' (by decide)]

theorem digits_eq_cons (n : Nat) :
    ∃ c cs, Decimal.digits n = c :: cs ∧ ∀ d ∈ c :: cs, d.isDigit = true := by
  obtain ⟨c, cs, hcs⟩ : ∃ c cs, Decimal.digits n = c :: cs :=
    List.exists_cons_of_ne_nil Nat.toDigits_ne_nil
  refine ⟨c, cs, hcs, fun d hd => ?_⟩
  rw [← hcs] at hd
  exact Nat.isDigit_of_mem_toDigits (by decide) (by decide) hd

theorem tokenAt_digits (hdigits : ∀ d ∈ c :: cs, d.isDigit = true)
    (hrest : ∀ d ∈ rest.head?, d.isDigit = false ∧ d ≠ '.') :
    tokenAt c (cs ++ rest) = (.int, cs.length + 1) := by
  have hc : c.isDigit = true := hdigits c List.mem_cons_self
  have htake := takeWhile_append_of_head hdigits fun d hd => (hrest d hd).1
  have hdrop : (c :: (cs ++ rest)).dropWhile Char.isDigit = rest := by
    rw [← List.cons_append, List.dropWhile_append_of_pos hdigits]
    cases rest with
    | nil => rfl
    | cons d rest => simp [(hrest d rfl).1]
  rw [tokenAt, if_neg (plain_of_isDigit hc).2, if_pos hc, numberLength, hdrop,
    ← List.cons_append, htake]
  split
  · exact absurd rfl (hrest '.' rfl).2
  · rfl

theorem proper_digits (n : Nat) : Lexeme.Proper ⟨.int, String.ofList (Decimal.digits n)⟩ := by
  obtain ⟨c, cs, hcs, hdigits⟩ := digits_eq_cons n
  have hskipped := (plain_of_isDigit (hdigits c List.mem_cons_self)).1
  refine ⟨rfl, c, cs, by rw [hcs, String.toList_ofList], hskipped, fun rest hrest => ?_⟩
  exact tokenAt_digits hdigits fun d hd => by rw [hrest.head d hd]; decide

/-- Quotes and backslashes get a backslash before them. -/
def escaped : List Char → List Char
  | [] => []
  | c :: cs => if c = '"' ∨ c = '\\' then '\\' :: c :: escaped cs else c :: escaped cs

/-- The text of a string literal. -/
def quoted (s : String) : String :=
  String.ofList ('"' :: (escaped s.toList ++ ['"']))

theorem stringLength_escaped (cs rest : List Char) :
    stringLength false (escaped cs ++ '"' :: rest) = ((escaped cs).length + 1, true) := by
  induction cs with
  | nil => rfl
  | cons c cs ih =>
    rw [escaped]
    split
    · simp [stringLength, ih]
    · rename_i hc
      obtain ⟨hquote, hbackslash⟩ := not_or.1 hc
      simp [stringLength, hquote, beq_eq_false_iff_ne.2 hbackslash, ih]

theorem proper_quoted (s : String) : Lexeme.Proper ⟨.string, quoted s⟩ := by
  refine ⟨rfl, '"', escaped s.toList ++ ['"'], String.toList_ofList, by decide, fun rest _ => ?_⟩
  rw [tokenAt, if_pos rfl, List.append_assoc, List.singleton_append, stringLength_escaped]
  simp

end Scan
end Refscript
