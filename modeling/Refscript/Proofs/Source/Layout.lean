import Refscript.Proofs.Source.Spacing

/-!
# Refscript.Proofs.Source.Layout

What stands between two tokens may be replaced by any other blanks and comments.

* `Lexeme.Stable`: a text that is scanned as one token of a kind wherever it stands, if it ends
  there or something that is skipped follows.
* `stable_of_mem_tokensFrom`: so is every token of every text, except a string that is not closed.
* `laidOut`: texts with blanks or comments between each two.
* `layout_irrelevant`: the tokens of a text, laid out in another way, are scanned as the same
  tokens.
-/

namespace Refscript

variable {cs gap rest : List Char} {c : Char}

namespace Scan

/-- Nothing follows, or something that is skipped. -/
def Parted (rest : List Char) : Prop :=
  ∀ c ∈ rest.head?, isSkipped c = true

theorem Parted.head {p : Char → Prop} (h : Parted rest)
    (hp : p '\n' ∧ p ' ' ∧ p '\r' ∧ p '\t' ∧ p '#') : ∀ c ∈ rest.head?, p c := by
  intro c hc
  have hskipped := h c hc
  simp only [isSkipped, Bool.or_eq_true, beq_iff_eq] at hskipped
  obtain ⟨hbreak, hspace, hreturn, htab, hcomment⟩ := hp
  rcases hskipped with (((rfl | rfl) | rfl) | rfl) | rfl <;> assumption

theorem Parted.not_isDigit (h : Parted rest) : ∀ c ∈ rest.head?, c.isDigit = false ∧ c ≠ '.' :=
  h.head (by decide)

theorem Parted.not_isNamePart (h : Parted rest) : ∀ c ∈ rest.head?, isNamePart c = false :=
  h.head (by decide)

theorem Parted.not_mem_symbols (h : Parted rest) :
    ∀ c ∈ rest.head?, ∀ p ∈ symbols, c ∉ p.1.toList :=
  h.head (by decide)

/-- The text is one token of the kind, whatever stands before it and whatever follows that is
skipped. -/
def Stands (kind : TokenKind) (c : Char) (word : List Char) : Prop :=
  ∀ rest, Parted rest → tokenAt c (word ++ rest) = (kind, word.length + 1)

theorem stringLength_append {escaped : Bool} (h : (stringLength escaped cs).2 = true) :
    ∃ body post, cs = body ++ post ∧ (stringLength escaped cs).1 = body.length ∧
      ∀ rest, stringLength escaped (body ++ rest) = (body.length, true) := by
  induction cs generalizing escaped with
  | nil => simp [stringLength] at h
  | cons c cs ih =>
    rw [stringLength] at h ⊢
    split at h
    · rename_i hquote
      exact ⟨[c], cs, rfl, by rw [if_pos hquote]; rfl, fun rest => by simp [stringLength, hquote]⟩
    · rename_i hquote
      obtain ⟨body, post, rfl, hlength, hbody⟩ := ih h
      refine ⟨c :: body, post, rfl, ?_, fun rest => ?_⟩
      · rw [if_neg hquote]
        exact congrArg (· + 1) hlength
      · rw [List.cons_append, stringLength, if_neg hquote, hbody]
        rfl

theorem tokenAt_float {ds : List Char} (hwhole : ∀ d ∈ c :: cs, d.isDigit = true) (hne : ds ≠ [])
    (hfraction : ∀ d ∈ ds, d.isDigit = true) (hrest : ∀ d ∈ rest.head?, d.isDigit = false) :
    tokenAt c (cs ++ '.' :: ds ++ rest) = (.float, (cs ++ '.' :: ds).length + 1) := by
  have hc : c.isDigit = true := hwhole c List.mem_cons_self
  have hpoint : ∀ d ∈ ('.' :: ds ++ rest).head?, d.isDigit = false := by
    rintro d ⟨⟩
    decide
  have hsplit : c :: (cs ++ '.' :: ds ++ rest) = (c :: cs) ++ ('.' :: ds ++ rest) := by simp
  have hdrop : ((c :: cs) ++ ('.' :: ds ++ rest)).dropWhile Char.isDigit = '.' :: (ds ++ rest) := by
    rw [List.dropWhile_append_of_pos hwhole, List.cons_append]
    exact List.dropWhile_cons_of_neg (by decide)
  have hempty : ds.isEmpty = false := by simpa using hne
  rw [tokenAt, if_neg (plain_of_isDigit hc).2, if_pos hc, numberLength, hsplit,
    takeWhile_append_of_head hwhole hpoint, hdrop]
  simp only [takeWhile_append_of_head hfraction hrest, hempty, Bool.false_eq_true, if_false,
    List.length_append, List.length_cons]
  congr 1
  omega

theorem stands_number (hc : c.isDigit = true) :
    ∃ word post, cs = word ++ post ∧ (numberLength (c :: cs)).2 = word.length + 1 ∧
      Stands (numberLength (c :: cs)).1 c word := by
  obtain ⟨whole, after, rfl, hwhole, hafter⟩ : ∃ whole after, cs = whole ++ after ∧
      (∀ d ∈ c :: whole, d.isDigit = true) ∧ ∀ d ∈ after.head?, d.isDigit = false := by
    refine ⟨cs.takeWhile Char.isDigit, cs.dropWhile Char.isDigit,
      List.takeWhile_append_dropWhile.symm, ?_, ?_⟩
    · exact List.forall_mem_cons.2 ⟨hc, List.all_eq_true.1 List.all_takeWhile⟩
    · intro d hd
      have := List.head?_dropWhile_not Char.isDigit cs
      rw [hd] at this
      simpa using this
  have htake : (c :: (whole ++ after)).takeWhile Char.isDigit = c :: whole :=
    takeWhile_append_of_head hwhole hafter
  have hdrop : (c :: (whole ++ after)).dropWhile Char.isDigit = after := by
    have := List.takeWhile_append_dropWhile (p := Char.isDigit) (l := c :: (whole ++ after))
    rw [htake] at this
    exact List.append_cancel_left this
  have hint : Stands .int c whole := fun rest hrest => tokenAt_digits hwhole hrest.not_isDigit
  simp only [numberLength, htake, hdrop]
  split
  · rename_i more
    split
    · exact ⟨whole, _, rfl, rfl, hint⟩
    · rename_i hfraction
      have hmore : more = more.takeWhile Char.isDigit ++ more.dropWhile Char.isDigit :=
        List.takeWhile_append_dropWhile.symm
      refine ⟨whole ++ '.' :: more.takeWhile Char.isDigit, more.dropWhile Char.isDigit, ?_, ?_, ?_⟩
      · rw [List.append_assoc, List.cons_append, ← hmore]
      · simp only [List.length_cons, List.length_append]
        omega
      · intro rest hrest
        exact tokenAt_float hwhole (by simpa using hfraction)
          (List.all_eq_true.1 List.all_takeWhile) fun d hd =>
          (hrest.not_isDigit d hd).1
  · exact ⟨whole, _, rfl, rfl, hint⟩

theorem stands_word (hc : isNameStart c = true) :
    ∃ word post, cs = word ++ post ∧ (wordAt (c :: cs)).2 = word.length + 1 ∧
      Stands (wordAt (c :: cs)).1 c word := by
  obtain ⟨-, -, -, hpart⟩ := plain_of_isNameStart hc
  have htake : (c :: cs).takeWhile isNamePart = c :: cs.takeWhile isNamePart :=
    List.takeWhile_cons_of_pos hpart
  have hkind : wordAt (c :: cs) =
      (wordKind (String.ofList (c :: cs.takeWhile isNamePart)),
        (cs.takeWhile isNamePart).length + 1) := by
    rw [wordAt, htake, wordKind]
    cases Keyword.ofWord? (String.ofList (c :: cs.takeWhile isNamePart)) with
    | none => rfl
    | some k => rfl
  refine ⟨cs.takeWhile isNamePart, cs.dropWhile isNamePart,
    List.takeWhile_append_dropWhile.symm, by rw [hkind], ?_⟩
  intro rest hrest
  rw [hkind]
  exact tokenAt_word String.toList_ofList hc (List.all_eq_true.1 List.all_takeWhile)
    hrest.not_isNamePart

theorem symbolAt_singleton (h : symbolAt (c :: cs) = none) : symbolAt [c] = none := by
  unfold symbolAt at h ⊢
  rw [List.findSome?_eq_none_iff] at h ⊢
  intro p hp
  have hnone := h p hp
  simp only [ite_eq_right_iff, reduceCtorEq, imp_false, List.isPrefixOf_iff_prefix] at hnone ⊢
  exact fun hstarts => hnone (hstarts.trans (List.prefix_append [c] cs))

theorem stands_symbol
    (hquote : c ≠ '"') (hdigit : ¬c.isDigit = true) (hname : ¬isNameStart c = true) :
    ∃ word post, cs = word ++ post ∧ ((symbolAt (c :: cs)).getD (.error (.unexpected c), 1)).2 =
      word.length + 1 ∧
      Stands ((symbolAt (c :: cs)).getD (.error (.unexpected c), 1)).1 c word := by
  cases hsymbol : symbolAt (c :: cs) with
  | none =>
    refine ⟨[], cs, rfl, rfl, fun rest hrest => ?_⟩
    have hnone : symbolAt ([c] ++ rest) = none := by
      rw [symbolAt_append hrest.not_mem_symbols, symbolAt_singleton hsymbol]
    rw [List.nil_append, tokenAt, if_neg hquote, if_neg hdigit, if_neg hname,
      ← List.singleton_append, hnone]
    rfl
  | some found =>
    obtain ⟨⟨text, kind⟩, hmem, hfound⟩ := List.exists_of_findSome?_eq_some hsymbol
    simp only [Option.ite_none_right_eq_some, Option.some.injEq,
      List.isPrefixOf_iff_prefix] at hfound
    obtain ⟨hstarts, rfl⟩ := hfound
    obtain ⟨d, word, htext, -, htoken⟩ := tokenAt_symbol hmem
    rw [htext, List.cons_prefix_cons] at hstarts
    obtain ⟨rfl, post, hpost⟩ := hstarts
    refine ⟨word, post, hpost.symm, ?_, fun rest hrest => htoken rest hrest.not_mem_symbols⟩
    rw [Option.getD_some, ← String.length_toList, htext]
    rfl

/-- The token at the start of a text does not depend on what follows it, as long as that is
skipped. -/
theorem stands_tokenAt (c : Char) (cs : List Char)
    (hclosed : (tokenAt c cs).1 ≠ .error .unterminatedString) :
    ∃ word post, cs = word ++ post ∧ (tokenAt c cs).2 = word.length + 1 ∧
      Stands (tokenAt c cs).1 c word := by
  by_cases hquote : c = '"'
  · subst hquote
    rw [tokenAt_of_quote] at hclosed ⊢
    have hstring : (stringLength false cs).2 = true := by
      cases hopen : (stringLength false cs).2 with
      | false => simp [hopen] at hclosed
      | true => rfl
    obtain ⟨body, post, hcs, hlength, hbody⟩ := stringLength_append hstring
    refine ⟨body, post, hcs, congrArg (· + 1) hlength, fun rest _ => ?_⟩
    rw [tokenAt_of_quote, hbody, hstring]
  by_cases hdigit : c.isDigit = true
  · rw [tokenAt, if_neg hquote, if_pos hdigit]
    exact stands_number hdigit
  by_cases hname : isNameStart c = true
  · rw [tokenAt, if_neg hquote, if_neg hdigit, if_pos hname]
    exact stands_word hname
  · rw [tokenAt, if_neg hquote, if_neg hdigit, if_neg hname]
    exact stands_symbol hquote hdigit hname

end Scan

/-- The text is scanned as one token of the kind, wherever it stands. -/
def Lexeme.Stable (l : Lexeme) : Prop :=
  l.kind ≠ .endOfInput ∧ ∃ c word, l.text.toList = c :: word ∧ Scan.isSkipped c = false ∧
    Scan.Stands l.kind c word

namespace Scan

theorem head_skipBlanks (inComment : Bool) (offset line lineStart : Nat) (cs : List Char) :
    ∀ c ∈ (skipBlanks inComment offset line lineStart cs).rest.head?, isSkipped c = false := by
  induction cs generalizing inComment offset line lineStart with
  | nil => simp [skipBlanks]
  | cons c cs ih =>
    rw [skipBlanks]
    split
    · exact ih _ _ _ _
    split
    · exact ih _ _ _ _
    split
    · exact ih _ _ _ _
    split
    · exact ih _ _ _ _
    · rename_i hbreak _ hblank hcomment
      rintro d ⟨⟩
      simp only [not_or] at hblank
      simp [isSkipped, hbreak, hblank, hcomment]

theorem exists_next_of_mem {c : Cursor} {t : Token} (ht : t ∈ tokensFrom c) :
    ∃ c', (next c').1 = t := by
  fun_induction tokensFrom c with
  | case1 c r hend => exact ⟨c, (List.mem_singleton.1 ht).symm⟩
  | case2 c r hend ih =>
    rcases List.mem_cons.1 ht with rfl | ht
    · exact ⟨c, rfl⟩
    · exact ih ht

/-- The tokens of every text are stable, its end apart; only a string that is not closed would go
on. -/
theorem stable_of_mem_tokensFrom {c : Cursor} {t : Token} (ht : t ∈ tokensFrom c)
    (hclosed : t.kind ≠ .error .unterminatedString) : t.form = .endOfInput ∨ t.form.Stable := by
  obtain ⟨c', rfl⟩ := exists_next_of_mem ht
  have hhead : ∀ ch ∈ c'.skip.rest.head?, isSkipped ch = false := head_skipBlanks false _ _ _ _
  cases hrest : c'.skip.rest with
  | nil =>
    rw [next_of_end hrest]
    exact .inl rfl
  | cons ch cs =>
    have hcut : Cut (tokenAt ch cs).1 ((ch :: cs).take (tokenAt ch cs).2)
      ((ch :: cs).drop (tokenAt ch cs).2) := .mk rfl
    have hnext := next_of_cut (by rw [hrest, List.take_append_drop]) hcut
    rw [hnext] at hclosed ⊢
    right
    obtain ⟨word, post, hcs, hlength, hstands⟩ := stands_tokenAt ch cs hclosed
    have hword : (ch :: cs).take (tokenAt ch cs).2 = ch :: word := by
      rw [hlength, hcs, List.take_succ_cons, List.take_left]
    refine ⟨tokenAt_ne_endOfInput ch cs, ch, word, ?_, hhead ch (by rw [hrest]; rfl), hstands⟩
    rw [Token.form, Cursor.token, hword, String.toList_ofList]

theorem Gap.append {gap' : List Char} (h : Gap (gap' ++ rest) gap) (h' : Gap rest gap') :
    Gap rest (gap ++ gap') := by
  induction h with
  | nil => exact h'
  | blank hc _ ih => exact .blank hc ih
  | @comment body cs hbody _ ih =>
    rw [List.cons_append, List.append_assoc, List.cons_append]
    exact .comment hbody ih
  | last hbody hrest =>
    obtain ⟨rfl, hrest⟩ := List.append_eq_nil_iff.1 hrest
    rw [List.append_nil]
    exact .last hbody hrest

theorem Gap.parted (h : Gap rest gap) (hgap : gap ≠ []) (more : List Char) :
    Parted (gap ++ more) := by
  cases h with
  | nil => exact absurd rfl hgap
  | @blank c cs hc _ =>
    rintro d ⟨⟩
    simp only [List.mem_cons, List.not_mem_nil, or_false] at hc
    rcases hc with rfl | rfl | rfl | rfl <;> rfl
  | comment | last =>
    rintro d ⟨⟩
    rfl

theorem rest_skip_gap {c : Cursor} (h : Gap rest gap) (hrest : c.rest = gap ++ rest)
    (hstart : ∀ ch ∈ rest.head?, isSkipped ch = false) : c.skip.rest = rest := by
  induction h generalizing c with
  | nil =>
    rw [List.nil_append] at hrest
    cases rest with
    | nil => rw [skip_nil hrest, hrest]
    | cons ch cs => rw [skip_of_start hrest (hstart ch rfl), hrest]
  | blank hc _ ih =>
    rw [skip_blank hrest hc]
    exact ih (by rw [Cursor.rest_pass, hrest, List.cons_append, List.tail_cons])
  | @comment body cs hbody _ ih =>
    rw [List.cons_append, List.append_assoc, List.cons_append] at hrest
    rw [skip_line hbody hrest]
    refine ih ?_
    rw [Cursor.rest_along, hrest]
    simp
  | last hbody hnil =>
    rw [hnil, List.append_nil] at hrest
    rw [skip_last hbody hrest, Cursor.rest_along, hrest, List.drop_length, hnil]

/-- Blanks, line breaks and whole comments, at least one of them. -/
structure Separator where
  text : List Char
  gap : ∀ rest, Gap rest text
  ne_nil : text ≠ []

/-- The texts with a separator between each two. -/
def laidOut (separator : Nat → Separator) : List String → List Char
  | [] => []
  | [word] => word.toList
  | word :: words =>
    word.toList ++ ((separator 0).text ++ laidOut (fun i => separator (i + 1)) words)

/-- Texts that are stable are scanned as the tokens that they are, whatever separates them. -/
theorem form_tokensFrom_laidOut {ls : List Lexeme} (hls : ∀ l ∈ ls, l.Stable)
    (separator : Nat → Separator) {lead tail : List Char} (hlead : ∀ rest, Gap rest lead)
    (htail : Gap [] tail) (c : Cursor)
    (hrest : c.rest = lead ++ (laidOut separator (ls.map Lexeme.text) ++ tail)) :
    (tokensFrom c).map Token.form = ls ++ [.endOfInput] := by
  induction ls generalizing separator lead c with
  | nil =>
    have hgap : Gap [] (lead ++ tail) := (hlead _).append htail
    have hend : c.skip.rest = [] := rest_skip_gap hgap (by rw [hrest]; simp [laidOut]) (by simp)
    rw [tokensFrom_of_end (next_of_end hend) rfl]
    rfl
  | cons l ls ih =>
    obtain ⟨⟨hkind, ch, word, htext, hch, hstands⟩, hls⟩ := List.forall_mem_cons.1 hls
    -- what follows the first token: the end, or a separator and the other tokens
    obtain ⟨lead', separator', hlead', hsplit, hparted⟩ : ∃ lead' separator',
      (∀ rest, Gap rest lead') ∧ laidOut separator ((l :: ls).map Lexeme.text) ++ tail =
          l.text.toList ++ (lead' ++ (laidOut separator' (ls.map Lexeme.text) ++ tail)) ∧
        Parted (lead' ++ (laidOut separator' (ls.map Lexeme.text) ++ tail)) := by
      cases ls with
      | nil =>
        refine ⟨[], separator, fun _ => .nil, rfl, ?_⟩
        by_cases hnil : tail = []
        · subst hnil
          exact fun d hd => absurd hd (by simp [laidOut])
        · simpa [laidOut] using htail.parted hnil []
      | cons l' ls =>
        refine ⟨(separator 0).text, fun i => separator (i + 1), (separator 0).gap, ?_,
          ((separator 0).gap []).parted (separator 0).ne_nil _⟩
        simp only [List.map_cons, laidOut, List.append_assoc]
    have hstart : c.skip.rest = l.text.toList ++
        (lead' ++ (laidOut separator' (ls.map Lexeme.text) ++ tail)) := by
      refine rest_skip_gap (hlead _) (by rw [hrest, hsplit]) ?_
      rw [htext]
      rintro d ⟨⟩
      exact hch
    have hcut :
        Cut l.kind l.text.toList (lead' ++ (laidOut separator' (ls.map Lexeme.text) ++ tail)) := by
      rw [htext]
      exact .of_tokenAt (hstands _ hparted)
    rw [tokensFrom_of_token (next_of_cut hstart hcut) hkind, List.map_cons, List.cons_append,
      ih hls separator' hlead' _ rfl]
    simp [Token.form, Cursor.token]

/-- Layout does not matter: the tokens of a text in which every string is closed, with any blanks
and comments between each two of them and around them, are scanned as the same tokens. -/
theorem layout_irrelevant {source : String}
    (hclosed : ∀ t ∈ tokens source, t.kind ≠ .error .unterminatedString)
    (separator : Nat → Separator) {lead tail : List Char} (hlead : ∀ rest, Gap rest lead)
    (htail : Gap [] tail) : (tokens (String.ofList
      (lead ++ (laidOut separator ((tokens source).dropLast.map Token.lexeme) ++ tail)))).map
      Token.form = (tokens source).map Token.form := by
  obtain ⟨ts, eof, htokens, heof, -, -, hwithin, -⟩ := spans_tokens source
  have hform : ∀ t ∈ ts ++ [eof], t.form = .endOfInput ∨ t.form.Stable := by
    intro t ht
    rw [← htokens] at ht
    exact stable_of_mem_tokensFrom ht (hclosed t ht)
  obtain ⟨hts, hlast⟩ := List.forall_mem_append.1 hform
  have hstable : ∀ l ∈ ts.map Token.form, l.Stable := by
    rw [List.forall_mem_map]
    exact fun t ht => (hts t ht).resolve_left fun hend =>
      (hwithin t ht).proper (congrArg Lexeme.kind hend)
  have hend : eof.form = .endOfInput :=
    (hlast eof List.mem_cons_self).resolve_right fun hstable => hstable.1 heof
  have hwords : (ts.map Token.form).map Lexeme.text = ts.map Token.lexeme := by simp [Token.form]
  rw [htokens, List.dropLast_concat, ← hwords, List.map_append, List.map_singleton, hend]
  exact form_tokensFrom_laidOut hstable separator hlead htail _ String.toList_ofList

/-- A comment with a quote in it. -/
def Separator.remark : Separator where
  text := ['#', '"', '\n']
  gap _ := @Gap.comment _ ['"'] _ (by decide) .nil
  ne_nil := by decide

/-- Tokens that touch each other may be torn apart, malformed ones too, and comments with a quote in
them may be put between them. -/
theorem layout_irrelevant_touching :
    (∀ t ∈ tokens "x<=1..\"a\\\"\"!", t.kind ≠ .error .unterminatedString) ∧
    (tokens "\tx#\"\n<=#\"\n1#\"\n..#\"\n\"a\\\"\"#\"\n!#").map Token.form =
      (tokens "x<=1..\"a\\\"\"!").map Token.form := by
  have hclosed : ∀ t ∈ tokens "x<=1..\"a\\\"\"!", t.kind ≠ .error .unterminatedString := by
    decide +kernel
  have htext : String.ofList (['\t'] ++ (laidOut (fun _ => .remark)
      ((tokens "x<=1..\"a\\\"\"!").dropLast.map Token.lexeme) ++ ['#'])) =
      "\tx#\"\n<=#\"\n1#\"\n..#\"\n\"a\\\"\"#\"\n!#" := by
    decide +kernel
  refine ⟨hclosed, ?_⟩
  rw [← htext]
  exact layout_irrelevant hclosed (fun _ => .remark) (fun _ => .blank (by decide) .nil)
    (.last (by decide) rfl)

end Scan
end Refscript
