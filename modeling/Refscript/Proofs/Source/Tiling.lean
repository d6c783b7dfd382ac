import Refscript.Source.Scan

/-!
# Refscript.Proofs.Source.Tiling

The tokens of a text and the gaps between them are the text.

* `Gap`: blanks and whole comments; before the end of the text the last comment may lack its line
  break.
* `exists_gap`, `Cut`: what skipping leaves out, and what the next token takes.
* `tokensFrom_induction`: induction along the tokens of a text.
* `Tiled`: a text taken apart into gaps and tokens, with the offsets of the tokens.
* `tokens_tile`: the tokens of every text, well-formed or not, tile it.
-/

namespace Refscript
namespace Scan

variable {body cs rest word : List Char} {kind : TokenKind} {t : Token} {c' c : Cursor}
  {source : String}

@[simp]
theorem byteLength_cons (c : Char) (cs : List Char) :
    byteLength (c :: cs) = c.utf8Size + byteLength cs := rfl

@[simp]
theorem byteLength_append (cs ds : List Char) :
    byteLength (cs ++ ds) = byteLength cs + byteLength ds := by
  induction cs with
  | nil => exact (Nat.zero_add _).symm
  | cons c cs ih => simp [ih, Nat.add_assoc]

theorem byteLength_pos (h : cs ≠ []) : 0 < byteLength cs := by
  cases cs with
  | nil => exact absurd rfl h
  | cons c cs =>
    have := c.utf8Size_pos
    simp only [byteLength_cons]
    omega

theorem utf8ByteSize_ofList (cs : List Char) : (String.ofList cs).utf8ByteSize = byteLength cs := by
  induction cs with
  | nil => rfl
  | cons c cs ih =>
    rw [String.ofList_cons, String.utf8ByteSize_append, ih, String.utf8ByteSize_singleton]
    rfl

/-- Blanks, line breaks and comments before the text `rest`. A comment runs to the break of its
line, and to the end of the text only where nothing is left. -/
inductive Gap (rest : List Char) : List Char → Prop where
  | nil : Gap rest []
  | blank {c : Char} {cs : List Char} (hc : c ∈ [' ', '\t', '\r', '\n']) (hcs : Gap rest cs) :
      Gap rest (c :: cs)
  | comment {body cs : List Char} (hbody : '\n' ∉ body) (hcs : Gap rest cs) :
      Gap rest ('#' :: (body ++ '\n' :: cs))
  | last {body : List Char} (hbody : '\n' ∉ body) (hrest : rest = []) : Gap rest ('#' :: body)

/-- The place after a character, which starts a line if it is a break. -/
def Cursor.pass (c : Cursor) (ch : Char) : Cursor :=
  if ch = '\n' then ⟨c.rest.tail, c.offset + 1, c.line + 1, c.offset + 1⟩
  else ⟨c.rest.tail, c.offset + ch.utf8Size, c.line, c.lineStart⟩

/-- The place after a text. -/
def Cursor.along (c : Cursor) (text : List Char) : Cursor :=
  text.foldl Cursor.pass c

namespace Cursor

variable (c : Cursor) (ch : Char) (text more : List Char)

@[simp]
theorem along_cons : c.along (ch :: text) = (c.pass ch).along text := rfl

theorem along_append : c.along (text ++ more) = (c.along text).along more :=
  List.foldl_append

theorem rest_pass : (c.pass ch).rest = c.rest.tail := by
  unfold pass
  split <;> rfl

theorem offset_pass : (c.pass ch).offset = c.offset + ch.utf8Size := by
  unfold pass
  split
  · rename_i h
    subst h
    rfl
  · rfl

theorem rest_along : (c.along text).rest = c.rest.drop text.length := by
  induction text generalizing c with
  | nil => rfl
  | cons ch text ih => simp [ih, rest_pass]

theorem offset_along : (c.along text).offset = c.offset + byteLength text := by
  induction text generalizing c with
  | nil => rfl
  | cons ch text ih => simp [ih, offset_pass, Nat.add_assoc]

end Cursor

theorem skipBlanks_comment (hbody : '\n' ∉ body) (c : Cursor) (cs : List Char)
    (hrest : c.rest = body ++ cs) : skipBlanks true c.offset c.line c.lineStart c.rest =
      skipBlanks true (c.along body).offset (c.along body).line (c.along body).lineStart cs := by
  induction body generalizing c with
  | nil => rw [hrest]; rfl
  | cons ch body ih =>
    obtain ⟨hch, hbody⟩ := not_or.1 (fun h => hbody (List.mem_cons.2 h))
    have hpass : c.pass ch = ⟨c.rest.tail, c.offset + ch.utf8Size, c.line, c.lineStart⟩ :=
      if_neg (Ne.symm hch)
    have := ih hbody (c.pass ch) (by simp [Cursor.rest_pass, hrest])
    rw [Cursor.along_cons, ← this, hpass, hrest]
    simp [skipBlanks, Ne.symm hch]

theorem skip_blank {ch : Char} (hrest : c.rest = ch :: cs) (hch : ch ∈ [' ', '\t', '\r', '\n']) :
    c.skip = (c.pass ch).skip := by
  simp only [List.mem_cons, List.not_mem_nil, or_false] at hch
  rcases hch with rfl | rfl | rfl | rfl <;>
    simp [Cursor.skip, skipBlanks, Cursor.pass, hrest] <;> rfl

theorem skip_comment (hbody : '\n' ∉ body) (hrest : c.rest = '#' :: (body ++ cs)) :
    c.skip = skipBlanks true (c.along ('#' :: body)).offset (c.along ('#' :: body)).line
      (c.along ('#' :: body)).lineStart cs := by
  have htail : (c.pass '#').rest = body ++ cs := by rw [Cursor.rest_pass, hrest, List.tail_cons]
  rw [Cursor.along_cons, ← skipBlanks_comment hbody (c.pass '#') cs htail, htail,
    Cursor.skip, hrest]
  rfl

theorem skip_line (hbody : '\n' ∉ body) (hrest : c.rest = '#' :: (body ++ '\n' :: cs)) :
    c.skip = (c.along ('#' :: (body ++ ['\n']))).skip := by
  rw [skip_comment hbody hrest, Cursor.skip, Cursor.rest_along, hrest, ← List.cons_append,
    ← List.cons_append, Cursor.along_append]
  simp [skipBlanks, Cursor.pass, Cursor.along]

theorem skip_last (hbody : '\n' ∉ body) (hrest : c.rest = '#' :: body) :
    c.skip = c.along ('#' :: body) := by
  have hnil : (c.along ('#' :: body)).rest = [] := by
    rw [Cursor.rest_along, hrest, List.drop_length]
  rw [skip_comment hbody (by rw [hrest, List.append_nil]), skipBlanks, ← hnil]

theorem skip_start {ch : Char} (hrest : c.rest = ch :: cs) (hblank : ch ∉ [' ', '\t', '\r', '\n'])
    (hcomment : ch ≠ '#') : c.skip = c := by
  simp only [List.mem_cons, List.not_mem_nil, or_false, not_or] at hblank
  obtain ⟨hspace, htab, hreturn, hbreak⟩ := hblank
  rw [Cursor.skip, hrest, skipBlanks, if_neg hbreak, if_neg (by simp),
    if_neg (by simp [hspace, htab, hreturn]), if_neg hcomment, ← hrest]

theorem skip_nil (hrest : c.rest = []) : c.skip = c := by
  rw [Cursor.skip, hrest, skipBlanks, ← hrest]

/-- Skipping passes a gap, character by character. -/
theorem exists_gap (c : Cursor) :
    ∃ gap rest, c.rest = gap ++ rest ∧ Gap rest gap ∧ c.skip = c.along gap := by
  induction hlength : c.rest.length using Nat.strongRecOn generalizing c with
  | _ n ih =>
    subst hlength
    cases hrest : c.rest with
    | nil => exact ⟨[], [], rfl, .nil, skip_nil hrest⟩
    | cons ch cs =>
      by_cases hblank : ch ∈ [' ', '\t', '\r', '\n']
      · have hpass : (c.pass ch).rest = cs := by rw [Cursor.rest_pass, hrest, List.tail_cons]
        obtain ⟨gap, rest, hcs, hgap, hskip⟩ := ih _ (by simp [hpass, hrest]) (c.pass ch) rfl
        rw [hpass] at hcs
        refine ⟨ch :: gap, rest, by rw [hcs, List.cons_append], .blank hblank hgap, ?_⟩
        rw [skip_blank hrest hblank, hskip, Cursor.along_cons]
      by_cases hcomment : ch = '#'
      · subst hcomment
        by_cases hbreak : '\n' ∈ cs
        · obtain ⟨body, more, rfl, hbody⟩ := List.eq_append_cons_of_mem hbreak
          have halong : (c.along ('#' :: (body ++ ['\n']))).rest = more := by
            rw [Cursor.rest_along, hrest]
            simp
          have hshort : more.length < ('#' :: (body ++ '\n' :: more)).length := by simp; omega
          obtain ⟨gap, rest, hmore, hgap, hskip⟩ := ih _ (by rwa [halong, hrest]) _ rfl
          rw [halong] at hmore
          refine ⟨'#' :: (body ++ '\n' :: gap), rest, by simp [hmore], .comment hbody hgap, ?_⟩
          rw [skip_line hbody hrest, hskip, ← Cursor.along_append]
          simp
        · exact ⟨'#' :: cs, [], by simp, .last hbreak rfl, skip_last hbreak hrest⟩
      · exact ⟨[], ch :: cs, rfl, .nil, skip_start hrest hblank hcomment⟩

/-- Only what begins with a quote is a string, and the end of the text is no token of it. -/
theorem tokenAt_of_ne_quote {c : Char} (hc : c ≠ '"') (cs : List Char) :
    (tokenAt c cs).1 ∉ [.string, .endOfInput] := by
  rw [tokenAt, if_neg hc]
  split
  · unfold numberLength
    simp only
    split
    · split <;> simp
    · simp
  split
  · unfold wordAt
    simp only
    split <;> simp
  · cases hs : symbolAt (c :: cs) with
    | none => simp
    | some p =>
      obtain ⟨⟨s, kind⟩, hm, hs⟩ := List.exists_of_findSome?_eq_some hs
      have hplain : ∀ p ∈ symbols, p.2 ∉ [.string, .endOfInput] := by decide
      simp only [Option.ite_none_right_eq_some, Option.some.injEq] at hs
      obtain ⟨-, rfl⟩ := hs
      exact hplain _ hm

theorem tokenAt_of_quote (cs : List Char) : tokenAt '"' cs =
    (if (stringLength false cs).2 then .string else .error .unterminatedString,
      (stringLength false cs).1 + 1) :=
  rfl

theorem tokenAt_ne_endOfInput (c : Char) (cs : List Char) : (tokenAt c cs).1 ≠ .endOfInput := by
  by_cases hc : c = '"'
  · rw [hc, tokenAt_of_quote]
    simp only
    split <;> simp
  · intro hend
    exact tokenAt_of_ne_quote hc cs (by simp [hend])

/-- The token at the start of a text is `word`, and `rest` is left. -/
inductive Cut : TokenKind → List Char → List Char → Prop where
  | mk {c : Char} {cs : List Char} {kind : TokenKind} {n : Nat} (h : tokenAt c cs = (kind, n)) :
      Cut kind ((c :: cs).take n) ((c :: cs).drop n)

theorem Cut.of_tokenAt {c : Char} (h : tokenAt c (cs ++ rest) = (kind, cs.length + 1)) :
    Cut kind (c :: cs) rest := by
  have hcut := Cut.mk h
  rwa [← List.cons_append, ← List.length_cons, List.take_left, List.drop_left] at hcut

theorem Cut.ne_nil (h : Cut kind word rest) : word ≠ [] := by
  obtain @⟨c, cs, _, n, h⟩ := h
  have := tokenLength_pos c cs
  simp only [h] at this
  simp
  omega

theorem Cut.ne_endOfInput (h : Cut kind word rest) : kind ≠ .endOfInput := by
  obtain @⟨c, cs, _, n, h⟩ := h
  have := tokenAt_ne_endOfInput c cs
  rwa [h] at this

theorem stringLength_closed {escaped : Bool} (h : (stringLength escaped cs).2 = true) :
    ∃ body rest, cs = body ++ '"' :: rest ∧ (stringLength escaped cs).1 = body.length + 1 := by
  induction cs generalizing escaped with
  | nil => simp [stringLength] at h
  | cons c cs ih =>
    rw [stringLength] at h ⊢
    split at h
    · rename_i hquote
      obtain rfl : c = '"' := by simpa using (Bool.and_eq_true_iff.1 hquote).2
      exact ⟨[], cs, rfl, by rw [if_pos hquote]; rfl⟩
    · rename_i hquote
      obtain ⟨body, rest, hcs, hlength⟩ := ih h
      refine ⟨c :: body, rest, by rw [hcs, List.cons_append], ?_⟩
      rw [if_neg hquote]
      exact congrArg (· + 1) hlength

theorem Cut.quoted (h : Cut .string word rest) : ∃ body, word = '"' :: (body ++ ['"']) := by
  obtain @⟨c, cs, _, n, h⟩ := h
  by_cases hc : c = '"'
  · subst hc
    obtain ⟨hkind, rfl⟩ := Prod.mk.inj ((tokenAt_of_quote cs).symm.trans h)
    have hclosed : (stringLength false cs).2 = true := by
      split at hkind
      · assumption
      · cases hkind
    obtain ⟨body, rest, hcs, hlength⟩ := stringLength_closed hclosed
    refine ⟨body, ?_⟩
    rw [hlength, hcs, List.take_succ_cons, List.take_length_add_append]
    rfl
  · exact absurd (by rw [h]; simp) (tokenAt_of_ne_quote hc cs)

theorem exists_cut (h : cs ≠ []) : ∃ kind word rest, cs = word ++ rest ∧ Cut kind word rest := by
  obtain ⟨c, cs, rfl⟩ := List.exists_cons_of_ne_nil h
  exact ⟨_, _, _, (List.take_append_drop ..).symm, .mk rfl⟩

/-- The token that starts at a place. -/
def Cursor.token (c : Cursor) (kind : TokenKind) (word : List Char) : Token :=
  ⟨kind, c.offset, c.offset + byteLength word, c.pos, String.ofList word⟩

/-- The place after a token. -/
def Cursor.after (c : Cursor) (word rest : List Char) : Cursor :=
  ⟨rest, c.offset + byteLength word, (linesIn false c.offset c.line c.lineStart word).1,
    (linesIn false c.offset c.line c.lineStart word).2⟩

theorem next_of_end (hrest : c.skip.rest = []) :
    next c = (c.skip.token .endOfInput [], c.skip) := by
  simp only [next, hrest]
  rfl

theorem next_of_cut (hrest : c.skip.rest = word ++ rest) (hcut : Cut kind word rest) :
    next c = (c.skip.token kind word, c.skip.after word rest) := by
  obtain @⟨ch, cs, _, n, htoken⟩ := hcut
  rw [List.take_append_drop] at hrest
  simp only [next, hrest, htoken]
  rfl

theorem tokensFrom_of_end (h : next c = (t, c')) (hkind : t.kind = .endOfInput) :
    tokensFrom c = [t] := by
  rw [tokensFrom, h]
  exact if_pos hkind

theorem tokensFrom_of_token (h : next c = (t, c')) (hkind : t.kind ≠ .endOfInput) :
    tokensFrom c = t :: tokensFrom c' := by
  rw [tokensFrom, h]
  exact if_neg hkind

theorem tokensFrom_congr (h : next c = next c') : tokensFrom c = tokensFrom c' := by
  rw [tokensFrom, h, ← tokensFrom]

/-- A list of tokens is built from its end: the end of the text after a gap, and before that, each
time, a gap and a token. -/
theorem tokensFrom_induction {P : Cursor → List Token → Prop}
    (last : ∀ (c : Cursor), Gap [] c.rest → P c [(c.along c.rest).token .endOfInput []])
    (token : ∀ (c : Cursor) (gap word rest : List Char) (kind : TokenKind) (ts : List Token),
      c.rest = gap ++ word ++ rest → Gap (word ++ rest) gap → Cut kind word rest →
      P ((c.along gap).after word rest) ts → P c ((c.along gap).token kind word :: ts))
    (c : Cursor) : P c (tokensFrom c) := by
  induction hlength : c.rest.length using Nat.strongRecOn generalizing c with
  | _ n ih =>
    subst hlength
    obtain ⟨gap, text, hrest, hgap, hskip⟩ := exists_gap c
    have hleft : c.skip.rest = text := by rw [hskip, Cursor.rest_along, hrest, List.drop_left]
    by_cases hend : text = []
    · subst hend
      obtain rfl : c.rest = gap := by rw [hrest, List.append_nil]
      rw [tokensFrom_of_end (next_of_end hleft) rfl, hskip]
      exact last c hgap
    · obtain ⟨kind, word, rest, rfl, hcut⟩ := exists_cut hend
      rw [tokensFrom_of_token (next_of_cut hleft hcut) hcut.ne_endOfInput, hskip]
      refine token c gap word rest kind _ (by rw [hrest, List.append_assoc]) hgap hcut
        (ih _ ?_ _ rfl)
      have := List.length_pos_iff.2 hcut.ne_nil
      simp [Cursor.after, hrest]
      omega

/-- The text after `before` is made of gaps and tokens, and each token has the offsets at which it
stands. -/
inductive Tiled : List Char → List Char → List Token → Prop where
  | last {before gap : List Char} {t : Token} (hgap : Gap [] gap) (hkind : t.kind = .endOfInput)
      (hstart : t.start = byteLength (before ++ gap)) (hstop : t.stop = t.start) :
        Tiled before gap [t]
  | token {before gap word rest : List Char} {t : Token} {ts : List Token}
      (hgap : Gap (word ++ rest) gap)
      (hword : word ≠ []) (hkind : t.kind ≠ .endOfInput) (hlexeme : t.lexeme = String.ofList word)
      (hstart : t.start = byteLength (before ++ gap))
        (hstop : t.stop = byteLength (before ++ gap ++ word))
      (hrest : Tiled (before ++ gap ++ word) rest ts) : Tiled before (gap ++ word ++ rest) (t :: ts)

theorem tiled_tokensFrom (c : Cursor) :
    ∀ before, c.offset = byteLength before → Tiled before c.rest (tokensFrom c) := by
  induction c using tokensFrom_induction with
  | last c hgap =>
    intro before hoffset
    refine .last hgap rfl ?_ rfl
    simp [Cursor.token, Cursor.offset_along, hoffset]
  | token c gap word rest kind ts hrest hgap hcut ih =>
    intro before hoffset
    have hafter : (c.along gap).offset + byteLength word = byteLength (before ++ gap ++ word) := by
      simp [Cursor.offset_along, hoffset, Nat.add_assoc]
    rw [hrest]
    refine .token hgap hcut.ne_nil hcut.ne_endOfInput rfl ?_ hafter (ih _ hafter)
    simp [Cursor.token, Cursor.offset_along, hoffset]

/-- The span of a token that is not empty and lies between characters of the text, from the offset
`n` on. -/
structure Within (text : List Char) (n : Nat) (t : Token) : Prop where
  proper : t.kind ≠ .endOfInput
  behind : n ≤ t.start
  taken : ∃ pre word post, text = pre ++ word ++ post ∧ word ≠ [] ∧ t.start = byteLength pre ∧
    t.stop = byteLength (pre ++ word) ∧ t.lexeme = String.ofList word

theorem Tiled.spans {before : List Char} {ts : List Token} (h : Tiled before rest ts) :
    ∃ us t, ts = us ++ [t] ∧ t.kind = .endOfInput ∧ t.start = byteLength (before ++ rest) ∧
      t.stop = t.start ∧ (∀ u ∈ us, Within (before ++ rest) (byteLength before) u) ∧
      us.Pairwise fun u v => u.stop ≤ v.start := by
  induction h with
  | last hgap hkind hstart hstop => exact ⟨[], _, rfl, hkind, hstart, hstop, by simp, .nil⟩
  | @token before gap word rest t ts hgap hword hkind hlexeme hstart hstop _ ih =>
    obtain ⟨us, e, rfl, hend, hestart, hestop, hus, horder⟩ := ih
    have htext : before ++ gap ++ word ++ rest = before ++ (gap ++ word ++ rest) := by simp
    rw [htext] at hestart hus
    refine ⟨t :: us, e, rfl, hend, hestart, hestop, ?_, ?_⟩
    · intro u hu
      rcases List.mem_cons.1 hu with rfl | hu
      · exact ⟨hkind, by simp [hstart], before ++ gap, word, rest, htext.symm, hword, hstart,
          hstop, hlexeme⟩
      · obtain ⟨hproper, hbehind, htaken⟩ := hus u hu
        exact ⟨hproper, by simp at hbehind; omega, htaken⟩
    · refine .cons (fun u hu => ?_) horder
      rw [hstop]
      exact (hus u hu).behind

theorem isValid_of_append {pre post : List Char} (h : source.toList = pre ++ post) :
    String.Pos.Raw.IsValid source ⟨byteLength pre⟩ := by
  refine String.Pos.Raw.isValid_iff_exists_append.2 ⟨String.ofList pre, String.ofList post, ?_, ?_⟩
  · rw [← String.ofList_append, ← h, String.ofList_toList]
  · rw [← utf8ByteSize_ofList]
    rfl

theorem Within.valid {n : Nat} (h : Within source.toList n t) :
    t.start < t.stop ∧ String.Pos.Raw.IsValid source ⟨t.start⟩ ∧
      String.Pos.Raw.IsValid source ⟨t.stop⟩ := by
  obtain ⟨pre, word, post, htext, hword, hstart, hstop, -⟩ := h.taken
  have hlong := byteLength_pos hword
  refine ⟨?_, ?_, ?_⟩
  · rw [hstart, hstop, byteLength_append]
    omega
  · rw [hstart]
    exact isValid_of_append (by rw [htext, List.append_assoc])
  · rw [hstop]
    exact isValid_of_append htext

theorem tiled_tokens (source : String) : Tiled [] source.toList (tokens source) :=
  tiled_tokensFrom (.ofText source.toList) [] rfl

/-- The spans of the tokens, the end of the text apart, and the place of the end. -/
theorem spans_tokens (source : String) :
    ∃ ts eof, tokens source = ts ++ [eof] ∧ eof.kind = .endOfInput ∧
      eof.start = source.utf8ByteSize ∧
      eof.stop = source.utf8ByteSize ∧ (∀ t ∈ ts, Within source.toList 0 t) ∧
      ts.Pairwise fun t u => t.stop ≤ u.start := by
  obtain ⟨ts, eof, hts, hkind, hstart, hstop, hwithin, horder⟩ := (tiled_tokens source).spans
  have hsize : byteLength source.toList = source.utf8ByteSize := by
    rw [← utf8ByteSize_ofList, String.ofList_toList]
  rw [List.nil_append, hsize] at hstart
  exact ⟨ts, eof, hts, hkind, hstart, hstop.trans hstart, hwithin, horder⟩

/-- The text of every token can be cut out of the source. -/
theorem isValid_of_mem_tokens (ht : t ∈ tokens source) :
    t.start ≤ t.stop ∧ String.Pos.Raw.IsValid source ⟨t.start⟩ ∧
      String.Pos.Raw.IsValid source ⟨t.stop⟩ := by
  obtain ⟨ts, eof, hts, -, hstart, hstop, hwithin, -⟩ := spans_tokens source
  rw [hts] at ht
  rcases List.mem_append.1 ht with ht | ht
  · obtain ⟨hlt, hvalid⟩ := (hwithin t ht).valid
    exact ⟨Nat.le_of_lt hlt, hvalid⟩
  · obtain rfl := List.mem_singleton.1 ht
    rw [hstart, hstop]
    exact ⟨Nat.le_refl _, String.Pos.Raw.isValid_rawEndPos, String.Pos.Raw.isValid_rawEndPos⟩

theorem quoted_of_mem_tokensFrom (c : Cursor) :
    ∀ t ∈ tokensFrom c, t.kind = .string → ∃ body,
      t.lexeme = String.ofList ('"' :: (body ++ ['"'])) := by
  induction c using tokensFrom_induction with
  | last c hgap =>
    intro t ht hkind
    obtain rfl := List.mem_singleton.1 ht
    cases hkind
  | token c gap word rest kind ts hrest hgap hcut ih =>
    intro t ht hkind
    rcases List.mem_cons.1 ht with rfl | ht
    · obtain rfl : kind = .string := hkind
      obtain ⟨body, rfl⟩ := hcut.quoted
      exact ⟨body, rfl⟩
    · exact ih t ht hkind

/-- The tokens of a text end with the end of the text, every other one has a span of its own that
begins and ends between characters, the spans follow each other, and only blanks and comments are
left out. -/
theorem tokens_tile (source : String) :
    ∃ ts eof, tokens source = ts ++ [eof] ∧
      eof.kind = .endOfInput ∧ eof.start = source.utf8ByteSize ∧ eof.stop = source.utf8ByteSize ∧
      (∀ t ∈ ts, t.kind ≠ .endOfInput ∧ t.start < t.stop ∧
        String.Pos.Raw.IsValid source ⟨t.start⟩ ∧ String.Pos.Raw.IsValid source ⟨t.stop⟩) ∧
      ts.Pairwise (fun t u => t.stop ≤ u.start) ∧
      Tiled [] source.toList (tokens source) := by
  obtain ⟨ts, eof, hts, hkind, hstart, hstop, hwithin, horder⟩ := spans_tokens source
  refine ⟨ts, eof, hts, hkind, hstart, hstop, ?_, horder, tiled_tokens source⟩
  intro t ht
  exact ⟨(hwithin t ht).proper, (hwithin t ht).valid⟩

end Scan
end Refscript
