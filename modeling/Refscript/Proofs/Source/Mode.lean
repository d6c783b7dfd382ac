import Refscript.Proofs.Source.Layout

/-!
# Refscript.Proofs.Source.Mode

Where in a text a string may begin. Whether a character is in a string, in a comment or in neither
can be told from the characters before it, by a machine of four modes that knows nothing of tokens.

* `Mode.after`: the mode after a text.
* `Cut.outside`: a token leads from outside to outside, and a quote after it does not change it.
* `tokensFrom_before_quote`: a quote that is outside starts a token of its own; the tokens before it
  are those that the text before it has by itself.
-/

namespace Refscript
namespace Scan

variable {q : Char} {gap rest word : List Char} {hidden : Bool}

/-- What the next character belongs to. -/
inductive Mode where
  /-- Neither to a string nor to a comment. -/
  | outside
  | comment
  | string
  /-- To a string, after a backslash. -/
  | escaped
deriving DecidableEq, Repr

namespace Mode

def next (m : Mode) (c : Char) : Mode :=
  match m with
  | outside => if c = '"' then string else if c = '#' then comment else outside
  | comment => if c = '\n' then outside else comment
  | string => if c = '"' then outside else if c = '\\' then escaped else string
  | escaped => string

/-- The mode after a text. -/
def after (m : Mode) (text : List Char) : Mode :=
  text.foldl next m

variable {m : Mode} {c : Char} {cs ds : List Char}

@[simp] theorem after_cons : m.after (c :: cs) = (m.next c).after cs := rfl

theorem after_append : m.after (cs ++ ds) = (m.after cs).after ds :=
  List.foldl_append

theorem outside_after (h : ∀ c ∈ cs, c ≠ '"' ∧ c ≠ '#') : outside.after cs = outside := by
  induction cs with
  | nil => rfl
  | cons c cs ih =>
    obtain ⟨⟨hquote, hcomment⟩, hcs⟩ := List.forall_mem_cons.1 h
    rw [after_cons, next, if_neg hquote, if_neg hcomment, ih hcs]

theorem comment_after (h : '\n' ∉ cs) : comment.after cs = comment := by
  induction cs with
  | nil => rfl
  | cons c cs ih =>
    obtain ⟨hc, hcs⟩ := not_or.1 (mt List.mem_cons.2 h)
    rw [after_cons, next, if_neg (Ne.symm hc), ih hcs]

/-- The mode in a string. -/
def inString (hidden : Bool) : Mode :=
  if hidden then escaped else string

theorem inString_next (h : ¬(!hidden && c == '"') = true) :
    (inString hidden).next c = inString (!hidden && c == '\\') := by
  cases hidden with
  | true => rfl
  | false =>
    have hquote : c ≠ '"' := by simpa using h
    by_cases hbackslash : c = '\\'
    · simp [inString, next, hbackslash]
    · simp [inString, next, hquote, hbackslash]

theorem inString_after (h : stringLength hidden cs = (cs.length, true)) :
    (inString hidden).after cs = outside := by
  induction cs generalizing hidden with
  | nil => simp [stringLength] at h
  | cons c cs ih =>
    rw [stringLength] at h
    split at h
    · rename_i hquote
      simp only [Bool.and_eq_true, Bool.not_eq_true', beq_iff_eq] at hquote
      obtain ⟨rfl, rfl⟩ := hquote
      obtain rfl : cs = [] := by simpa using (Prod.mk.inj h).1
      rfl
    · rename_i hquote
      obtain ⟨hlength, hclosed⟩ := Prod.mk.inj h
      rw [after_cons, inString_next hquote]
      exact ih (Prod.ext (Nat.succ.inj hlength) hclosed)

theorem inString_after_ne (h : (stringLength hidden cs).2 = false) :
    (inString hidden).after cs ≠ outside := by
  induction cs generalizing hidden with
  | nil => cases hidden <;> decide
  | cons c cs ih =>
    rw [stringLength] at h
    split at h
    · cases h
    · rename_i hquote
      rw [after_cons, inString_next hquote]
      exact ih h

end Mode

/-- Outside of strings and comments at its end, a gap is one before anything. -/
theorem Gap.outside (h : Gap rest gap) (hend : rest = [] → Mode.outside.after gap = .outside) :
    Mode.outside.after gap = .outside ∧ ∀ rest', Gap rest' gap := by
  induction h with
  | nil => exact ⟨rfl, fun _ => .nil⟩
  | @blank c cs hc _ ih =>
    have hnext : Mode.outside.next c = .outside := by
      simp only [List.mem_cons, List.not_mem_nil, or_false] at hc
      rcases hc with rfl | rfl | rfl | rfl <;> rfl
    rw [Mode.after_cons, hnext] at hend ⊢
    obtain ⟨hafter, hgap⟩ := ih hend
    exact ⟨hafter, fun rest' => .blank hc (hgap rest')⟩
  | @comment body cs hbody _ ih =>
    have hline : Mode.outside.after ('#' :: (body ++ '\n' :: cs)) = Mode.outside.after cs := by
      rw [Mode.after_cons, Mode.after_append]
      exact congrArg (fun m => Mode.after m ('\n' :: cs)) (Mode.comment_after hbody)
    rw [hline] at hend ⊢
    obtain ⟨hafter, hgap⟩ := ih hend
    exact ⟨hafter, fun rest' => .comment hbody (hgap rest')⟩
  | @last body hbody hrest =>
    have hcomment : Mode.outside.after ('#' :: body) = .comment := Mode.comment_after hbody
    rw [hend hrest] at hcomment
    cases hcomment

/-- The character is in no number, no name and no punctuation. -/
structure Delimits (q : Char) : Prop where
  number : q.isDigit = false ∧ q ≠ '.'
  name : isNamePart q = false
  symbol : ∀ p ∈ symbols, q ∉ p.1.toList

theorem delimits_of_mem (h : q ∈ ['"', '#']) : Delimits q := by
  simp only [List.mem_cons, List.not_mem_nil, or_false] at h
  rcases h with rfl | rfl
  · exact ⟨by decide, by decide, by decide⟩
  · exact ⟨by decide, by decide, by decide⟩

theorem takeWhile_append_cons {p : Char → Bool} (hq : p q = false) (cs rest : List Char) :
    (cs ++ q :: rest).takeWhile p = cs.takeWhile p := by
  induction cs with
  | nil => simp [hq]
  | cons c cs ih => simp only [List.cons_append, List.takeWhile_cons, ih]

theorem dropWhile_append_cons {p : Char → Bool} (hq : p q = false) (cs rest : List Char) :
    (cs ++ q :: rest).dropWhile p = cs.dropWhile p ++ q :: rest := by
  induction cs with
  | nil => simp [hq]
  | cons c cs ih =>
    simp only [List.cons_append, List.dropWhile_cons, ih]
    split <;> rfl

theorem Delimits.numberLength (hq : Delimits q) (cs rest : List Char) :
    numberLength (cs ++ q :: rest) = numberLength cs := by
  obtain ⟨hdigit, hpoint⟩ := hq.number
  simp only [Scan.numberLength, takeWhile_append_cons hdigit, dropWhile_append_cons hdigit]
  cases cs.dropWhile Char.isDigit with
  | nil =>
    rw [List.nil_append]
    split
    · rename_i heq
      exact absurd (List.cons.inj heq).1 hpoint
    · rfl
  | cons d more =>
    rw [List.cons_append]
    by_cases hd : d = '.'
    · subst hd
      simp only [takeWhile_append_cons hdigit]
    · split
      · rename_i heq
        exact absurd (List.cons.inj heq).1 hd
      · split
        · rename_i heq
          exact absurd (List.cons.inj heq).1 hd
        · rfl

theorem Delimits.tokenAt {c : Char} (hq : Delimits q) (hc : c ≠ '"') (cs rest : List Char) :
    tokenAt c (cs ++ q :: rest) = tokenAt c cs := by
  have hword : wordAt (c :: cs ++ q :: rest) = wordAt (c :: cs) := by
    simp only [wordAt, takeWhile_append_cons hq.name]
  have hsymbol : symbolAt (c :: cs ++ q :: rest) = symbolAt (c :: cs) :=
    symbolAt_append (by simpa using hq.symbol)
  simp only [Scan.tokenAt, if_neg hc, ← List.cons_append, hq.numberLength, hword, hsymbol]

theorem exists_of_ne_quote {c : Char} (hc : c ≠ '"') (cs : List Char) :
    ∃ word post, cs = word ++ post ∧ (tokenAt c cs).2 = word.length + 1 := by
  by_cases hdigit : c.isDigit = true
  · obtain ⟨word, post, hcs, hlength, -⟩ := @stands_number cs c hdigit
    exact ⟨word, post, hcs, by rw [tokenAt, if_neg hc, if_pos hdigit, hlength]⟩
  by_cases hname : isNameStart c = true
  · obtain ⟨word, post, hcs, hlength, -⟩ := @stands_word cs c hname
    exact ⟨word, post, hcs, by rw [tokenAt, if_neg hc, if_neg hdigit, if_pos hname, hlength]⟩
  · obtain ⟨word, post, hcs, hlength, -⟩ := @stands_symbol cs c hc hdigit hname
    exact ⟨word, post, hcs, by rw [tokenAt, if_neg hc, if_neg hdigit, if_neg hname, hlength]⟩

/-- There is neither a quote nor the start of a comment in a token that is no string. -/
theorem not_mem_of_tokenAt {c : Char} {post : List Char} (hc : c ≠ '"')
    (h : (tokenAt c (word ++ post)).2 = word.length + 1) (hq : q ∈ ['"', '#']) : q ∉ word := by
  intro hmem
  obtain ⟨front, back, rfl⟩ := List.append_of_mem hmem
  rw [List.append_assoc, List.cons_append, (delimits_of_mem hq).tokenAt hc] at h
  obtain ⟨word', post', hfront, hlength⟩ := exists_of_ne_quote hc front
  have hle : word'.length ≤ front.length := by simp [hfront]
  rw [hlength, List.length_append, List.length_cons] at h
  omega

/-- From outside to outside a token is the same whether or not a quote follows the text. -/
theorem Cut.outside {kind : TokenKind} (h : Cut kind word rest) (hstart : ∀ c ∈ word.head?, c ≠ '#')
    (hend : Mode.outside.after (word ++ rest) = .outside) :
    Mode.outside.after word = .outside ∧ ∀ tail, Cut kind word (rest ++ '"' :: tail) := by
  obtain @⟨c, cs, _, n, htoken⟩ := h
  rw [List.take_append_drop, Mode.after_cons] at hend
  by_cases hc : c = '"'
  · subst hc
    have hclosed : (stringLength false cs).2 = true := by
      cases hopen : (stringLength false cs).2 with
      | false => exact absurd hend (Mode.inString_after_ne hopen)
      | true => rfl
    obtain ⟨body, post, rfl, hlength, hbody⟩ := stringLength_append hclosed
    rw [tokenAt_of_quote, hclosed, hlength, if_pos rfl] at htoken
    obtain ⟨rfl, rfl⟩ := Prod.mk.inj htoken
    rw [List.take_succ_cons, List.take_left, List.drop_succ_cons, List.drop_left]
    refine ⟨@Mode.inString_after false body ?_, fun tail => .of_tokenAt ?_⟩
    · simpa using hbody []
    · rw [tokenAt_of_quote, hbody]
      rfl
  · obtain ⟨body, post, rfl, hlength⟩ := exists_of_ne_quote hc cs
    have hquote := not_mem_of_tokenAt hc hlength (q := '"') (by simp)
    have hcomment := not_mem_of_tokenAt hc hlength (q := '#') (by simp)
    rw [htoken] at hlength
    subst hlength
    rw [List.take_succ_cons, List.take_left] at hstart ⊢
    rw [List.drop_succ_cons, List.drop_left]
    refine ⟨Mode.outside_after fun d hd => ?_, fun tail => .of_tokenAt ?_⟩
    · rcases List.mem_cons.1 hd with rfl | hd
      · exact ⟨hc, hstart d rfl⟩
      · exact ⟨fun h => hquote (h ▸ hd), fun h => hcomment (h ▸ hd)⟩
    · rw [← List.append_assoc, (delimits_of_mem (q := '"') (by simp)).tokenAt hc, htoken]

/-- The places are the same, but for what is left of the text. -/
structure Cursor.Beside (c d : Cursor) : Prop where
  offset : d.offset = c.offset
  line : d.line = c.line
  lineStart : d.lineStart = c.lineStart

namespace Cursor.Beside

variable {c d : Cursor}

theorem pass (h : c.Beside d) (ch : Char) : (c.pass ch).Beside (d.pass ch) := by
  unfold Cursor.pass
  split
  · exact ⟨congrArg (· + 1) h.offset, congrArg (· + 1) h.line, congrArg (· + 1) h.offset⟩
  · exact ⟨congrArg (· + _) h.offset, h.line, h.lineStart⟩

theorem along (h : c.Beside d) (text : List Char) : (c.along text).Beside (d.along text) := by
  induction text generalizing c d with
  | nil => exact h
  | cons ch text ih => exact ih (h.pass ch)

theorem token_eq (h : c.Beside d) (kind : TokenKind) (word : List Char) :
    d.token kind word = c.token kind word := by
  simp only [Cursor.token, Cursor.pos, h.offset, h.line, h.lineStart]

theorem after (h : c.Beside d) (word rest rest' : List Char) :
    (c.after word rest).Beside (d.after word rest') := by
  simp only [Cursor.after, h.offset, h.line, h.lineStart]
  exact ⟨rfl, rfl, rfl⟩

end Cursor.Beside

theorem skip_gap {c : Cursor} (h : Gap rest gap) (hrest : c.rest = gap ++ rest)
    (hstart : ∀ ch ∈ rest.head?, isSkipped ch = false) : c.skip = c.along gap := by
  obtain ⟨gap', rest', hrest', -, hskip⟩ := exists_gap c
  have hleft := rest_skip_gap h hrest hstart
  rw [hskip, Cursor.rest_along, hrest', List.drop_left] at hleft
  subst hleft
  rw [hskip, List.append_cancel_right (hrest'.symm.trans hrest)]

/-- `c` is where `c₀` is, with a quote after the text that `c₀` has left, and the quote is
outside. -/
structure QuoteAhead (tail : List Char) (c₀ c : Cursor) : Prop extends c₀.Beside c where
  rest : c.rest = c₀.rest ++ '"' :: tail
  mode : Mode.outside.after c₀.rest = .outside

namespace QuoteAhead

variable {tail : List Char} {c₀ c : Cursor}

theorem next_of_gap (h : QuoteAhead tail c₀ c) (hrest : c₀.rest = gap) (hgap : Gap [] gap) :
    ∃ d : Cursor, d.rest = '"' :: tail ∧ d.offset = c₀.offset + byteLength c₀.rest ∧
      next c = next d := by
  have hmode := h.mode
  have hlong := h.rest
  rw [hrest] at hmode hlong ⊢
  have hskip := skip_gap ((hgap.outside fun _ => hmode).2 ('"' :: tail)) hlong (by simp [isSkipped])
  have hd : (c.along gap).rest = '"' :: tail := by rw [Cursor.rest_along, hlong, List.drop_left]
  refine ⟨c.along gap, hd, by rw [Cursor.offset_along, h.offset], ?_⟩
  unfold next
  rw [hskip, skip_of_start hd (by decide)]

/-- A token before the quote is the one that is there without the quote. -/
theorem next_of_cut {kind : TokenKind} (h : QuoteAhead tail c₀ c)
    (hrest : c₀.rest = gap ++ (word ++ rest)) (hgap : Gap (word ++ rest) gap)
    (hcut : Cut kind word rest) (hstart : ∀ ch ∈ word.head?, isSkipped ch = false) :
    ∃ d, next c = ((c₀.along gap).token kind word, d) ∧
      QuoteAhead tail ((c₀.along gap).after word rest) d := by
  have hmode := h.mode
  obtain ⟨hgapmode, hgaps⟩ :=
    hgap.outside fun hnil => absurd (List.append_eq_nil_iff.1 hnil).1 hcut.ne_nil
  rw [hrest, Mode.after_append, hgapmode] at hmode
  have hcomment : ∀ ch ∈ word.head?, ch ≠ '#' := by
    rintro ch hch rfl
    exact absurd (hstart _ hch) (by decide)
  obtain ⟨hwordmode, hcuts⟩ := hcut.outside hcomment hmode
  rw [Mode.after_append, hwordmode] at hmode
  have hlong : c.rest = gap ++ (word ++ (rest ++ '"' :: tail)) := by simp [h.rest, hrest]
  have hskip : c.skip = c.along gap := by
    refine skip_gap (hgaps _) hlong ?_
    obtain ⟨ch, more, rfl⟩ := List.exists_cons_of_ne_nil hcut.ne_nil
    exact hstart
  have hleft : c.skip.rest = word ++ (rest ++ '"' :: tail) := by
    rw [hskip, Cursor.rest_along, hlong, List.drop_left]
  have hbeside := h.toBeside.along gap
  refine ⟨_, ?_, hbeside.after word rest (rest ++ '"' :: tail), rfl, hmode⟩
  rw [Scan.next_of_cut hleft (hcuts tail), hskip, hbeside.token_eq]

end QuoteAhead

theorem tokensFrom_ne_nil (c : Cursor) : tokensFrom c ≠ [] := by
  rw [tokensFrom]
  split <;> simp

/-- A quote outside of strings and comments starts a token of its own, and what is before it has the
tokens that it has by itself. -/
theorem tokensFrom_before_quote {tail : List Char} {c₀ c : Cursor} (h : QuoteAhead tail c₀ c) :
    ∃ d : Cursor, d.rest = '"' :: tail ∧ d.offset = c₀.offset + byteLength c₀.rest ∧
      tokensFrom c = (tokensFrom c₀).dropLast ++ tokensFrom d := by
  -- on what is left of the text before the quote
  induction hlength : c₀.rest.length using Nat.strongRecOn generalizing c₀ c with
  | _ n ih =>
    subst hlength
    obtain ⟨gap, text, htext, hgap, hskip⟩ := exists_gap c₀
    have hleft : c₀.skip.rest = text := by rw [hskip, Cursor.rest_along, htext, List.drop_left]
    by_cases hend : text = []
    · subst hend
      obtain ⟨d, hd, hoffset, hnext⟩ := h.next_of_gap (by rw [htext, List.append_nil]) hgap
      refine ⟨d, hd, hoffset, ?_⟩
      rw [tokensFrom_of_end (next_of_end hleft) rfl, tokensFrom_congr hnext]
      rfl
    · obtain ⟨kind, word, rest, rfl, hcut⟩ := exists_cut hend
      have hstart : ∀ ch ∈ word.head?, isSkipped ch = false := by
        have hhead := head_skipBlanks false c₀.offset c₀.line c₀.lineStart c₀.rest
        obtain ⟨ch, more, rfl⟩ := List.exists_cons_of_ne_nil hcut.ne_nil
        rw [← Cursor.skip, hleft] at hhead
        exact hhead
      obtain ⟨c', hnext, hahead⟩ := h.next_of_cut htext hgap hcut hstart
      have hnext₀ := next_of_cut hleft hcut
      rw [hskip] at hnext₀
      have hshorter : rest.length < c₀.rest.length := by
        have := List.length_pos_iff.2 hcut.ne_nil
        simp [htext]
        omega
      obtain ⟨d, hd, hoffset, htokens⟩ := ih rest.length hshorter hahead rfl
      refine ⟨d, hd, ?_, ?_⟩
      · rw [hoffset, htext, byteLength_append, byteLength_append]
        simp only [Cursor.after, Cursor.offset_along]
        omega
      · rw [tokensFrom_of_token hnext₀ hcut.ne_endOfInput,
          tokensFrom_of_token hnext hcut.ne_endOfInput, htokens,
          List.dropLast_cons_of_ne_nil (tokensFrom_ne_nil _), List.cons_append]

end Scan
end Refscript
