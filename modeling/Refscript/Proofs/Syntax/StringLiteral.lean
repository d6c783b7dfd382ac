import Refscript.Proofs.Source.Mode
import Refscript.Proofs.Syntax.Reading

/-!
# Refscript.Proofs.Syntax.StringLiteral

Strings are gone through twice: the scanner looks for the closing quote, and the parser takes the
escapes apart. Both have to agree on which backslashes are escapes.

* `exists_unescape`: where the scanner finds the closing quote, no escape is left open before it.
* `string_literals`: the rule for strings gives a string for every string token of every text, and a
  text in quotes, with its quotes and backslashes escaped, is one token with that text as its
  string.
-/

namespace Refscript
namespace Parse

open Scan

/-- The rule for the token gives the string and takes nothing more. -/
def ReadsString (t : Token) (value : String) : Prop :=
  ∀ sub fuel, startWith sub fuel t = pure (.make t.pos (.str value))

theorem readsString_of_unescape {t : Token} {value : List Char} (hkind : t.kind = .string)
    (h : unescape (quotedBody t.lexeme) = some value) : ReadsString t (String.ofList value) := by
  intro sub fuel
  rw [startWith, hkind]
  simp only [stringLiteral, h]

/-- A closing quote is not part of an escape, so there is no escape without its character before
it. -/
theorem exists_unescape {body : List Char}
    (h : stringLength false (body ++ ['"']) = (body.length + 1, true)) :
    ∃ value, unescape body = some value := by
  fun_induction unescape body with
  | case1 => exact ⟨[], rfl⟩
  | case2 => simp [stringLength] at h
  | case3 c cs ih =>
    have hrest : stringLength false (cs ++ ['"']) = (cs.length + 1, true) := by
      simpa [stringLength, Prod.ext_iff] using h
    obtain ⟨value, hvalue⟩ := ih hrest
    exact ⟨_, by rw [hvalue, Option.map_some]⟩
  | case4 c cs hlone hpair ih =>
    have hbackslash : c ≠ '\\' := by
      rintro rfl
      cases cs with
      | nil => exact hlone rfl rfl
      | cons d ds => exact hpair d ds rfl rfl
    have hquote : c ≠ '"' := by
      rintro rfl
      simp [stringLength] at h
    have hrest : stringLength false (cs ++ ['"']) = (cs.length + 1, true) := by
      simpa [stringLength, hquote, beq_eq_false_iff_ne.2 hbackslash, Prod.ext_iff] using h
    obtain ⟨value, hvalue⟩ := ih hrest
    exact ⟨_, by rw [hvalue, Option.map_some]⟩

/-- A string token has its quotes, and the rule for strings reads it. -/
theorem exists_readsString {source : String} {t : Token} (ht : t ∈ tokens source)
    (hkind : t.kind = .string) :
    ∃ body value, t.lexeme = String.ofList ('"' :: (body ++ ['"'])) ∧ ReadsString t value := by
  obtain ⟨body, hbody⟩ := quoted_of_mem_tokensFrom _ t ht hkind
  have hstable : t.form.Stable := by
    refine (stable_of_mem_tokensFrom ht (by simp [hkind])).resolve_left fun hend => ?_
    have hkind' : t.kind = .endOfInput := congrArg Lexeme.kind hend
    rw [hkind] at hkind'
    cases hkind'
  obtain ⟨-, c, word, htext, -, hstands⟩ := hstable
  obtain ⟨rfl, rfl⟩ : c = '"' ∧ word = body ++ ['"'] := by
    have htext' : t.lexeme.toList = c :: word := htext
    rw [hbody, String.toList_ofList] at htext'
    exact ⟨(List.cons.inj htext').1.symm, (List.cons.inj htext').2.symm⟩
  -- where nothing follows it, the scanner ends it at the same quote
  have htoken := hstands [] (by simp [Parted])
  have hkind' : t.form.kind = .string := hkind
  rw [tokenAt_of_quote, List.append_nil, hkind'] at htoken
  obtain ⟨hclosed, hlength⟩ := Prod.mk.inj htoken
  have hlength : stringLength false (body ++ ['"']) = (body.length + 1, true) := by
    refine Prod.ext (by simpa using hlength) ?_
    by_contra hopen
    rw [if_neg hopen] at hclosed
    cases hclosed
  obtain ⟨value, hvalue⟩ := exists_unescape hlength
  rw [← quotedBody_enclosed body, ← hbody] at hvalue
  exact ⟨body, _, hbody, readsString_of_unescape hkind hvalue⟩

/-- The token is the text in quotes, at the given offset, and is read as the text. -/
structure IsLiteral (s : String) (start : Nat) (t : Token) : Prop where
  kind : t.kind = .string
  start : t.start = start
  lexeme : t.lexeme = quoted s
  value : ReadsString t s

theorem cut_quoted (s : String) (rest : List Char) : Cut .string (quoted s).toList rest := by
  rw [quoted, String.toList_ofList]
  refine .of_tokenAt ?_
  rw [tokenAt_of_quote, List.append_assoc, List.singleton_append, stringLength_escaped]
  simp

/-- Wherever the scanner comes to a text in quotes, it takes the text as a whole. -/
theorem next_quoted (s : String) (c : Cursor) (rest : List Char)
    (hrest : c.rest = (quoted s).toList ++ rest) :
    ∃ t c', next c = (t, c') ∧ IsLiteral s c.offset t ∧ c'.rest = rest ∧ c'.offset = t.stop := by
  have hstart : c.rest = '"' :: (escaped s.toList ++ ['"'] ++ rest) := by
    rw [hrest, quoted, String.toList_ofList, List.cons_append]
  have hskip : c.skip = c := skip_of_start hstart (by decide)
  have hnext := next_of_cut (by rw [hskip, hrest]) (cut_quoted s rest)
  rw [hskip, Cursor.token, String.ofList_toList] at hnext
  refine ⟨_, _, hnext, ⟨rfl, rfl, rfl, ?_⟩, rfl, rfl⟩
  have hvalue : unescape (quotedBody (quoted s)) = some s.toList := by
    rw [quotedBody_quoted, unescape_escaped]
  have hreads :=
    readsString_of_unescape
    (t := ⟨.string, c.offset, c.offset + byteLength (quoted s).toList, c.pos,
    quoted s⟩) rfl hvalue
  rwa [String.ofList_toList] at hreads

/-- Every string token of every text has its quotes and is read as a string. The quotes around a
string and the backslashes before its own quotes and backslashes make it one token that is read as
the string: wherever the scanner looks for a token and finds it, and so in every text in which it
does not begin in a string or in a comment. -/
theorem string_literals :
    (∀ {source : String} {t : Token}, t ∈ tokens source → t.kind = .string →
      ∃ body value, t.lexeme = String.ofList ('"' :: (body ++ ['"'])) ∧ ReadsString t value) ∧
    (∀ (s : String) (c : Cursor) (rest : List Char), c.rest = (quoted s).toList ++ rest →
      ∃ t c', next c = (t, c') ∧ IsLiteral s c.offset t ∧ c'.rest = rest ∧ c'.offset = t.stop) ∧
    (∀ s before after : String, Mode.outside.after before.toList = .outside →
      ∃ t c', tokens (before ++ quoted s ++ after) = (tokens before).dropLast ++ t ::
      tokensFrom c' ∧
        IsLiteral s before.utf8ByteSize t ∧ c'.rest = after.toList ∧ c'.offset = t.stop) := by
  refine ⟨exists_readsString, next_quoted, fun s before after hmode => ?_⟩
  have htext : (quoted s ++ after).toList = '"' :: (escaped s.toList ++ '"' :: after.toList) := by
    simp [quoted]
  have hahead : QuoteAhead (escaped s.toList ++ '"' :: after.toList) (.ofText before.toList)
      (.ofText (before ++ quoted s ++ after).toList) := by
    refine ⟨⟨rfl, rfl, rfl⟩, ?_, hmode⟩
    rw [← htext]
    simp [Cursor.ofText]
  obtain ⟨d, hd, hoffset, htokens⟩ := tokensFrom_before_quote hahead
  obtain ⟨t, c', hnext, hliteral, hrest, hstop⟩ := next_quoted s d after.toList
    (by rw [hd, ← htext, String.toList_append])
  refine ⟨t, c', ?_, ?_, hrest, hstop⟩
  · rw [tokens, htokens, tokensFrom_of_token hnext (by simp [hliteral.kind])]
    rfl
  · have hsize : d.offset = before.utf8ByteSize := by
      rw [hoffset, ← String.ofList_toList (s := before), utf8ByteSize_ofList, String.ofList_toList]
      exact Nat.zero_add _
    rwa [hsize] at hliteral

/-- A string with a quote, a backslash, a line break and a letter of two bytes, after a comment with
a quote in it and a string that ends with an escaped backslash, and before a quote that opens
another string. -/
theorem string_literals_in_call :
    Mode.outside.after "#\"\nf(\"\\\\\",".toList = .outside ∧
    ∃ t c', tokens ("#\"\nf(\"\\\\\"," ++ "\"\\\"\n\\\\é\"" ++ "\")") =
        (tokens "#\"\nf(\"\\\\\",").dropLast ++ t :: tokensFrom c' ∧
      IsLiteral "\"\n\\é" 10 t ∧ c'.rest = ['"', ')'] ∧ c'.offset = t.stop := by
  have hmode : Mode.outside.after "#\"\nf(\"\\\\\",".toList = .outside := by decide
  have hquoted : quoted "\"\n\\é" = "\"\\\"\n\\\\é\"" := by decide
  have hsize : "#\"\nf(\"\\\\\",".utf8ByteSize = 10 := by decide
  have hliteral := string_literals.2.2 "\"\n\\é" "#\"\nf(\"\\\\\"," "\")" hmode
  rw [hquoted, hsize] at hliteral
  exact ⟨hmode, hliteral⟩

end Parse
end Refscript
