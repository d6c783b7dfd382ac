import Mathlib.Data.List.DropRight
import Refscript.Proofs.Source.Tiling

/-!
# Refscript.Proofs.Source.Positions

Where tokens are said to stand, against where they stand.

* `Position.ofPrefix`: the line and the column after a text, counted from its line breaks.
* `Tracks`: a cursor has counted the breaks of the text before it but for some, and knows its line
  if it missed none.
* `position_exact_iff`: the position of a token is exact unless a string before it has a break after
  a backslash; every such break is missing from the line of all later tokens.
-/

namespace Refscript

/-- The position after a text: its breaks give the line, and the bytes after the last of them the
column. -/
def Position.ofPrefix (before : List Char) : Position :=
  ⟨1 + before.count '\n', 1 + Scan.byteLength (before.rtakeWhile (· != '\n'))⟩

namespace Scan

/-- The line breaks that stand right after a backslash which is not itself hidden by one. -/
def escapedBreaks (escaped : Bool) : List Char → Nat
  | [] => 0
  | c :: cs =>
    if escaped then escapedBreaks false cs + (if c = '\n' then 1 else 0)
    else escapedBreaks (c == '\\') cs

end Scan

def Token.escapedBreaks (t : Token) : Nat :=
  Scan.escapedBreaks false t.lexeme.toList

namespace Scan

/-- After `before` the cursor has counted all line breaks but `missed` of them. -/
structure Tracks (before : List Char) (missed : Nat) (c : Cursor) : Prop where
  line : c.line + missed = 1 + before.count '\n'
  column : missed = 0 → c.lineStart + byteLength (before.rtakeWhile (· != '\n')) = c.offset

namespace Tracks

variable {before : List Char} {missed : Nat} {c : Cursor}

theorem ofText (text : List Char) : Tracks [] 0 (.ofText text) :=
  ⟨rfl, fun _ => rfl⟩

theorem line_pos (h : Tracks before missed c) :
    c.pos.line + missed = (Position.ofPrefix before).line :=
  h.line

/-- The position is exact if nothing was missed, and only then, since the line shows it. -/
theorem pos_eq_iff (h : Tracks before missed c) :
    c.pos = Position.ofPrefix before ↔ missed = 0 := by
  constructor
  · intro hpos
    have hline := h.line_pos
    rw [hpos] at hline
    omega
  · intro hmissed
    have hline := h.line
    have hcolumn := h.column hmissed
    simp only [Cursor.pos, Position.ofPrefix, Position.mk.injEq]
    omega

theorem line_break (h : Tracks before missed c) (rest : List Char) :
    Tracks (before ++ ['\n']) missed ⟨rest, c.offset + 1, c.line + 1, c.offset + 1⟩ := by
  refine ⟨?_, fun _ => ?_⟩
  · have := h.line
    simp
    omega
  · rw [List.rtakeWhile_concat_neg _ _ _ (by simp)]
    rfl

theorem other {ch : Char} (h : Tracks before missed c) (hch : ch ≠ '\n') (rest : List Char) :
    Tracks (before ++ [ch]) missed ⟨rest, c.offset + ch.utf8Size, c.line, c.lineStart⟩ := by
  refine ⟨?_, fun hmissed => ?_⟩
  · have := h.line
    simp [hch]
    omega
  · have := h.column hmissed
    have hlength : byteLength [ch] = ch.utf8Size := rfl
    rw [List.rtakeWhile_concat_pos _ _ _ (by simpa using hch), byteLength_append, hlength]
    dsimp only
    omega

theorem hidden (h : Tracks before missed c) (ch : Char) (rest : List Char) :
    Tracks (before ++ [ch]) (missed + if ch = '\n' then 1 else 0)
      ⟨rest, c.offset + ch.utf8Size, c.line, c.lineStart⟩ := by
  by_cases hch : ch = '\n'
  · refine ⟨?_, fun hmissed => ?_⟩
    · have := h.line
      simp [hch]
      omega
    · simp [hch] at hmissed
  · rw [if_neg hch]
    exact h.other hch rest

theorem pass (h : Tracks before missed c) (ch : Char) :
    Tracks (before ++ [ch]) missed (c.pass ch) := by
  unfold Cursor.pass
  split
  · rename_i hch
    subst hch
    exact h.line_break _
  · rename_i hch
    exact h.other hch _

theorem along (h : Tracks before missed c) (text : List Char) :
    Tracks (before ++ text) missed (c.along text) := by
  induction text generalizing before c with
  | nil => exact (List.append_nil before).symm ▸ h
  | cons ch text ih =>
    have := ih (h.pass ch)
    simpa using this

/-- The characters of a token are passed with their breaks counted, those after a backslash
apart. -/
theorem after (h : Tracks before missed c) (escaped : Bool) (word rest : List Char) :
    Tracks (before ++ word) (missed + escapedBreaks escaped word)
      ⟨rest, c.offset + byteLength word, (linesIn escaped c.offset c.line c.lineStart word).1,
        (linesIn escaped c.offset c.line c.lineStart word).2⟩ := by
  induction word generalizing before missed c escaped with
  | nil =>
    exact ⟨by simpa [escapedBreaks,
      linesIn] using h.line, by simpa [escapedBreaks, linesIn, byteLength] using h.column⟩
  | cons ch word ih =>
    rw [List.append_cons, byteLength_cons, ← Nat.add_assoc]
    cases escaped with
    | true =>
      have := ih (h.hidden ch []) false
      simpa [linesIn, escapedBreaks, Nat.add_assoc, Nat.add_comm, Nat.add_left_comm] using this
    | false =>
      by_cases hch : ch = '\n'
      · subst hch
        exact ih (h.line_break []) false
      · have := ih (h.other hch []) (ch == '\\')
        simpa [linesIn, escapedBreaks, hch] using this

end Tracks

/-- The breaks that tokens hide. -/
def hiddenBreaks : List Token → Nat
  | [] => 0
  | t :: ts => t.escapedBreaks + hiddenBreaks ts

theorem hiddenBreaks_eq_zero_iff (ts : List Token) :
    hiddenBreaks ts = 0 ↔ ∀ t ∈ ts, t.escapedBreaks = 0 := by
  induction ts with
  | nil => simp [hiddenBreaks]
  | cons t ts ih => simp [hiddenBreaks, ih]

/-- A token that stands after `before` and has the position of a cursor there. -/
structure Placed (before : List Char) (missed : Nat) (t : Token) : Prop where
  start : t.start = byteLength before
  pos : ∃ c, Tracks before missed c ∧ t.pos = c.pos

theorem Tracks.placed {before : List Char} {missed : Nat} {c : Cursor} (h : Tracks before missed c)
    (hoffset : c.offset = byteLength before) (kind : TokenKind) (word : List Char) :
    Placed before missed (c.token kind word) :=
  ⟨hoffset, c, h, rfl⟩

theorem placed_tokensFrom (c : Cursor) :
    ∀ before missed, c.offset = byteLength before → Tracks before missed c →
    ∀ pre t post, tokensFrom c = pre ++ t :: post →
      ∃ mid rest, c.rest = mid ++ rest ∧ Placed (before ++ mid) (missed + hiddenBreaks pre) t := by
  induction c using tokensFrom_induction with
  | last c hgap =>
    intro before missed hoffset htracks pre t post hts
    cases pre with
    | nil =>
      obtain ⟨rfl, -⟩ := List.cons.inj hts
      refine ⟨c.rest, [], by simp, (htracks.along c.rest).placed ?_ _ _⟩
      rw [Cursor.offset_along, hoffset, byteLength_append]
    | cons u pre => simp at hts
  | token c gap word rest kind ts hrest hgap hcut ih =>
    intro before missed hoffset htracks pre t post hts
    have hgapped : (c.along gap).offset = byteLength (before ++ gap) := by
      rw [Cursor.offset_along, hoffset, byteLength_append]
    cases pre with
    | nil =>
      obtain ⟨rfl, -⟩ := List.cons.inj hts
      exact ⟨gap,
        word ++ rest, by rw [hrest, List.append_assoc], (htracks.along gap).placed hgapped _ _⟩
    | cons u pre =>
      obtain ⟨rfl, htail⟩ := List.cons.inj hts
      have hafter : (c.along gap).offset + byteLength word =
          byteLength (before ++ gap ++ word) := by
        rw [hgapped, ← byteLength_append]
      obtain ⟨mid, more, hmore, hplaced⟩ :=
        ih _ _ hafter ((htracks.along gap).after false word rest) pre t post htail
      refine ⟨gap ++ word ++ mid, more, ?_, ?_⟩
      · obtain rfl : rest = mid ++ more := hmore
        rw [hrest, List.append_assoc _ mid]
      · have hhidden : Token.escapedBreaks ((c.along gap).token kind word) =
            escapedBreaks false word := by
          simp [Token.escapedBreaks, Cursor.token]
        simpa [hiddenBreaks, hhidden, Nat.add_assoc] using hplaced

/-- A token is said to stand where it stands if and only if no token before it hides a line break
after a backslash; each hidden break is missing from its line. -/
theorem position_exact_iff {source : String} {pre post : List Token} {t : Token}
    (h : tokens source = pre ++ t :: post) :
    ∃ before after, source.toList = before ++ after ∧ t.start = byteLength before ∧
      t.pos.line + hiddenBreaks pre = (Position.ofPrefix before).line ∧
      (t.pos = Position.ofPrefix before ↔ ∀ u ∈ pre, u.escapedBreaks = 0) := by
  obtain ⟨before, after, htext, hstart, c, htracks, hpos⟩ :=
    placed_tokensFrom _ [] 0 rfl (.ofText source.toList) pre t post h
  rw [List.nil_append, Nat.zero_add] at htracks
  refine ⟨before, after, htext, hstart, ?_, ?_⟩
  · rw [hpos]
    exact htracks.line_pos
  · rw [hpos, htracks.pos_eq_iff, hiddenBreaks_eq_zero_iff]

/-- Breaks in a string, in a comment and after it are all counted. -/
theorem position_exact_after_comment :
    ∃ pre t post, tokens "\"a\nb\" # note\n c" = pre ++ t :: post ∧ t.pos = ⟨3, 2⟩ ∧
      ∃ before after, "\"a\nb\" # note\n c".toList = before ++ after ∧ t.start = byteLength before ∧
        t.pos.line + hiddenBreaks pre = (Position.ofPrefix before).line ∧
        (t.pos = Position.ofPrefix before ↔ ∀ u ∈ pre, u.escapedBreaks = 0) := by
  have h : tokens "\"a\nb\" # note\n c" =
      [⟨.string, 0, 5, ⟨1, 1⟩, "\"a\nb\""⟩] ++ ⟨.identifier, 14, 15, ⟨3, 2⟩, "c"⟩ ::
        [⟨.endOfInput, 15, 15, ⟨3, 3⟩, ""⟩] := by
    decide +kernel
  exact ⟨_, _, _, h, rfl, position_exact_iff h⟩

/-- A break after a backslash in a string moves the tokens after it to the line before and to the
right. -/
theorem position_inexact_after_escaped_break :
    ∃ t ∈ tokens "\"a\\\nb\" c", t.start = byteLength "\"a\\\nb\" ".toList ∧ t.pos = ⟨1, 8⟩ ∧
      Position.ofPrefix "\"a\\\nb\" ".toList = ⟨2, 4⟩ := by
  decide +kernel

end Scan
end Refscript
