import Refscript.Proofs.Code.Commands

/-!
# Refscript.Proofs.Code.Lines

The lines of a built function. A line table keeps runs of equal lines; what it stands for is a list
with the line of every instruction.

* `LineTable.expand`: this list. `expand_push`, `line_eq_expand`: appending to a table appends to
  the list, and looking a line up looks it up in the list.
* `Build.emittedLines`: what a log of the calls on a builder would say, with the line that was set
  last for every instruction that a call has added.
* `line_of_instruction`: the table of the built function says the same.
-/

namespace Refscript

namespace LineTable

/-- The line of every instruction. -/
def expand (t : LineTable) : List Nat :=
  t.runs.reverse.flatMap fun r => List.replicate r.length r.line

theorem expand_push (t : LineTable) (line : Nat) : (t.push line).expand = t.expand ++ [line] := by
  obtain ⟨runs⟩ := t
  cases runs with
  | nil => rfl
  | cons r rs =>
    unfold push
    dsimp only
    split
    · rename_i hline
      simp [expand, hline, List.replicate_succ']
    · simp [expand]

theorem expand_foldl_push {α : Type} (t : LineTable) (line : Nat) (xs : List α) :
    (xs.foldl (fun t _ => t.push line) t).expand = t.expand ++ List.replicate xs.length line := by
  induction xs generalizing t with
  | nil => simp
  | cons x xs ih =>
    rw [List.foldl_cons, ih, expand_push, List.append_assoc, List.length_cons, List.replicate_succ];
      rfl

theorem lineIn_eq (rs : List LineRun) (i : Nat) :
    lineIn rs i = (rs.flatMap fun r => List.replicate r.length r.line).getD i 0 := by
  induction rs generalizing i with
  | nil => rfl
  | cons r rs ih =>
    rw [lineIn, List.flatMap_cons, List.getD_eq_getElem?_getD, List.getElem?_append,
      List.length_replicate]
    split
    · rename_i hlt
      rw [List.getElem?_replicate_of_lt hlt]
      rfl
    · rw [ih, List.getD_eq_getElem?_getD]

theorem line_eq_expand (t : LineTable) (i : Nat) : t.line i = t.expand.getD i 0 :=
  lineIn_eq t.runs.reverse i

end LineTable

namespace Build

/-- The lines of the instructions that calls add to a builder, when `line` is set at first. -/
def emittedLines (line : Nat) (b : Builder) : List Command → List Nat
  | [] => []
  | x :: xs =>
    match x.perform b with
    | .ok _ c =>
      List.replicate (c.position - b.position) line ++ emittedLines (x.line?.getD line) c xs
    | .error _ _ => []

variable {x : Command} {xs : List Command} {b c d : Builder}

theorem emittedLines_cons (line : Nat) (h : x.perform b = .ok () c) :
    emittedLines line b (x :: xs) =
    List.replicate (c.position - b.position) line ++ emittedLines (x.line?.getD line) c xs := by
  rw [emittedLines, h]

/-- A call adds a line for every instruction that it adds. -/
theorem Command.Performed.lines (h : Performed b x c) :
    b.position ≤ c.position ∧ c.line = x.line?.getD b.line ∧
      c.lines.expand = b.lines.expand ++ List.replicate (c.position - b.position) b.line := by
  cases h with
  | setLine line => simp [Command.line?, Builder.position]
  | patchJump site target =>
    rw [Builder.patch_position, Nat.sub_self, Builder.patch_eq]
    simp [Command.line?]
  | @other x c is hline hext =>
    have hposition : c.position = b.position + is.length := by
      simpa [Builder.position] using congrArg List.length hext.code
    refine ⟨by omega, by rw [hline, hext.line]; rfl, ?_⟩
    rw [hext.lines, LineTable.expand_foldl_push, hposition, Nat.add_sub_cancel_left]

theorem lines_of_performAll (h : performAll xs b = .ok () d) :
    d.position = b.position + (emittedLines b.line b xs).length ∧
      d.lines.expand = b.lines.expand ++ emittedLines b.line b xs := by
  induction xs generalizing b with
  | nil =>
    cases h
    simp [emittedLines]
  | cons x xs ih =>
    obtain ⟨c, hx, hxs⟩ := performAll_cons h
    obtain ⟨hle, hline, hlines⟩ := (Command.performed hx).lines
    obtain ⟨hposition, hexpand⟩ := ih hxs
    rw [emittedLines_cons _ hx, ← hline]
    constructor
    · rw [hposition, List.length_append, List.length_replicate]
      omega
    · rw [hexpand, hlines, List.append_assoc]

end Build

open Build

/-- Whatever calls have built a function, it has one instruction for every line of the log, and each
instruction has the line that was set when it was added; beyond the code the line is 0. -/
theorem line_of_instruction {name : Option String} {xs : List Command} {d : Builder}
    (h : performAll xs (.new name) = .ok () d) :
    d.build.code.size = (emittedLines 0 (.new name) xs).length ∧
    ∀ i, d.build.lines.line i = (emittedLines 0 (.new name) xs).getD i 0 := by
  obtain ⟨hposition, hlines⟩ := lines_of_performAll h
  constructor
  · have hsize : d.build.code.size = d.position := Array.size_map
    rw [hsize, hposition]
    exact Nat.zero_add _
  · intro i
    show d.lines.line i = _
    rw [LineTable.line_eq_expand, hlines]
    rfl

/-- Lines that go back and forth, with a jump that is given its target after the line has
changed. -/
def Build.returning : List Command :=
  [.emission .null, .setLine 7, .emission .pop, .jump 0, .setLine 3, .emission .null,
    .patchJump 2 5, .setLine 7, .emission .pop]

theorem line_of_instruction_returning : ∃ d, performAll returning (.new none) = .ok () d ∧
    d.build.code.size = 5 ∧ ∀ i, d.build.lines.line i = [0, 7, 7, 3, 7].getD i 0 := by
  have hlog : emittedLines 0 (.new none) returning = [0, 7, 7, 3, 7] := by decide +kernel
  obtain ⟨d, hd⟩ : ∃ d, performAll returning (.new none) = .ok () d :=
    ⟨_, eq_ok (by decide +kernel)⟩
  have hlines := line_of_instruction hd
  rw [hlog] at hlines
  exact ⟨d, hd, hlines⟩

end Refscript
