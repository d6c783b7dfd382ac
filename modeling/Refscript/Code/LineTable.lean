/-!
# Refscript.Code.LineTable

The source line of every instruction, as runs of equal lines.
-/

namespace Refscript

/-- So many instructions of one line. The numbers have no bound here; 32 bits hold them for code
with fewer than `2 ^ 32` instructions and lines. -/
structure LineRun where
  line : Nat
  length : Nat
deriving DecidableEq, Repr

/-- Runs of lines in the order of the instructions, the last run first. -/
structure LineTable where
  runs : List LineRun
deriving DecidableEq, Inhabited, Repr

namespace LineTable

def empty : LineTable := ⟨[]⟩

/-- Appends the line of one more instruction. -/
def push (t : LineTable) (line : Nat) : LineTable :=
  match t.runs with
  | [] => ⟨[⟨line, 1⟩]⟩
  | r :: rs => if r.line = line then ⟨⟨line, r.length + 1⟩ :: rs⟩ else ⟨⟨line, 1⟩ :: r :: rs⟩

/-- The line of instruction `i` in runs given first to last, 0 beyond them. -/
def lineIn : List LineRun → Nat → Nat
  | [], _ => 0
  | r :: rs, i => if i < r.length then r.line else lineIn rs (i - r.length)

/-- The line of instruction `i`, 0 beyond the last one. -/
def line (t : LineTable) (i : Nat) : Nat :=
  lineIn t.runs.reverse i

def ofList (lines : List Nat) : LineTable :=
  lines.foldl push empty

end LineTable
end Refscript
