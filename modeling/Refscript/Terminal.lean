import Refscript.Code.Listing
import Refscript.Machine.Basic

/-!
# Refscript.Terminal

The outside world as a machine sees it, and the loop that runs a machine against it. The operations
are left open, so that the same loop serves a real console and a recorded one.
-/

namespace Refscript

/-- A line of input with its line break, empty at the end of the input. -/
inductive InputLine where
  | text (line : String)
  /-- The line is not valid UTF-8. -/
  | malformed

structure Terminal (μ : Type → Type) where
  write : String → μ Unit
  writeError : String → μ Unit
  readLine : μ InputLine
  /-- Milliseconds since the clock was first read. -/
  clock : μ Nat
  sleep : Nat → μ Unit
  random : Int64 → Int64 → μ Int64
  /-- The bytes of a file, or why they cannot be had. -/
  readFile : String → μ (Except String ByteArray)

/-- Drops line breaks from the end of a line. -/
def dropLineEnd (line : String) : String :=
  String.ofList ((line.toList.reverse.dropWhile fun c => c == '\n' || c == '\r').reverse)

namespace Terminal

variable {μ : Type → Type} [Monad μ]

/-- Answers a request of a machine. -/
def answer (t : Terminal μ) : Request → μ (Except Fault Value)
  | .write text => do
    t.write text
    return .ok .null
  | .readLine prompt => do
    t.write prompt
    match ← t.readLine with
    | .text line => return .ok (.str (dropLineEnd line))
    | .malformed => return .error (.refused .inputFailed)
  | .clock => do
    return .ok (.int (Int64.ofNat (← t.clock)))
  | .sleep ms => do
    t.sleep ms
    return .ok .null
  | .random low high => do
    return .ok (.int (← t.random low high))
  | .instead v r => return (← t.answer r).map fun _ => v

end Terminal

namespace Machine

/-- The operand stack and the instruction about to be executed, each on a line of its own. -/
def traceText? (m : Machine) : Option String :=
  match m.pending, m.frames with
  | none, f :: _ =>
    if f.ip < f.prototype.code.size then
      let values := f.stack.reverse.map fun v => m.store.repr v ++ " "
      some
        ("        [ " ++ String.join values ++ "]\n" ++
        Listing.instruction f.prototype f.ip ++ "\n")
    else none
  | _, _ => none

variable {μ : Type → Type} [Monad μ]

/-- One step that is shown before it is made. -/
def tracedStep (t : Terminal μ) (host : Host) (m : Machine) : μ Outcome := do
  match m.traceText? with
  | some text => t.write text
  | none => pure ()
  return m.step host

/-- The steps made between two looks at how far a machine is. -/
def stride : Nat := 4096

/-- Runs a task against a terminal, for a number of rounds at most. -/
def drive (t : Terminal μ) (host : Host) (trace : Bool) : Nat → Outcome → μ Outcome
  | 0, o => return o
  | n + 1, .running m => do
    let o ← if trace then m.tracedStep t host else pure (m.run host stride)
    drive t host trace n o
  | n + 1, .waiting r m => do
    drive t host trace n (m.resume (← t.answer r))
  | _ + 1, o => return o

end Machine
end Refscript
