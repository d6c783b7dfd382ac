import Refscript.Code.Lower
import Refscript.Code.StackCheck
import Refscript.Store.Kit
import Refscript.Terminal

/-!
# Refscript.Shell

The command line: running a file, and reading programs line by line.
-/

namespace Refscript

/-- Why a program text has no value. -/
inductive Failure where
  | compile (e : CompileError)
  | runtime (e : RuntimeError)
  /-- The machine cannot go on, or was not given the time to. -/
  | incomplete

/-- The exit code of a program that has failed; a machine that cannot go on takes everything down
with it. -/
def Failure.exitCode : Failure → UInt32
  | incomplete => 101
  | _ => 70

structure Shell (μ : Type → Type) where
  terminal : Terminal μ
  /-- Whether programs are listed and their steps shown. -/
  trace : Bool
  /-- Brings a task to its end. -/
  finish : Outcome → μ Outcome

namespace Machine

/-- The number of calls in progress that is allowed unless said otherwise. -/
def defaultLimit : Nat := 200

/-- A machine at rest. -/
def idle (store : Store) (limit : Nat) : Machine :=
  ⟨store, [], none, 0, limit⟩

/-- A machine at rest with the standard kit. -/
def standard : Machine :=
  idle (StandardKit.install .initial) defaultLimit

end Machine

/-- The listing of a program, with what the check of its stack heights objects to. -/
def Prototype.review (p : Prototype) : String :=
  p.listing ++
    match p.checkHeights with
    | .ok () => ""
    | .error v => "stack check failed: " ++ v.message ++ "\n"

/-- How a task ended, and the machine it leaves. A machine that did not end its task is replaced by
the given one. -/
def Outcome.settle (o : Outcome) (before : Machine) : Except Failure Value × Machine :=
  match o with
  | .returned v m => (.ok v, m)
  | .failed e m => (.error (.runtime e), m)
  | _ => (.error .incomplete, before)

namespace Shell

variable {μ : Type → Type} [Monad μ]

/-- Compiles and runs a program. -/
def interpret (sh : Shell μ) (source : String) (m : Machine) :
    μ (Except Failure Value × Machine) := do
  match compile source with
  | .error e => return (.error (.compile e), m)
  | .ok p =>
    if sh.trace then sh.terminal.write p.review
    return (← sh.finish (m.runPrototype p [])).settle m

/-- Tells the user why a program has no value. What is said when everything goes down is left
open. -/
def report (sh : Shell μ) : Failure → μ Unit
  | .compile e@(.rejected ds) =>
    sh.terminal.writeError (String.join (ds.map fun d => d.text ++ "\n") ++ e.message ++ "\n")
  | .compile e => sh.terminal.writeError (e.message ++ "\n")
  | .runtime e => sh.terminal.writeError (e.message ++ "\n")
  | .incomplete => pure ()

/-- What is said of bytes that are not valid UTF-8. -/
def malformedText : String := "stream did not contain valid UTF-8"

/-- Reads and runs one line. Gives the exit code if it was the last one. -/
def turn (sh : Shell μ) (m : Machine) : μ (Except UInt32 Machine) := do
  sh.terminal.write "> "
  match ← sh.terminal.readLine with
  | .malformed =>
    sh.terminal.writeError ("Unable to read input: " ++ malformedText ++ "\n")
    return .error 0
  | .text line =>
    if line.isEmpty then return .error 0
    match ← sh.interpret line m with
    | (.ok v, m) =>
      sh.terminal.write (m.store.repr v ++ "\n")
      return .ok m
    | (.error .incomplete, _) => return .error Failure.incomplete.exitCode
    | (.error e, m) =>
      sh.report e
      return .ok m

/-- Reads and runs lines, for a number of turns at most, and gives the exit code. -/
def turns (sh : Shell μ) : Nat → Machine → μ UInt32
  | 0, _ => return 0
  | n + 1, m => do
    match ← sh.turn m with
    | .ok m => sh.turns n m
    | .error code => return code

/-- Runs a file and gives the exit code. -/
def runFile (sh : Shell μ) (path : String) : μ UInt32 := do
  let unreadable (why : String) : μ UInt32 := do
    sh.terminal.writeError ("Unable to read file: " ++ why ++ "\n")
    return 0
  match ← sh.terminal.readFile path with
  | .error why => unreadable why
  | .ok bytes =>
    match String.fromUTF8? bytes with
    | none => unreadable malformedText
    | some source =>
      match ← sh.interpret source .standard with
      | (.ok v, m) =>
        sh.terminal.write ("Program exited successfully with value: " ++ m.store.repr v ++ "\n")
        return 0
      | (.error e, _) =>
        sh.report e
        return e.exitCode

/-- Acts on command-line arguments and gives the exit code; `loop` reads and runs lines. -/
def command (sh : Shell μ) (loop : Machine → μ UInt32) : List String → μ UInt32
  | [] => loop .standard
  | [path] => sh.runFile path
  | _ => do
    sh.terminal.writeError "Usage: sable [script]\n"
    return 0

end Shell
end Refscript
