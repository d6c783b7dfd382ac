import Refscript.FileTree
import Refscript.Shell

/-!
# Refscript.Recording

A console that is a value: given input, files, and what has been written so far. Time stands still
on it, and of the numbers that may be drawn it draws the lowest.
-/

namespace Refscript

structure Recording where
  input : List UInt8
  files : FileSystem
  output : String
  errors : String

namespace Recording

/-- A console with nothing on it. -/
def blank : Recording := ⟨[], .standard [], "", ""⟩

/-- The bytes up to the first line break and those after it. -/
def splitLine : List UInt8 → List UInt8 × List UInt8
  | [] => ([], [])
  | b :: rest =>
    if b = 10 then ([b], rest)
    else
      let (line, rest) := splitLine rest
      (b :: line, rest)

def decodeLine (bytes : List UInt8) : InputLine :=
  match String.fromUTF8? ⟨bytes.toArray⟩ with
  | some line => .text line
  | none => .malformed

/-- Reads a file. What is read off the input of the console is gone from it. -/
def readFile (r : Recording) (path : String) : Except FileFault ByteArray × Recording :=
  match r.files.find path with
  | .error f => (.error f, r)
  | .ok (.folder _) => (.error .isFolder, r)
  | .ok (.file bytes) => (.ok bytes, r)
  | .ok .console => (.ok ⟨r.input.toArray⟩, { r with input := [] })

def terminal : Terminal (StateM Recording) where
  write text := modify fun r => { r with output := r.output ++ text }
  writeError text := modify fun r => { r with errors := r.errors ++ text }
  readLine := modifyGet fun r =>
    let (line, rest) := splitLine r.input
    (decodeLine line, { r with input := rest })
  clock := return 0
  sleep _ := return ()
  random low _ := return low
  readFile path := modifyGet fun r =>
    let (bytes, r) := r.readFile path
    (bytes.mapError FileFault.message, r)

/-- A shell on a recorded console; a task may take the given number of rounds. -/
def shell (host : Host) (trace : Bool) (rounds : Nat) : Shell (StateM Recording) :=
  ⟨terminal, trace, Machine.drive terminal host trace rounds⟩

/-- Runs the command line on a recorded console. Each turn takes at least one byte of the input. -/
def commandLine (trace : Bool) (rounds : Nat) (args : List String) (r : Recording) :
    UInt32 × Recording :=
  let sh := shell noHost trace rounds
  (sh.command (sh.turns (r.input.length + 1)) args).run r

end Recording
end Refscript
