import Refscript.FileTree
import Refscript.Shell

/-!
# Refscript.Main

The program: the shell on the real console.
-/

namespace Refscript
namespace Console

/-- Reads one line, byte by byte, up to its line break or the end of the input. -/
partial def readLineBytes (stdin : IO.FS.Stream) (line : ByteArray) : IO ByteArray := do
  let next ← stdin.read 1
  if next.isEmpty then return line
  let line := line ++ next
  if next.toList == [10] then return line
  readLineBytes stdin line

def readLine : IO InputLine := do
  match String.fromUTF8? (← readLineBytes (← IO.getStdin) .empty) with
  | some line => return .text line
  | none => return .malformed

/-- The number of an error of the operating system; some of its callers give it negated. -/
def errorNumber (code : UInt32) : Nat :=
  if code.toNat < 2147483648 then code.toNat else 4294967296 - code.toNat

/-- The wording of an error of the operating system. -/
def wording (code : UInt32) (details : String) : String :=
  let n := errorNumber code
  FileFault.numbered (((FileFault.ofNumber? n).map FileFault.text).getD details.capitalize) n

/-- What the operating system says of a failure. -/
def reason (e : IO.Error) : String :=
  match e with
  | .alreadyExists _ code details | .otherError code details | .resourceBusy code details
  | .resourceVanished code details | .unsupportedOperation code details
      | .hardwareFault code details
  | .unsatisfiedConstraints code details | .illegalOperation code details
      | .protocolError code details
  | .timeExpired code details | .interrupted _ code details | .noFileOrDirectory _ code details
  | .invalidArgument _ code details | .permissionDenied _ code details | .resourceExhausted
      _ code details
  | .inappropriateType _ code details | .noSuchThing _ code details =>
    wording code details
  | .unexpectedEof => "unexpected end of file"
  | .userError text => text

def readFile (path : String) : IO (Except String ByteArray) := do
  try
    return .ok (← IO.FS.readBinFile path)
  catch e =>
    return .error (reason e)

/-- The longest single pause asked of the operating system, in milliseconds. -/
def longestPause : Nat := 1000000

def sleep (milliseconds : Nat) : IO Unit := do
  for _ in [0 : milliseconds / longestPause] do
    IO.sleep (UInt32.ofNat longestPause)
  IO.sleep (UInt32.ofNat (milliseconds % longestPause))

/-- Milliseconds since the first reading, which is kept in `first`. -/
def clock (first : IO.Ref (Option Nat)) : IO Nat := do
  let now ← IO.monoMsNow
  match ← first.get with
  | some start => return now - start
  | none =>
    first.set (some now)
    return 0

def random (low high : Int64) : IO Int64 := do
  let span := (high.toInt - low.toInt).toNat
  let n ← IO.rand 0 (span - 1)
  return Int64.ofInt (low.toInt + n)

def write (out : IO.FS.Stream) (text : String) : IO Unit := do
  out.putStr text
  out.flush

def terminal (first : IO.Ref (Option Nat)) : Terminal IO where
  write text := do write (← IO.getStdout) text
  writeError text := do write (← IO.getStderr) text
  readLine := readLine
  clock := clock first
  sleep := sleep
  random := random
  readFile := readFile

/-- Runs a task to its end. -/
partial def finish (t : Terminal IO) (o : Outcome) : IO Outcome := do
  match ← Machine.drive t noHost false 1 o with
  | .running m => finish t (.running m)
  | .waiting r m => finish t (.waiting r m)
  | o => return o

/-- Reads and runs lines to the end of the input. -/
partial def loop (sh : Shell IO) (m : Machine) : IO UInt32 := do
  match ← sh.turn m with
  | .ok m => loop sh m
  | .error code => return code

end Console
end Refscript

def main (args : List String) : IO UInt32 := do
  let terminal := Refscript.Console.terminal (← IO.mkRef none)
  let sh : Refscript.Shell IO := ⟨terminal, false, Refscript.Console.finish terminal⟩
  sh.command (Refscript.Console.loop sh) args
