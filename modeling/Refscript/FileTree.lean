/-!
# Refscript.FileTree

Files by their paths. A path is walked part by part from the root or from the working folder: `.`
stays, `..` goes up as far as the root, and empty parts between slashes count for nothing. Anything
but a folder ends the walk, even before a last slash, and a name is judged too long only in a folder
that could hold it.
-/

namespace Refscript

/-- Why a file cannot be read. -/
inductive FileFault where
  | missing
  | notFolder
  | isFolder
  | nameTooLong
  deriving DecidableEq, Repr

namespace FileFault

/-- The number under which the operating system knows the fault. -/
def number : FileFault → Nat
  | missing => 2
  | notFolder => 20
  | isFolder => 21
  | nameTooLong => 36

def text : FileFault → String
  | missing => "No such file or directory"
  | notFolder => "Not a directory"
  | isFolder => "Is a directory"
  | nameTooLong => "File name too long"

def ofNumber? (n : Nat) : Option FileFault :=
  [missing, notFolder, isFolder, nameTooLong].find? (·.number == n)

/-- The wording of a fault of the operating system with its number. -/
def numbered (text : String) (n : Nat) : String :=
  text ++ " (os error " ++ toString n ++ ")"

def message (f : FileFault) : String :=
  numbered f.text f.number

end FileFault

inductive FileTree where
  | file (bytes : ByteArray)
  /-- What stands on the input of the console. -/
  | console
  | folder (entries : List (String × FileTree))

namespace FileTree

/-- The most bytes a name may have. -/
def longestName : Nat := 255

/-- What stands at the end of a walk from `t`, where `up` are the folders above it, the nearest
first. -/
def walk (up : List FileTree) (t : FileTree) : List String → Except FileFault FileTree
  | [] => .ok t
  | part :: rest =>
    match t with
    | .folder entries =>
      if part = "" ∨ part = "." then walk up t rest
      else if part = ".." then
        match up with
        | [] => walk [] t rest
        | above :: up => walk up above rest
      else if longestName < part.utf8ByteSize then .error .nameTooLong
      else
        match entries.lookup part with
        | some inner => walk (t :: up) inner rest
        | none => .error .missing
    | _ => .error .notFolder

end FileTree

structure FileSystem where
  root : FileTree
  /-- The way from the root to the working folder. -/
  here : List String

namespace FileSystem

/-- The most bytes a path may have. -/
def longestPath : Nat := 4095

def find (s : FileSystem) (path : String) : Except FileFault FileTree :=
  if path.isEmpty then .error .missing
  else if longestPath < path.utf8ByteSize then .error .nameTooLong
  else
    let parts := path.splitOn "/"
    s.root.walk [] (if path.front = '/' then parts else s.here ++ parts)

/-- The folders that stand at the root beside the devices and the working folder. They are taken as
empty. -/
def commonFolders : List String :=
  ["bin", "boot", "etc", "lib", "media", "mnt", "opt", "proc", "root", "run", "sbin", "srv",
    "sys", "tmp", "usr",
    "var"]

/-- The device that is always empty and those that give the input of the console. -/
def devices : FileTree :=
  .folder [("null", .file .empty), ("stdin", .console), ("fd", .folder [("0", .console)])]

/-- A system with the devices and the given files in its working folder. -/
def standard (files : List (String × ByteArray)) : FileSystem where
  root :=
    .folder
    (("dev", devices) :: ("home", .folder (files.map fun (name, bytes) => (name, .file bytes))) ::
    commonFolders.map fun name => (name, .folder []))
  here := ["home"]

end FileSystem
end Refscript
