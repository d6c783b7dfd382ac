import Refscript.Code.Prototype

/-!
# Refscript.Code.Listing

Compiled code as readable text: a heading for each function, then one line per instruction with its
offset, its source line when that changes, its name and its operands.
-/

namespace Refscript
namespace Listing

/-- Pads a text on the left to a width. -/
def padLeft (width : Nat) (pad : Char) (s : String) : String :=
  String.ofList (List.replicate (width - s.length) pad) ++ s

/-- An index into the constants, with the constant it denotes. -/
def constantOperand (p : Prototype) (i : Nat) : String :=
  match p.constants[i]? with
  | some c => s!" {i} " ++ c.text
  | none => s!" {i} ?"

def tableOperand (p : Prototype) (i : Nat) : String :=
  match p.tables[i]? with
  | some t =>
    let cases := t.cases.entries.map fun (k, target) => k.text ++ s!" -> {target}"
    s!" {i} \x7b" ++ ", ".intercalate cases ++ "\x7d"
  | none => s!" {i}"

def referenceOperand (p : Prototype) (w : Word) : String :=
  match RefKind.ofNumber? w.a with
  | some .global => " Global" ++ constantOperand p w.b
  | some .field => " Field" ++ constantOperand p w.b
  | some kind => " " ++ kind.name ++ s!" {w.b}"
  | none => " ?"

def operands (p : Prototype) (op : Opcode) (w : Word) : String :=
  match op with
  | .const | .loadGlobal | .storeGlobal | .loadField | .storeField | .prefixOp | .infixOp =>
    constantOperand p w.c
  | .invokeMethod => s!" {w.a}" ++ constantOperand p w.b
  | .ref => referenceOperand p w
  | .closure =>
    let name := (p.nested[w.c]?.map Prototype.displayName).getD "?"
    s!" {w.c} <{name}>"
  | .matchOn => tableOperand p w.c
  | op =>
    match op.layout with
    | .none => ""
    | .wide => s!" {w.c}"
    | .split => s!" {w.a} {w.b}"

/-- The line for the instruction at an offset. -/
def instruction (p : Prototype) (i : Nat) : String :=
  let line := p.lines.line i
  let margin :=
    if 0 < i && line == p.lines.line (i - 1) then "   | " else padLeft 4 ' ' (toString line) ++ " "
  let w := p.code.getD i default
  let body :=
    match w.op? with
    | some op => op.name ++ operands p op w
    | none => "????"
  padLeft 4 '0' (toString i) ++ " " ++ margin ++ body

def heading (p : Prototype) : String :=
  let rest := if p.variadic then ".." else ""
  s!"== {p.displayName} (params {p.params}{rest}, locals {p.maxLocals}, stack {p.maxStack}) =="

mutual

/-- The listing of a function and of those inside it; every line ends with a line break. -/
def text : Prototype → String
  | p@⟨_, _, _, _, _, _, _, _, nested, _, _, _, _⟩ =>
    let body := (List.range p.code.size).map fun i => instruction p i ++ "\n"
    heading p ++ "\n" ++ String.join body ++ textAll nested

def textAll : List Prototype → String
  | [] => ""
  | p :: ps => text p ++ textAll ps

end

end Listing

def Prototype.listing (p : Prototype) : String :=
  Listing.text p

end Refscript
