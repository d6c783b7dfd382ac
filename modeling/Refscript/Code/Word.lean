import Refscript.Code.Opcode

/-!
# Refscript.Code.Word

Instructions and their packed form. A word has 32 bits: the opcode in the low 8, then either one
operand `c` of 24 bits or two operands `a` and `b` of 12 bits each.
-/

namespace Refscript

/-- An instruction before packing. A single wide operand is held in `a`. Operands have no bound
here; `fits` says whether packing keeps them, and those are far below `2 ^ 32`. -/
structure Insn where
  op : Opcode
  a : Nat
  b : Nat
deriving DecidableEq, Repr

/-- A packed instruction. -/
structure Word where
  bits : UInt32
deriving DecidableEq, Inhabited, Repr

namespace Insn

def simple (op : Opcode) : Insn := ⟨op, 0, 0⟩

def wide (op : Opcode) (c : Nat) : Insn := ⟨op, c, 0⟩

def split (op : Opcode) (a b : Nat) : Insn := ⟨op, a, b⟩

/-- Whether the operands fit their fields. -/
def fits (i : Insn) : Bool :=
  match i.op.layout with
  | .none => true
  | .wide => i.a < 16777216
  | .split => i.a < 4096 && i.b < 4096

/-- The word of an instruction; operands keep only the bits that fit. -/
def pack (i : Insn) : Word :=
  let op := UInt32.ofNat i.op.number
  match i.op.layout with
  | .none => ⟨op⟩
  | .wide => ⟨op ||| (UInt32.ofNat i.a &&& 0xFFFFFF) <<< 8⟩
  | .split => ⟨op ||| (UInt32.ofNat i.a &&& 0xFFF) <<< 8 ||| (UInt32.ofNat i.b &&& 0xFFF) <<< 20⟩

end Insn

namespace Word

def op? (w : Word) : Option Opcode :=
  Opcode.ofNumber? (w.bits &&& 0xFF).toNat

def c (w : Word) : Nat :=
  (w.bits >>> 8).toNat

def a (w : Word) : Nat :=
  (w.bits >>> 8 &&& 0xFFF).toNat

def b (w : Word) : Nat :=
  (w.bits >>> 20 &&& 0xFFF).toNat

end Word
end Refscript
