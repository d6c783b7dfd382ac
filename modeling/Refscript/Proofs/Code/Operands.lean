import Refscript.Code.Prototype

/-!
# Refscript.Proofs.Code.Operands

What it means that the operands of compiled code denote something: slots, captured variables,
constants, nested functions, types and jump tables that exist, and strings where names are expected.

`Prototype.WellFormed` says so of a function and of every function inside it. Since the instructions
are given together with the words that hold them, it also says that no word has lost a bit of its
operands.
-/

namespace Refscript

/-- The table says where to go for every value. -/
def JumpTable.HasDefault (t : JumpTable) : Prop :=
  (t.cases.get? .default).isSome

namespace Prototype

/-- The function has the variable that a function inside it captures. -/
def Provides (P : Prototype) (o : OuterInfo) : Prop :=
  match o.kind with
  | .localInParent => o.position < P.maxLocals
  | .outerInParent => o.position < P.outers.length

/-- Every operand of an instruction denotes something in the function. -/
def Admits (P : Prototype) (i : Insn) : Prop :=
  match i.op with
  | .closeOuters | .loadLocal | .storeLocal | .initLocal => i.a < P.maxLocals
  | .loadOuter | .storeOuter => i.a < P.outers.length
  | .loadGlobal | .storeGlobal | .loadField | .storeField | .prefixOp | .infixOp =>
    (P.stringConstant? i.a).isSome
  | .invokeMethod => (P.stringConstant? i.b).isSome
  | .const => i.a < P.constants.size
  | .closure => i.a < P.nested.length
  | .makeType => i.a < P.types.length
  | .matchOn => i.a < P.tables.length
  | .ref =>
    match RefKind.ofNumber? i.a with
    | some .global | some .field => (P.stringConstant? i.b).isSome
    | some .loc => i.b < P.maxLocals
    | some .outer => i.b < P.outers.length
    | some .index => True
    | none => False
  | _ => True

/-- The instruction is at the offset, with all of its operands. -/
structure Carries (P : Prototype) (k : Nat) (i : Insn) : Prop where
  word : P.code[k]? = some i.pack
  fits : i.fits = true

/-- The instruction is at the offset, and its operands denote something. -/
structure Has (P : Prototype) (k : Nat) (i : Insn) : Prop extends P.Carries k i where
  admits : P.Admits i

/-- All operands in the function and in the functions inside it denote something. -/
inductive WellFormed : Prototype → Prop where
  | intro {P : Prototype} :
      (∀ k, k < P.code.size → ∃ i, P.Has k i) →
      (∀ t ∈ P.types, ∀ k ∈ t.members, k < P.nested.length) →
      (∀ t ∈ P.tables, t.HasDefault) →
      (∀ q ∈ P.nested, ∀ o ∈ q.outers, P.Provides o) →
      (∀ q ∈ P.nested, WellFormed q) → WellFormed P

end Prototype
end Refscript
