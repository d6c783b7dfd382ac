import Refscript.Machine.Frame
import Refscript.Store.Operation

/-!
# Refscript.Machine.Exec

The meaning of each instruction on the running call. Calls are not made here: an instruction that
calls says what is to be called, with its operands already taken from the stack.
-/

namespace Refscript

/-- The key under which a jump table lists a value. A double without a fraction is looked up as an
integer, one beyond the integers as the nearest of them. -/
def MatchKey.of? : Value → Option MatchKey
  | .null => some .null
  | .bool b => some (.bool b)
  | .num (.int i) => some (.int i)
  | .num (.float d) =>
    if d.isFinite && d.isIntegral then some (.int (d.toInt64 Double.truncate)) else none
  | .str s => some (.str s)
  | _ => none

def Constant.value : Constant → Value
  | int i => .int i
  | float d => .float d
  | str s => .str s

/-- How the running call goes on after an instruction. -/
inductive Effect where
  | next (f : Frame)
  | call (c : Call) (f : Frame)

namespace Exec

def pop (f : Frame) : Action (Value × Frame) :=
  Action.ofExcept f.pop

/-- Pops a value and follows references. -/
def popPlain (f : Frame) : Action (Value × Frame) := do
  let (v, f) ← pop f
  return (← Action.reading (·.deref v), f)

def pushed (f : Frame) (v : Value) : Action Effect :=
  return .next (f.push v)

def jumpIf (f : Frame) (when : Bool) (target : Nat) : Action Effect := do
  let (v, f) ← popPlain f
  return .next (if v.truth = when then { f with ip := target } else f)

/-- Jumps and keeps the top if its truth is `when`, otherwise drops it. -/
def keepIf (f : Frame) (when : Bool) (target : Nat) : Action Effect := do
  let top ← Action.ofExcept f.top
  let v ← Action.reading (·.deref top)
  if v.truth = when then return .next { f with ip := target }
  else
    let (_, f) ← pop f
    return .next f

def applied (f : Frame) : Applied → Effect
  | .value v => .next (f.push v)
  | .call c => .call c f

def makeReference (f : Frame) (w : Word) : Action (Place × Frame) := do
  match RefKind.ofNumber? w.a with
  | none => Action.fail (.invalidInstruction w.bits.toNat)
  | some .global => return (.global (← Action.ofExcept (f.name w.b)), f)
  | some .loc =>
    let (c, f) ← f.capture w.b
    return (.loc c, f)
  | some .outer => return (.outer (← Action.ofExcept (f.outer w.b)), f)
  | some .index =>
    let (key, f) ← popPlain f
    let (target, f) ← popPlain f
    return (.element target key, f)
  | some .field =>
    let (target, f) ← popPlain f
    return (.field target (← Action.ofExcept (f.name w.b)), f)

/-- Executes one operation; the frame's `ip` is already past it. -/
def operation (f : Frame) (w : Word) (op : Opcode) : Action Effect := do
  match op with
  | .pop =>
    let (_, f) ← pop f
    return .next f
  | .dup => pushed f (← Action.ofExcept f.top)
  | .dup2 =>
    let (pair, f) ← Action.ofExcept (f.popN 2)
    return .next { f with stack := pair.reverse ++ pair.reverse ++ f.stack }
  | .closeOuters => return .next (← Action.adding (f.closeFrom w.c))
  | .jump => return .next { f with ip := w.c }
  | .jumpTrue => jumpIf f true w.c
  | .jumpFalse => jumpIf f false w.c
  | .and => keepIf f false w.c
  | .or => keepIf f true w.c
  | .loadLocal => pushed f (← Action.reading (f.localAt · w.c))
  | .storeLocal =>
    let v ← Action.ofExcept f.top
    let _ ← Action.reading (f.localAt · w.c)
    Store.assign (.slot f.activation w.c) v
    return .next f
  | .initLocal =>
    let v ← Action.ofExcept f.top
    if ← Action.look fun s => decide (w.c < (s.locals f.activation).size) then
      Store.put (.slot f.activation w.c) v
      return .next f
    else Action.fail (.invalidInstruction w.bits.toNat)
  | .loadOuter =>
    let c ← Action.ofExcept (f.outer w.c)
    pushed f (← Action.look (·.cellValue c))
  | .storeOuter =>
    let v ← Action.ofExcept f.top
    Store.assign (.cell (← Action.ofExcept (f.outer w.c))) v
    return .next f
  | .loadGlobal =>
    let name ← Action.ofExcept (f.name w.c)
    pushed f (← Action.look (·.load name))
  | .storeGlobal =>
    let name ← Action.ofExcept (f.name w.c)
    Store.assign (.global name) (← Action.ofExcept f.top)
    return .next f
  | .loadIndex =>
    let (key, f) ← popPlain f
    let (target, f) ← popPlain f
    pushed f (← Action.reading (·.readIndex target key))
  | .storeIndex =>
    let (v, f) ← pop f
    let (key, f) ← popPlain f
    let (target, f) ← popPlain f
    Store.assign (← Action.reading (·.locateIndex target key)) v
    pushed f v
  | .loadField =>
    let name ← Action.ofExcept (f.name w.c)
    let (target, f) ← popPlain f
    pushed f (← Action.reading (·.readField target name))
  | .storeField =>
    let name ← Action.ofExcept (f.name w.c)
    let (v, f) ← pop f
    let (target, f) ← popPlain f
    Store.assign (← Action.reading (·.locateField target name)) v
    pushed f v
  | .pushNull => pushed f .null
  | .pushTrue => pushed f (.bool true)
  | .pushFalse => pushed f (.bool false)
  | .const =>
    match f.prototype.constants[w.c]? with
    | some k => pushed f k.value
    | none => Action.fail (.invalidInstruction w.bits.toNat)
  | .smallInt k => pushed f (.int (Int64.ofInt (k.val - 1)))
  | .smallFloat k => pushed f (.float (Double.ofInt (k.val - 1)))
  | .list =>
    let (items, f) ← Action.ofExcept (f.popN w.c)
    pushed f (← Action.adding (·.newList items.toArray))
  | .tuple =>
    let (items, f) ← Action.ofExcept (f.popN w.c)
    pushed f (.tuple items)
  | .closure =>
    let (id, f) ← f.makeClosure w.c
    pushed f (.closure id)
  | .makeType =>
    let (id, f) ← f.makeType w.c
    pushed f (.type id)
  | .this => pushed f (f.this.getD .null)
  | .invoke =>
    let (args, f) ← Action.ofExcept (f.popN w.c)
    let (callee, f) ← pop f
    return .call ⟨callee, none, args, none⟩ f
  | .invokeMethod =>
    let name ← Action.ofExcept (f.name w.b)
    let (args, f) ← Action.ofExcept (f.popN w.a)
    let (receiver, f) ← popPlain f
    return .call ⟨← Action.reading (·.readField receiver name), some receiver, args, none⟩ f
  | .prefixOp =>
    let op ← Action.ofExcept (f.name w.c)
    let (operand, f) ← pop f
    return applied f (← Action.reading (·.applyPrefix op operand))
  | .infixOp =>
    let op ← Action.ofExcept (f.name w.c)
    let (right, f) ← pop f
    let (left, f) ← pop f
    return applied f (← Store.applyInfix op left right)
  | .eq =>
    let (right, f) ← popPlain f
    let (left, f) ← popPlain f
    pushed f (.bool (← Action.look (·.equal left right)))
  | .neq =>
    let (right, f) ← popPlain f
    let (left, f) ← popPlain f
    pushed f (.bool !(← Action.look (·.equal left right)))
  | .not =>
    let (v, f) ← popPlain f
    pushed f (.bool !v.truth)
  | .matchOn =>
    let (v, f) ← popPlain f
    match f.prototype.tables[w.c]?.bind (·.target? (MatchKey.of? v)) with
    | some target => return .next { f with ip := target }
    | none => Action.fail (.invalidInstruction w.bits.toNat)
  | .ref =>
    let (place, f) ← makeReference f w
    pushed f (← Action.adding (·.newReference place))
  | .deref =>
    let (v, f) ← popPlain f
    pushed f v
  | .storeDeref =>
    let (v, f) ← pop f
    let (target, f) ← pop f
    match target with
    | .ref _ place =>
      Store.overwrite place v
      pushed f v
    | other =>
      Action.reading fun s => .error (.invalidReferenceTarget (.notReference (s.typeName other)))
  | .ret =>
    let (v, f) ← pop f
    return .next { f with stack := [v], ip := f.prototype.code.size }

/-- Executes one instruction word; the frame's `ip` is already past it. -/
def word (f : Frame) (w : Word) : Action Effect :=
  match w.op? with
  | some op => operation f w op
  | none => Action.fail (.invalidInstruction w.bits.toNat)

end Exec
end Refscript
