import Refscript.Machine.Exec
import Refscript.Machine.Native

/-!
# Refscript.Machine.Basic

The machine: calls in progress over a store, one step at a time. A step executes one instruction,
ends one call or makes one call. A fault ends all calls at once; nothing in a program can catch it.
-/

namespace Refscript

structure Machine where
  store : Store
  /-- The calls in progress, the innermost first. -/
  frames : List Frame
  /-- The call to be made next. -/
  pending : Option Call
  /-- The number of calls in progress. -/
  depth : Nat
  /-- The number of calls that may be in progress at once. -/
  limit : Nat

inductive Outcome where
  | running (m : Machine)
  /-- The machine waits for the outside world; `Machine.resume` takes the answer. -/
  | waiting (r : Request) (m : Machine)
  | returned (v : Value) (m : Machine)
  | failed (e : RuntimeError) (m : Machine)
  /-- The machine cannot go on: more values are asked for than can stand side by side, or a function
  wants its further arguments as a list and has no slot for it. -/
  | stuck (m : Machine)

namespace Prototype

/-- How many arguments a call must give. -/
def arity (p : Prototype) : Arity :=
  if p.variadic then .atLeast p.required else .exactly p.required

/-- The number of slots a call has. -/
def slots (p : Prototype) : Nat :=
  max p.maxLocals p.params

/-- Whether a call can be laid out: its slots and its operand stack can be had, and a variadic
function has a slot for the list of its further arguments. -/
def startable (p : Prototype) : Bool :=
  p.slots ≤ Value.capacity && p.maxStack ≤ Value.capacity && (!p.variadic || p.required < p.slots)

end Prototype

namespace Store

/-- The slots at the start of a call: the arguments, then for a variadic function a list of the
further ones, then nulls. -/
def bindArguments (s : Store) (p : Prototype) (args : List Value) : Array Value × Store :=
  let padded (vs : List Value) : Array Value :=
    (vs ++ List.replicate (p.slots - vs.length) Value.null).toArray
  if p.variadic then
    let (rest, s) := s.newList (args.drop p.required).toArray
    (padded (args.take p.required ++ [rest]), s)
  else (padded args, s)

end Store

namespace Machine

/-- Ends the innermost call: its captured variables keep their values on their own. -/
def popFrame : Machine → Machine
  | ⟨store, f :: rest, pending, depth, limit⟩ =>
    ⟨(f.closeFrom 0 store).2, rest, pending, depth - 1, limit⟩
  | m => m

/-- Ends all calls in progress. -/
def unwind (m : Machine) : Machine :=
  m.frames.foldl (fun m _ => m.popFrame) m

/-- Fails, naming the line that the innermost call has reached. -/
def raise (m : Machine) (f : Fault) : Outcome :=
  match f with
  | .capacityOverflow => .stuck m.unwind
  | f => .failed ⟨f, m.frames.head?.map Frame.line⟩ m.unwind

/-- Hands a value to the call in progress, or out of the machine if there is none. -/
def deliver : Machine → Value → Outcome
  | ⟨store, f :: rest, pending, depth, limit⟩, v =>
    .running ⟨store, f.push v :: rest, pending, depth, limit⟩
  | m, v => .returned v m

/-- Ends the innermost call, which has run out of instructions. -/
def leave (m : Machine) (f : Frame) : Outcome :=
  m.popFrame.deliver (f.result.getD (f.stack.headD .null))

/-- Starts a call of a function. -/
def start : Machine → Closure → Option Value → List Value → Option Value → Outcome
  | m@⟨store, frames, pending, depth, limit⟩, closure, this, args, result =>
    let p := closure.prototype
    if limit ≤ depth then m.raise (.callDepthExceeded limit)
    else if !p.arity.accepts args.length then m.raise (.badArity p.displayName p.arity args.length)
    else if !p.startable then .stuck m
    else
      let (locals, s) := store.bindArguments p args
      let (activation, s) := s.addActivation locals
      .running ⟨s, ⟨closure, this, activation, [], 0, [], result⟩ :: frames, pending,
        depth + 1, limit⟩

/-- Calls what a type has for its objects: a function starts at once, any other value is called
next. -/
def callMember (m : Machine) (f : Value) (c : Call) : Outcome :=
  match f with
  | .closure id => m.start (m.store.closure id) c.this c.args c.result
  | f => .running { m with pending := some { c with callee := f } }

/-- Makes an object of a type and has the constructor, if there is one, set it up. -/
def instantiate : Machine → TypeId → Call → Outcome
  | m@⟨store, frames, pending, depth, limit⟩, id, c =>
    let t := store.type id
    if !t.instantiable then m.raise (.notInvocable ("type " ++ t.name))
    else
      let (o, s) := store.addObject ⟨id, .empty⟩
      let m : Machine := ⟨s, frames, pending, depth, limit⟩
      let result := c.result.getD (.object o)
      match t.ctor with
      | some f => m.callMember f { c with this := some (.object o), result := some result }
      | none =>
        if c.args.isEmpty then m.deliver result
        else m.raise (.badArity t.name (.exactly 0) c.args.length)

/-- Calls a callback. -/
def callNative (host : Host) (m : Machine) (id : CallbackId) (c : Call) : Outcome :=
  match m with
  | ⟨store, frames, _, depth, limit⟩ =>
    match (store.callback id).run host c.this c.args store with
    | .ok (.value v) s => deliver ⟨s, frames, none, depth, limit⟩ (c.result.getD v)
    | .ok (.request r) s =>
      .waiting (c.result.elim r (.instead · r)) ⟨s, frames, none, depth, limit⟩
    | .ok (.call c') s =>
      .running ⟨s, frames, some { c' with result := c.result.or c'.result }, depth, limit⟩
    | .error f s => raise ⟨s, frames, none, depth, limit⟩ f

/-- Makes a call. -/
def enter (host : Host) (m : Machine) (c : Call) : Outcome :=
  match m.store.deref c.callee with
  | .error f => m.raise f
  | .ok (.closure id) => m.start (m.store.closure id) c.this c.args c.result
  | .ok (.callback id) => callNative host m id c
  | .ok (.type id) => m.instantiate id c
  | .ok (.object id) =>
    match (m.store.typeOf id).invoke with
    | some f => m.callMember f { c with this := some (.object id) }
    | none => m.raise (.notInvocable (m.store.typeOf id).name)
  | .ok v => m.raise (.notInvocable (m.store.typeName v))

/-- Executes the instruction that the innermost call has reached. -/
def execute (f : Frame) (w : Word) (rest : List Frame) (store : Store) (depth limit : Nat) :
    Outcome :=
  let f := { f with ip := f.ip + 1 }
  match Exec.word f w store with
  | .ok (.next f) s => .running ⟨s, f :: rest, none, depth, limit⟩
  | .ok (.call c f) s => .running ⟨s, f :: rest, some c, depth, limit⟩
  | .error fault s => raise ⟨s, f :: rest, none, depth, limit⟩ fault

def step (host : Host) : Machine → Outcome
  | ⟨store, frames, some c, depth, limit⟩ => enter host ⟨store, frames, none, depth, limit⟩ c
  | ⟨store, f :: rest, none, depth, limit⟩ =>
    match f.prototype.code[f.ip]? with
    | some w => execute f w rest store depth limit
    | none => leave ⟨store, f :: rest, none, depth, limit⟩ f
  | m => .returned .null m

/-- Goes on after a request has been answered. -/
def resume (m : Machine) : Except Fault Value → Outcome
  | .ok v => m.deliver v
  | .error f => m.raise f

/-- Takes at most the given number of steps. -/
def run (host : Host) : Nat → Machine → Outcome
  | 0, m => .running m
  | n + 1, m =>
    match step host m with
    | .running m => run host n m
    | o => o

/-- Calls a value. -/
def call (m : Machine) (c : Call) : Outcome :=
  .running { m with pending := some c }

/-- Calls a method of a value. -/
def callMethod (m : Machine) (receiver : Value) (name : String) (args : List Value) : Outcome :=
  let found := do
    let receiver ← m.store.deref receiver
    return Call.mk (← m.store.readField receiver name) (some receiver) args none
  match found with
  | .ok c => m.call c
  | .error f => m.raise f

def afterApplied (m : Machine) : Applied → Outcome
  | .value v => m.deliver v
  | .call c => m.call c

def applyInfix (m : Machine) (op : String) (left right : Value) : Outcome :=
  match Store.applyInfix op left right m.store with
  | .ok a s => { m with store := s }.afterApplied a
  | .error f s => { m with store := s }.raise f

def applyPrefix (m : Machine) (op : String) (operand : Value) : Outcome :=
  match m.store.applyPrefix op operand with
  | .ok a => m.afterApplied a
  | .error f => m.raise f

/-- Runs a function by itself; what it would capture is null. -/
def runPrototype (m : Machine) (p : Prototype) (args : List Value) : Outcome :=
  let (captures, s) := p.outers.foldl
    (fun (cs, s) _ =>
      let (c, s) := s.addCell (.closed .null)
      (cs ++ [c], s))
    (([] : List CellId), m.store)
  let (id, s) := s.addClosure ⟨p, captures.toArray⟩
  { m with store := s }.call ⟨.closure id, none, args, none⟩

end Machine
end Refscript
