import Refscript.Code.Lower
import Refscript.Code.StackCheck
import Refscript.Proofs.Code.Operands

/-!
# Refscript.Proofs.Code.Chart

Where the names of a program lead, read off the program alone. A chart of a function lists, for each
instruction that the function is lowered to, the blocks that are open there with the names declared
in them, and what the instruction is for; it holds the charts of the functions inside. Nothing in it
depends on slots, captured variables or offsets.

* `Plan.node`: the charts of all constructs, in the order in which they are lowered.
* `Scope.Flow`: how control may go from open blocks to open blocks.
* `Described`: a compiled function does what its chart says.
-/

namespace Refscript

/-- A block of a function: its number in the program, and the names that are declared in it so
far. -/
structure Block where
  id : Nat
  names : List String
deriving DecidableEq, Repr

/-- The blocks of a function that are open at a place, innermost first. The last one is the function
itself. -/
abbrev Scope := List Block

namespace Scope

/-- The names in scope. The place of a name is its slot. -/
def names : Scope → List String
  | [] => []
  | b :: S => names S ++ b.names

def slot? (S : Scope) (x : String) : Option Nat :=
  S.names.idxOf? x

/-- The block that declares a name. -/
def home? (S : Scope) (x : String) : Option Nat :=
  (S.find? fun b => b.names.contains x).map Block.id

/-- Declares a name in the innermost block, unless it is taken. -/
def declare (S : Scope) (x : String) : Scope :=
  if x ∈ S.names then S
  else
    match S with
    | [] => []
    | b :: S => { b with names := b.names ++ [x] } :: S

/-- The blocks have different numbers and declare different names. -/
structure Distinct (S : Scope) : Prop where
  names : S.names.Nodup
  ids : (S.map Block.id).Nodup

/-- How control may go when the variables of `K` are captured, by block and name: out of blocks that
have nothing to close, past declarations, and into blocks. -/
inductive Flow (K : List (Nat × String)) (S : Scope) : Scope → Prop where
  | refl : Flow K S S
  | leave {b : Block} {S' : Scope} : Flow K S (b :: S') → (∀ x, (b.id, x) ∉ K) → Flow K S S'
  | declare {b : Block} {S' : Scope} (more : List String) :
      Flow K S (b :: S') → Flow K S ({ b with names := b.names ++ more } :: S')
  | enter {S' : Scope} (b : Block) : Flow K S S' → Flow K S (b :: S')

end Scope

/-- What is done with the variable of a name: it is read, it is assigned, or a reference to it is
taken. -/
inductive Access where
  | load
  | store
  | refer
deriving DecidableEq, Repr

/-- What an instruction is for. Functions inside are given by their places. -/
inductive Use where
  | plain
  | access (a : Access) (name : String)
  /-- The definition of a global. -/
  | define (name : String)
  | init (name : String)
  /-- The end of the innermost block. -/
  | close
  | create (places : List Nat)
deriving DecidableEq, Repr

structure Entry where
  scope : Scope
  use : Use
deriving DecidableEq, Repr

/-- The blocks that are open after the instruction. -/
def Entry.after (e : Entry) : Scope :=
  match e.use with
  | .close => e.scope.tail
  | _ => e.scope

/-- The chart of a function: the block of its parameters, an entry for each instruction, the
functions inside with the blocks that are open where they are created, and the variables that are
captured by the end of it. `steady` says that every loop in it and in the functions inside leaves
the names in scope as it finds them. -/
structure Chart where
  start : Scope
  entries : List Entry
  inner : List (Scope × Chart)
  captured : List (Nat × String)
  steady : Bool

/-- The function at hand with the functions inside it so far, the scopes of the functions around it,
innermost first, the captured variables so far, by block and name, and the number of the next
block. -/
structure Context where
  scope : Scope
  inner : List (Scope × Chart)
  around : List Scope
  captured : List (Nat × String)
  fresh : Nat

namespace Context

def declare (c : Context) (x : String) : Context :=
  { c with scope := c.scope.declare x }

/-- Captures the variable of a name of the given functions, innermost first. -/
def capture (c : Context) (scopes : List Scope) (x : String) : Context :=
  match scopes.findSome? (Scope.home? · x) with
  | some id => { c with captured := (id, x) :: c.captured }
  | none => c

/-- Reading and assigning captures the variables of functions around; a reference captures every
variable. -/
def touch (c : Context) (a : Access) (x : String) : Context :=
  match a with
  | .refer => c.capture (c.scope :: c.around) x
  | _ => if x ∈ c.scope.names then c else c.capture c.around x

/-- A variable of the block is captured. -/
def captures (c : Context) (id : Nat) : Bool :=
  c.captured.any (·.1 == id)

def openBlock (c : Context) : Context :=
  { c with scope := ⟨c.fresh, []⟩ :: c.scope, fresh := c.fresh + 1 }

/-- Starts a function inside the one at hand. -/
def enter (c : Context) (params : List String) : Context :=
  params.foldl declare ⟨[⟨c.fresh, []⟩], [], c.scope :: c.around, c.captured, c.fresh + 1⟩

def isRoot (c : Context) : Bool :=
  c.around.isEmpty && c.scope.length == 1

/-- The outermost function. -/
def start : Context :=
  ⟨[⟨0, []⟩], [], [], [], 1⟩

end Context

structure Plotted where
  entries : List Entry
  context : Context
  steady : Bool

namespace Plotted

/-- One after the other; the second one starts in the context that the first one ends in. -/
def seq (a b : Plotted) : Plotted :=
  ⟨a.entries ++ b.entries, b.context, a.steady && b.steady⟩

/-- A turn of a loop that starts in `c`. -/
def loop (c : Context) (r : Plotted) : Plotted :=
  { r with steady := r.steady && decide (r.context.scope = c.scope) }

/-- The block that was opened in `c` ends. Its captured variables are closed, if there are some. -/
def closeBlock (c : Context) (r : Plotted) : Plotted :=
  ⟨if r.context.captures c.fresh then r.entries ++ [⟨r.context.scope, .close⟩] else r.entries,
    { r.context with scope := c.scope }, r.steady⟩

/-- The chart of a function with the parameters `start`. -/
def chart (start : Scope) (r : Plotted) : Chart :=
  ⟨start, r.entries, r.context.inner, r.context.captured, r.steady⟩

end Plotted

/-- The entries of a construct, by the context that it is in. -/
def Plan := Context → Plotted

namespace Plan

def skip : Plan := fun c => ⟨[], c, true⟩

def seq (p q : Plan) : Plan := fun c => (p c).seq (q (p c).context)

instance : Append Plan := ⟨seq⟩

def mark (f : Context → Context) : Plan := fun c => ⟨[], f c, true⟩

def emit (use : Use) : Plan := fun c => ⟨[⟨c.scope, use⟩], c, true⟩

/-- An instruction that has nothing to do with names. -/
def step : Plan := emit .plain

def when (wanted : Bool) (p : Plan) : Plan := if wanted then p else skip

/-- Drops a value that is not wanted. -/
def drop (wanted : Bool) : Plan := when (!wanted) step

def access (a : Access) (x : String) : Plan := mark (·.touch a x) ++ emit (.access a x)

def loop (p : Plan) : Plan := fun c => (p c).loop c

/-- The body of a loop; if the loop's value is wanted, the body's value is appended to a list. -/
def loopBody (required : Bool) (body : Plan) : Plan :=
  if required then step ++ body ++ step ++ step else body

/-- A variable with its value. A name that is taken is not declared again. -/
def bound (x : String) (value : Plan) : Plan := fun c =>
  if x ∈ c.scope.names then value c else (mark (·.declare x) ++ value ++ emit (.init x)) c

/-- A function or a type with its value. At the top level it is a global. -/
def definition (x : String) (value : Plan) : Plan := fun c =>
  if c.isRoot then (value ++ emit (.define x)) c else bound x value c

def block (items : Plan) : Plan := fun c => (items c.openBlock).closeBlock c

/-- A function inside the one at hand. -/
def inside (params : List String) (body : Plan) : Plan := fun c =>
  let r := body (c.enter params)
  ⟨[], { c with
      inner := c.inner ++ [(c.scope, r.chart (c.enter params).scope)]
      captured := r.context.captured
      fresh := r.context.fresh },
    r.steady⟩

/-- Creates the latest of the functions inside. -/
def create (function : Plan) : Plan := fun c =>
  (function ++ emit (.create [c.inner.length])) c

/-- The places of the members of a type in the order in which they are created: the constructor and
the function for calls, then the operators, then the methods. The methods are lowered before the
operators. -/
def memberPlaces (first specials methods operators : Nat) : List Nat :=
  List.range' first specials ++ List.range' (first + specials + methods) operators ++
    List.range' (first + specials) methods

/-- The keys of cases, after those that are there. -/
def armKeys (keys : List MatchKey) : List (Arm Node) → List MatchKey
  | [] => keys
  | a :: as =>
    match Lower.matchKey? a.pattern with
    | none => armKeys keys as
    | some key => armKeys (if key ∈ keys then keys else key :: keys) as

mutual

def node : Node → Plan
  | ⟨_, required, e⟩ => expr required e

def expr (required : Bool) : Expr Node → Plan
  | .null | .bool _ | .int _ | .float _ | .str _ | .this => when required step
  | .identifier x => when required (access .load x)
  | .prefixOp _ x | .not x | .field x _ | .deref x => node x ++ step ++ drop required
  | .infixOp _ l r | .index l r => node l ++ node r ++ step ++ drop required
  | .and l r | .or l r => node l ++ step ++ node r ++ drop required
  | .scope items => block (nodes items ++ when items.isEmpty (when required step))
  | .varDef bs => bindings required bs ++ when bs.isEmpty (when required step)
  | .fnDef name f => definition name (create (function f)) ++ drop required
  | .fn f => create (function f) ++ drop required
  | .typeDef ⟨name, ctor, methods, prefixOps, infixOps, invoke⟩ =>
    definition name (fun c =>
      (optionalFunction ctor ++ optionalFunction invoke ++ members methods ++ members prefixOps ++
        members infixOps ++ emit (.create
          (memberPlaces c.inner.length (ctor.toList.length + invoke.toList.length) methods.length
          (prefixOps.length + infixOps.length)))) c) ++
      drop required
  | .assign target value =>
    (match target with
    | ⟨_, _, .identifier x⟩ => node value ++ access .store x
    | ⟨_, _, .index t k⟩ => node t ++ node k ++ node value ++ step
    | ⟨_, _, .field t _⟩ => node t ++ node value ++ step
    | ⟨_, _, .deref x⟩ => node x ++ node value ++ step
    | _ => node value) ++ drop required
  | .compoundAssign _ target value =>
    (match target with
    | ⟨_, _, .identifier x⟩ => access .load x ++ node value ++ step ++ access .store x
    | ⟨_, _, .index t k⟩ => node t ++ node k ++ step ++ step ++ node value ++ step ++ step
    | ⟨_, _, .field t _⟩ => node t ++ step ++ step ++ node value ++ step ++ step
    | ⟨_, _, .deref x⟩ => node x ++ step ++ step ++ node value ++ step ++ step
    | _ => node value) ++ drop required
  | .invoke target args =>
    (match target with
    | ⟨_, _, .field receiver _⟩ => node receiver
    | t => node t) ++ nodes args ++ step ++ drop required
  | .ifElse condition pass fail =>
    (match condition with
    | ⟨_, _, .not x⟩ => node x
    | c => node c) ++ step ++ node pass ++
      (if fail.isNone && !required then skip else step ++ elseBranch fail)
  | .whileElse condition body none =>
    when required step ++ loop (node condition ++ step ++ loopBody required (node body) ++ step)
  | .whileElse condition body (some other) =>
    node condition ++ step ++ when required step ++ step ++
      loop (node condition ++ step ++ loopBody required (node body) ++ step) ++ step ++ node other
  | .matchCases scrutinee cases =>
    node scrutinee ++ step ++ arms [] cases ++
      when (!(armKeys [] cases).contains .default && required) step
  | .ref x =>
    (match x with
    | ⟨_, _, .identifier name⟩ => access .refer name
    | ⟨_, _, .index t k⟩ => node t ++ node k ++ step
    | ⟨_, _, .field t _⟩ => node t ++ step
    | _ => step) ++ drop required
  | .list items | .tuple items => nodes items ++ step ++ drop required
  | .ret value => elseBranch value ++ step

def nodes : List Node → Plan
  | [] => skip
  | n :: ns => node n ++ nodes ns

def elseBranch : Option Node → Plan
  | none => step
  | some n => node n

def bindings (required : Bool) : List (Binding Node) → Plan
  | [] => skip
  | ⟨name, value⟩ :: bs =>
    bound name (node value) ++ drop (required && bs.isEmpty) ++ bindings required bs

/-- Cases whose key is taken, or that have none, are left out. -/
def arms (keys : List MatchKey) : List (Arm Node) → Plan
  | [] => skip
  | ⟨_, pattern, body⟩ :: as =>
    match Lower.matchKey? pattern with
    | none => arms keys as
    | some key => if key ∈ keys then arms keys as else node body ++ step ++ arms (key :: keys) as

def function : Function Node → Plan
  | ⟨params, _, body⟩ => inside params (node body)

def optionalFunction : Option (Function Node) → Plan
  | none => skip
  | some f => function f

def members : List (Member Node) → Plan
  | [] => skip
  | ⟨_, f⟩ :: ms => function f ++ members ms

end

end Plan

/-- The chart of a program. -/
def Chart.ofProgram (items : List Node) : Chart :=
  (Plan.nodes items .start).chart Context.start.scope

/-- The instruction that accesses a variable by its place; `name` is the place of a global's
name. -/
def Access.insn : Access → Lower.Place → Nat → Insn
  | .load, .loc slot, _ => .wide .loadLocal slot
  | .load, .outer position, _ => .wide .loadOuter position
  | .load, .global, name => .wide .loadGlobal name
  | .store, .loc slot, _ => .wide .storeLocal slot
  | .store, .outer position, _ => .wide .storeOuter position
  | .store, .global, name => .wide .storeGlobal name
  | .refer, .loc slot, _ => .split .ref RefKind.loc.number slot
  | .refer, .outer position, _ => .split .ref RefKind.outer.number position
  | .refer, .global, name => .split .ref RefKind.global.number name

/-- The instruction neither accesses a variable by its name, nor creates functions, nor closes
variables. -/
def Insn.nameless (i : Insn) : Bool :=
  match i.op with
  | .loadLocal | .storeLocal | .initLocal | .loadOuter | .storeOuter | .loadGlobal
      | .storeGlobal | .closure
  | .makeType | .closeOuters => false
  | .ref => i.a == RefKind.index.number || i.a == RefKind.field.number
  | _ => true

/-- The place is the one of the name, by the names in scope in the function and in the functions
around it: a local, a captured variable of a function around it, or a global. -/
def Scope.Finds (S : Scope) (around : List (List String)) (outers : List OuterInfo) (x : String) :
    Lower.Place → Prop
  | .loc slot => S.slot? x = some slot
  | .outer position =>
    x ∉ S.names ∧ (∃ names ∈ around, x ∈ names) ∧ (outers[position]?).map OuterInfo.name = some x
  | .global => x ∉ S.names ∧ ∀ names ∈ around, x ∉ names

/-- Where a function inside finds a captured variable, when the blocks `S` are open and `outers` are
the captured variables of the function around: in the slot of the name, or else at a captured
variable of the same name. -/
def Scope.Hands (S : Scope) (outers : List OuterInfo) (o : OuterInfo) : Prop :=
  match o.kind with
  | .localInParent => S.slot? o.name = some o.position
  | .outerInParent => o.name ∉ S.names ∧ (outers[o.position]?).map OuterInfo.name = some o.name

/-- The variable of a name in the function itself is one of the captured ones. -/
def Scope.Captures (S : Scope) (K : List (Nat × String)) (x : String) : Prop :=
  ∃ id, S.home? x = some id ∧ (id, x) ∈ K

namespace Entry

/-- The instruction at `k` is what the entry says. -/
def Fits (e : Entry) (around : List (List String)) (inner : List (Scope × Chart)) (P : Prototype)
    (k : Nat) : Prop :=
  match e.use with
  | .plain => ∃ i, P.Carries k i ∧ i.nameless = true
  | .access a x => ∃ place name, e.scope.Finds around P.outers x place ∧
      (place = .global → P.constants[name]? = some (.str x)) ∧ P.Carries k (a.insn place name)
  | .define x => ∃ name, P.constants[name]? = some (.str x) ∧ P.Carries k (.wide .storeGlobal name)
  | .init x => ∃ slot, e.scope.slot? x = some slot ∧ P.Carries k (.wide .initLocal slot)
  | .close => P.Carries k (.wide .closeOuters (Scope.names e.scope.tail).length)
  | .create places => (∀ i ∈ places, (inner[i]?).map Prod.fst = some e.scope) ∧
      ((∃ i, places = [i] ∧ P.Carries k (.wide .closure i)) ∨
        ∃ i t, P.types[i]? = some t ∧ t.members = places ∧ P.Carries k (.wide .makeType i))

/-- The variables of the function that the instruction captures are among `K`. -/
def Notes (e : Entry) (K : List (Nat × String)) (P : Prototype) : Prop :=
  match e.use with
  | .access .refer x => x ∈ e.scope.names → e.scope.Captures K x
  | .create places =>
    ∀ i ∈ places, ∀ q, P.nested[i]? = some q → ∀ o ∈ q.outers, o.kind = .localInParent →
      e.scope.Captures K o.name
  | _ => True

end Entry

/-- The offsets that control may go to from the instruction at `k`. -/
def Prototype.nexts (P : Prototype) (k : Nat) : List Nat :=
  match P.code[k]? with
  | none => []
  | some w =>
    match w.op? with
    | none => []
    | some op => ((StackCheck.successors? P op w k 0).getD []).map Prod.fst

/-- Control goes through the function as the open blocks of its entries allow. -/
def Chart.Flows (C : Chart) (P : Prototype) : Prop :=
  (∀ e, C.entries[0]? = some e → Scope.Flow C.captured C.start e.scope) ∧
    ∀ k e, C.entries[k]? = some e → ∀ k' ∈ P.nexts k, ∀ e', C.entries[k']? = some e' →
      Scope.Flow C.captured e.after e'.scope

/-- The function is what its chart says. `around` are the names in scope in the functions around,
where this one is created. -/
structure Chart.Matches (C : Chart) (around : List (List String)) (P : Prototype) : Prop where
  size : P.code.size = C.entries.length
  fits : ∀ (k : Nat) (e : Entry), C.entries[k]? = some e → e.Fits around C.inner P k
  notes : ∀ e ∈ C.entries, e.Notes C.captured P
  distinct : ∀ e ∈ C.entries, e.scope.Distinct
  outers : (P.outers.map OuterInfo.name).Nodup
  length : C.inner.length = P.nested.length
  hands : ∀ (i : Nat) (S : Scope) (D : Chart) (q : Prototype), C.inner[i]? = some (S, D) →
    P.nested[i]? = some q → ∀ o ∈ q.outers, S.Hands P.outers o
  flows : C.steady = true → C.Flows P
  steady : C.steady = true → ∀ p ∈ C.inner, p.2.steady = true

/-- The function is what its chart says, and so are the functions inside it, at any depth. -/
inductive Described : List (List String) → Chart → Prototype → Prop where
  | intro {around : List (List String)} {C : Chart} {P : Prototype} :
      C.Matches around P →
      (∀ (i : Nat) (S : Scope) (D : Chart) (q : Prototype), C.inner[i]? = some (S, D) →
        P.nested[i]? = some q → Described (S.names :: around) D q) →
      Described around C P

end Refscript
