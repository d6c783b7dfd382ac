import Refscript.Proofs.Code.Compiled
import Refscript.Proofs.Code.Outline

/-!
# Refscript.Proofs.Code.Walk

Lowering step by step, for properties that depend on the declarations alone. This is about programs
with mistakes as well as about others.

* `Build.Respects`, `Build.Routine`: building steps that go from a builder to a related one, and
  relations that emitting instructions respects.
* `Lower.Steps`: properties, by outlines, that hold of single steps and pass to sequences of steps.
* `Lower.Walk`: such a property that passes to functions, to blocks and to conditions of loops.
* `Lower.Walk.node`: it holds of lowering a node, by the outline of the node.
-/

namespace Refscript

/-- The state that an action leaves, whether it succeeds or not. -/
def leftBy {ε σ α : Type} (x : EStateM ε σ α) (s : σ) : σ :=
  match x s with
  | .ok _ t | .error _ t => t

theorem leftBy_bind {ε σ α β : Type} {P : σ → Prop} {x : EStateM ε σ α} {f : α → EStateM ε σ β}
    {s : σ} (hx : P (leftBy x s)) (hf : ∀ a t, P t → P (leftBy (f a) t)) :
    P (leftBy (x >>= f) s) := by
  unfold leftBy at hx
  simp only [leftBy, bind, EStateM.bind]
  cases hrun : x s with
  | ok a t =>
    rw [hrun] at hx
    exact hf a t hx
  | error e t =>
    rw [hrun] at hx
    exact hx

theorem leftBy_get {ε σ β : Type} (f : σ → EStateM ε σ β) (s : σ) :
    leftBy (get >>= f) s = leftBy (f s) s := rfl

namespace Build

/-- The step leaves a builder that is related to the one before it, even where it fails. -/
def Respects {α : Type} (R : Builder → Builder → Prop) (x : Build α) : Prop :=
  ∀ b, R b (leftBy x b)

/-- The relation allows for all that emitting instructions does. -/
structure Routine (R : Builder → Builder → Prop) : Prop where
  refl (b : Builder) : R b b
  trans {b c d : Builder} : R b c → R c d → R b d
  height (b : Builder) (n : Nat) : R b { b with height := n }
  push (b : Builder) (pushed : Nat) (i : Insn) : R b ((b.grow pushed).push i)
  constant (b : Builder) (c : Constant) : R b (b.addConstant c).2
  nested (b : Builder) (ps : List Prototype) : R b { b with nested := ps }
  types (b : Builder) (ts : List TypeInfo) : R b { b with types := ts }

namespace Routine

variable {R : Builder → Builder → Prop} (H : Routine R) {α β : Type}

include H

theorem bind {x : Build α} {f : α → Build β} (hx : Respects R x) (hf : ∀ a, Respects R (f a)) :
    Respects R (x >>= f) :=
  fun b => leftBy_bind (P := R b) (hx b) fun a c hc => H.trans hc (hf a c)

theorem shrink (n : Nat) : Respects R (Build.shrink n) := by
  intro b
  rw [Build.shrink, leftBy_get]
  split
  · exact H.refl b
  · exact H.height b _

theorem emit (popped pushed : Nat) (i : Insn) : Respects R (Build.emit popped pushed i) :=
  H.bind (H.shrink popped) fun _ b => H.push b pushed i

theorem emitUnit (popped pushed : Nat) (i : Insn) : Respects R (Build.emitUnit popped pushed i) :=
  H.bind (H.emit popped pushed i) fun _ b => H.refl b

theorem pooled (c : Constant) (popped pushed : Nat) (f : Nat → Insn) :
    Respects R (Build.constant c >>= fun i => Build.emitUnit popped pushed (f i)) :=
  H.bind (fun b => H.constant b c) fun _ => H.emitUnit popped pushed _

theorem int (i : Int64) : Respects R (Build.int i) := by
  unfold Build.int
  split
  · exact H.emitUnit 0 1 _
  · exact H.pooled _ 0 1 _

theorem float (d : Double) : Respects R (Build.float d) := by
  unfold Build.float
  split
  · exact H.emitUnit 0 1 _
  · exact H.pooled _ 0 1 _

theorem closure (p : Prototype) : Respects R (Build.closure p) :=
  H.bind (fun b => H.nested b _) fun _ => H.emitUnit 0 1 _

theorem makeType (t : TypeInfo) : Respects R (Build.makeType t) :=
  H.bind (fun b => H.types b _) fun _ => H.emitUnit 0 1 _

end Routine

end Build

/-- Two builders have the same locals, captured variables and scopes. -/
structure Builder.SameNames (b c : Builder) : Prop where
  active : c.active = b.active
  outers : c.outers = b.outers
  scopes : c.scopes = b.scopes

namespace Build

theorem routine_sameNames : Routine Builder.SameNames where
  refl _ := ⟨rfl, rfl, rfl⟩
  trans h h' := ⟨h'.active.trans h.active, h'.outers.trans h.outers, h'.scopes.trans h.scopes⟩
  height _ _ := ⟨rfl, rfl, rfl⟩
  push _ _ _ := ⟨rfl, rfl, rfl⟩
  constant b c := by
    rw [b.addConstant_eq c]
    exact ⟨rfl, rfl, rfl⟩
  nested _ _ := ⟨rfl, rfl, rfl⟩
  types _ _ := ⟨rfl, rfl, rfl⟩

/-- The step leaves locals, captured variables and scopes alone. -/
abbrev Quiet {α : Type} (x : Build α) : Prop :=
  Respects Builder.SameNames x

theorem quiet_patchJump (site target : Nat) : Quiet (patchJump site target) := by
  intro b
  show b.SameNames (b.patch site target)
  rw [Builder.patch_eq]
  exact ⟨rfl, rfl, rfl⟩

theorem quiet_patchHere (site : Nat) : Quiet (patchHere site) :=
  routine_sameNames.bind (fun _ => ⟨rfl, rfl, rfl⟩) fun target => quiet_patchJump site target

end Build

/-- The declaration that is reported because its name is taken. -/
def Diagnostic.redeclared? (d : Diagnostic) : Option (Position × String) :=
  match d.problem with
  | .duplicateLocal x => some (d.pos, x)
  | _ => none

namespace Lower

open Build (Quiet routine_sameNames)

/-- A property of steps, by the outline of what a step declares. The flag says that the step is done
at the top level. -/
abbrev Trait : Type 1 :=
  ⦃α : Type⦄ → Bool → LowerM α → List Outline → Prop

/-- The property holds of single steps and passes to sequences of steps. -/
structure Steps (P : Trait) : Prop where
  pure {α : Type} {root : Bool} (a : α) : P root (pure a) []
  bind {α β : Type} {root : Bool} {x : LowerM α} {f : α → LowerM β} {es fs : List Outline} :
    P root x es → (∀ a, P root (f a) fs) → P root (x >>= f) (es ++ fs)
  get {root : Bool} : P root get []
  quiet {α : Type} {root : Bool} {x : Build α} : x.Quiet → P root (build x) []
  report {root : Bool} {pos : Position} {p : Problem} :
    Diagnostic.redeclared? ⟨pos, p⟩ = none → P root (report pos p) []
  resolve {root : Bool} (name : String) : P root (resolve name) []
  markCaptured {root : Bool} (slot : Nat) : P root (build (modify (·.markCaptured slot))) []
  declareLocal {root : Bool} (name : String) (pos : Position) :
    P root (declareLocal name pos) [.declare pos name]
  declareParameter {root : Bool} (pos : Position) (name : String) :
    P root (declareParameter pos name) [.declare pos name]
  declareBinding {root : Bool} (name : String) (pos : Position) :
    P root (declareBinding name pos) (Outline.definition root pos name)

namespace Steps

variable {P : Trait} (S : Steps P) {α β : Type} {root : Bool} {x : LowerM α} {f : α → LowerM β}
  {es fs : List Outline}

include S

theorem after (hx : P root x es) (hf : ∀ a, P root (f a) []) : P root (x >>= f) es := by
  have h := S.bind hx hf
  rwa [List.append_nil] at h

theorem before (hx : P root x []) (hf : ∀ a, P root (f a) fs) : P root (x >>= f) fs :=
  S.bind hx hf

theorem emit (popped pushed : Nat) (i : Insn) : P root (build (.emit popped pushed i)) [] :=
  S.quiet (routine_sameNames.emit popped pushed i)

theorem insn (popped pushed : Nat) (i : Insn) : P root (build (.emitUnit popped pushed i)) [] :=
  S.quiet (routine_sameNames.emitUnit popped pushed i)

theorem pooled (c : Constant) (popped pushed : Nat) (f : Nat → Insn) :
    P root (build (Build.constant c >>= fun i => Build.emitUnit popped pushed (f i))) [] :=
  S.quiet (routine_sameNames.pooled c popped pushed f)

theorem named (popped pushed : Nat) (op : Opcode) (name : String) :
    P root (build (.named popped pushed op name)) [] :=
  S.pooled _ popped pushed _

theorem patchHere (site : Nat) : P root (build (.patchHere site)) [] :=
  S.quiet (Build.quiet_patchHere site)

theorem setHeight (height : Nat) : P root (build (.setHeight height)) [] :=
  S.quiet fun _ => ⟨rfl, rfl, rfl⟩

theorem setLine (line : Nat) : P root (build (.setLine line)) [] :=
  S.quiet fun _ => ⟨rfl, rfl, rfl⟩

theorem position : P root (build .position) [] :=
  S.quiet fun _ => ⟨rfl, rfl, rfl⟩

theorem discard (required : Bool) : P root (discard required) [] := by
  cases required with
  | true => exact S.pure ()
  | false => exact S.insn 1 0 _

theorem whenRequired {y : Build Unit} (required : Bool) (hy : y.Quiet) :
    P root (whenRequired required y) [] := by
  cases required with
  | true => exact S.quiet hy
  | false => exact S.pure ()

theorem forM {ι : Type} {f : ι → LowerM Unit} (hf : ∀ i, P root (f i) []) (is : List ι) :
    P root (is.forM f) [] := by
  induction is with
  | nil => exact S.pure ()
  | cons i is ih => exact S.before (hf i) fun _ => ih

theorem load (name : String) : P root (load name) [] := by
  refine S.before (S.resolve name) fun place => ?_
  cases place with
  | loc slot | outer position => exact S.insn 0 1 _
  | global => exact S.named 0 1 _ _

theorem store (name : String) : P root (store name) [] := by
  refine S.before (S.resolve name) fun place => ?_
  cases place with
  | loc slot | outer position => exact S.insn 1 1 _
  | global => exact S.named 1 1 _ _

theorem refer (name : String) : P root (refer name) [] := by
  refine S.before (S.resolve name) fun place => ?_
  cases place with
  | loc slot => exact S.before (S.markCaptured slot) fun _ => S.insn 0 1 _
  | outer position => exact S.insn 0 1 _
  | global => exact S.pooled _ 0 1 _

theorem bindName (name : String) (slot : Option Nat) : P root (bindName name slot) [] := by
  cases slot with
  | some slot => exact S.insn 1 1 _
  | none =>
    refine S.before (S.before S.get fun _ => S.pure _) fun root => ?_
    cases root with
    | true => exact S.named 1 1 _ _
    | false => exact S.pure ()

theorem setUp (root : Bool) (pos : Position) (params : List String) (variadic : Bool) : P root (do
      build (.setLine pos.line)
      params.forM (Lower.declareParameter pos)
      if variadic then build (modify fun b => { b with variadic := true }) else return)
    (params.map (.declare pos)) := by
  have hparams : P root (params.forM (Lower.declareParameter pos)) (params.map (.declare pos)) := by
    induction params with
    | nil => exact S.pure ()
    | cons name params ih => exact S.bind (S.declareParameter pos name) fun _ => ih
  refine S.before (S.setLine pos.line) fun _ => S.after hparams fun _ => ?_
  cases variadic with
  | true =>
    exact S.quiet (x := modify fun b => { b with variadic := true }) fun _ => ⟨rfl, rfl, rfl⟩
  | false => exact S.pure ()

theorem checkSize (root : Bool) (pos : Position) : P root (checkSize pos) [] := by
  refine S.before S.get fun s => ?_
  dsimp only
  split
  · exact S.report rfl
  · exact S.pure ()

theorem loopBody {body : LowerM Unit} (required : Bool) (hbody : P root body es) :
    P root (loopBody required body) es := by
  cases required with
  | false => exact hbody
  | true =>
    exact S.before (S.insn 1 2 _) fun _ => S.after hbody fun _ =>
      S.before (S.pooled _ 2 1 _) fun _ => S.insn 1 0 _

theorem junction {x y : LowerM Unit} (op : Opcode) (hx : P root x es) (hy : P root y fs) :
    P root (junction x op y) (es ++ fs) :=
  S.bind hx fun _ => S.before (S.emit 1 0 _) fun jump => S.after hy fun _ => S.patchHere jump

theorem either {x y z : LowerM Unit} {us : List Outline} (op : Opcode) (hx : P root x es)
    (hy : P root y fs) (hz : P root z us) : P root (either x op y z) (es ++ (fs ++ us)) := by
  refine S.bind hx fun _ => S.before (S.emit 1 0 _) fun skip => S.before S.get fun s =>
    S.bind hy fun _ => ?_
  refine S.before (S.emit 0 0 _) fun stop => S.before (S.patchHere skip) fun _ => ?_
  exact S.before (S.setHeight _) fun _ => S.after hz fun _ => S.patchHere stop

theorem looping {x y : LowerM Unit} (hx : P root x es) (hy : P root y fs) :
    P root (looping x y) (es ++ fs) := by
  refine S.before S.position fun start => S.bind hx fun _ => S.before (S.emit 1 0 _) fun exit => ?_
  exact S.after hy fun _ => S.before (S.emit 0 0 _) fun _ => S.patchHere exit

theorem loopingElse {x w y z : LowerM Unit} {us : List Outline} (hx : P root x es)
    (hw : P root w []) (hy : P root y fs) (hz : P root z us) :
    P root (loopingElse x w y z) (es ++ (es ++ (fs ++ us))) := by
  refine S.before S.get fun s => S.bind hx fun _ => S.before (S.emit 1 0 _) fun skip =>
    S.before hw fun _ => ?_
  refine S.before (S.emit 0 0 _) fun into => S.before S.position fun start => S.bind hx fun _ => ?_
  refine S.before (S.emit 1 0 _) fun exit => S.before (S.patchHere into) fun _ =>
    S.bind hy fun _ => ?_
  refine S.before (S.emit 0 0 _) fun _ => S.before (S.patchHere exit) fun _ => ?_
  refine S.before (S.emit 0 0 _) fun stop => S.before (S.patchHere skip) fun _ => ?_
  exact S.before (S.setHeight _) fun _ => S.after hz fun _ => S.patchHere stop

end Steps

/-- The property also passes to functions, to blocks, and to conditions that are lowered twice. -/
structure Walk (P : Trait) : Prop extends Steps P where
  within {root : Bool} {body : LowerM Unit} {es : List Outline} (name : Option String)
    (pos : Position) (params : List String) (variadic : Bool) : P false body es →
    P root (do enter name pos params variadic; body; leave pos)
      [.function (params.map (.declare pos) ++ es)]
  block {root : Bool} {body : LowerM Unit} {es : List Outline} : P false body es →
    P root (do build .startScope; body; build .endScope) [.block es]
  condition {root : Bool} {x : LowerM Unit} {es fs : List Outline} :
    P root x (es ++ (es ++ fs)) → P root x (.condition es :: fs)

namespace Walk

variable {P : Trait} (W : Walk P) {root : Bool}

section

include W

theorem function {f : Function Node} (name : Option String) (pos : Position)
    (hf : P false (node f.body) (Outline.node false f.body)) :
    P root (function name pos f) [Outline.ofFunction pos f] := by
  obtain ⟨params, variadic, body⟩ := f
  rw [Lower.function, Outline.ofFunction]
  exact W.within name pos params variadic hf

theorem memberFunction {f : Function Node} (type : String) (pos : Position) (name : String)
    (hf : P false (node f.body) (Outline.node false f.body)) :
    P root (memberFunction type pos name f) [Outline.ofFunction pos f] := by
  have hfunction : P root (Lower.function (some (type ++ "." ++ name)) pos f)
    [Outline.ofFunction pos f] :=
    W.function _ pos hf
  obtain ⟨params, variadic, body⟩ := f
  have hmember : Lower.memberFunction type pos name ⟨params, variadic, body⟩ = (do
      let p ← Lower.function (some (type ++ "." ++ name)) pos ⟨params, variadic, body⟩
      build (modifyGet (·.addNested p))) := by
    rw [Lower.memberFunction, Lower.function]
    simp only [bind_assoc]
  rw [hmember]
  exact W.after hfunction fun p => W.quiet fun _ => ⟨rfl, rfl, rfl⟩

theorem optionalMember {f : Option (Function Node)} (type : String) (pos : Position) (name : String)
    (hf : ∀ g ∈ f.toList, P false (node g.body) (Outline.node false g.body)) :
    P root (optionalMember type pos name f) (Outline.optionalFunction pos f) := by
  cases f with
  | none =>
    rw [Lower.optionalMember, Outline.optionalFunction]
    exact W.pure none
  | some g =>
    rw [Lower.optionalMember, Outline.optionalFunction]
    exact W.after (W.memberFunction type pos name (hf g List.mem_cons_self)) fun _ => W.pure _

theorem members {ms : List (Member Node)} (type : String) (pos : Position)
    (hms : ∀ f ∈ ms.map Member.function, P false (node f.body) (Outline.node false f.body)) :
    P root (members type pos ms) (Outline.members pos ms) := by
  induction ms with
  | nil =>
    rw [Lower.members, Outline.members]
    exact W.pure []
  | cons m ms ih =>
    obtain ⟨name, f⟩ := m
    obtain ⟨hm, hms⟩ := List.forall_mem_cons.1 hms
    rw [Lower.members, member, Outline.members]
    exact W.bind (W.after (W.memberFunction type pos name hm) fun _ => W.pure _) fun _ =>
      W.after (ih hms) fun _ => W.pure _

theorem typeBody {body : TypeBody Node} (pos : Position)
    (h : ∀ n ∈ body.bodies, P false (node n) (Outline.node false n)) :
    P root (typeBody pos body) (Outline.optionalFunction pos body.ctor ++
      (Outline.optionalFunction pos body.invoke ++ (Outline.members pos body.methods ++
        (Outline.members pos body.prefixOps ++ Outline.members pos body.infixOps)))) := by
  replace h : ∀ f ∈ body.functions, P false (node f.body) (Outline.node false f.body) :=
    fun f hf => h _ (TypeBody.mem_bodies hf)
  obtain ⟨name, ctor, methods, prefixOps, infixOps, invoke⟩ := body
  simp only [TypeBody.functions, List.forall_mem_append] at h
  obtain ⟨⟨⟨⟨hctor, hinvoke⟩, hmethods⟩, hprefix⟩, hinfix⟩ := h
  rw [Lower.typeBody]
  refine W.bind (W.optionalMember name pos "ctor" hctor) fun _ => ?_
  refine W.bind (W.optionalMember name pos "invoke" hinvoke) fun _ =>
    W.bind (W.members name pos hmethods) fun _ => ?_
  exact W.bind (W.members name pos hprefix) fun _ =>
    W.after (W.members name pos hinfix) fun _ => W.pure _

end

/-- The property holds of lowering the node, at the top level and elsewhere. -/
abbrev Covers (_ : Walk P) (n : Node) : Prop :=
  ∀ root, P root (node n) (Outline.node root n)

theorem nodes {ns : List Node} (hns : ∀ n ∈ ns, W.Covers n) :
    P root (nodes ns) (Outline.nodes root ns) := by
  induction ns with
  | nil =>
    rw [Lower.nodes, Outline.nodes]
    exact W.pure ()
  | cons n ns ih =>
    obtain ⟨hn, hns⟩ := List.forall_mem_cons.1 hns
    rw [Lower.nodes, Outline.nodes]
    exact W.bind (hn root) fun _ => ih hns

theorem elseBranch {fail : Option Node} (hfail : ∀ n ∈ fail, W.Covers n) :
    P root (elseBranch fail) (Outline.elseBranch root fail) := by
  cases fail with
  | none =>
    rw [Lower.elseBranch, Outline.elseBranch]
    exact W.insn 0 1 _
  | some n =>
    rw [Lower.elseBranch, Outline.elseBranch]
    exact hfail n rfl root

theorem bindings {bs : List (Binding Node)} (pos : Position) (required : Bool)
    (hbs : ∀ b ∈ bs, W.Covers b.value) :
    P root (bindings pos required bs) (Outline.bindings root pos bs) := by
  induction bs with
  | nil =>
    rw [Lower.bindings, Outline.bindings]
    exact W.pure ()
  | cons b bs ih =>
    obtain ⟨name, value⟩ := b
    obtain ⟨hb, hbs⟩ := List.forall_mem_cons.1 hbs
    have hbinding (keep : Bool) :
        P root (binding pos keep ⟨name, value⟩)
          ([.declare pos name] ++ Outline.node root value) := by
      rw [binding]
      refine W.bind (W.declareLocal name pos) fun slot => W.after (hb root) fun _ => ?_
      cases slot with
      | some slot => exact W.before (W.insn 1 1 _) fun _ => W.discard keep
      | none => exact W.discard keep
    rw [Lower.bindings, Outline.bindings]
    exact W.bind (hbinding _) fun _ => ih hbs

theorem arms {as : List (Arm Node)} (height : Nat) {table : Table MatchKey Nat}
    {keys : List MatchKey} (hkeys : ∀ key, table.contains key = true ↔ key ∈ keys)
    (has : ∀ a ∈ as, W.Covers a.body) :
    P root (arms height as table) (Outline.arms root keys as) := by
  induction as generalizing table keys with
  | nil =>
    rw [Lower.arms, Outline.arms]
    exact W.pure _
  | cons a as ih =>
    obtain ⟨pos, pattern, body⟩ := a
    obtain ⟨ha, has⟩ := List.forall_mem_cons.1 has
    rw [Lower.arms, arm, Outline.arms]
    cases hkey : matchKey? pattern with
    | none =>
      simp only [bind_assoc, pure_bind]
      exact W.before (W.report rfl) fun _ => W.after (ih hkeys has) fun _ => W.pure _
    | some key =>
      by_cases hmem : key ∈ keys
      · simp only [if_pos hmem, if_pos ((hkeys key).2 hmem), bind_assoc, pure_bind]
        exact W.before (W.report rfl) fun _ => W.after (ih hkeys has) fun _ => W.pure _
      · simp only [if_neg hmem, if_neg (mt (hkeys key).1 hmem), bind_assoc, pure_bind]
        refine W.before W.position fun start => W.before (W.setHeight height) fun _ =>
          W.bind (ha root) fun _ => ?_
        have hinsert (key' : MatchKey) : (table.insert key start).contains key' = true ↔
            key' ∈ key :: keys := by
          rw [Table.contains_insert, hkeys, List.mem_cons]
        exact W.before (W.emit 0 0 _) fun _ => W.after (ih hinsert has) fun _ => W.pure _

theorem assign {target value : Node} (pos : Position) (required : Bool) (hvalue : W.Covers value)
    (htarget : ∀ n ∈ operands target.expr, W.Covers n) :
    P root (expr pos required (.assign target value))
      (Outline.expr root pos (.assign target value)) := by
  obtain ⟨p, r, e⟩ := target
  cases e with
  | identifier name =>
    exact W.after (hvalue root) fun _ => W.before (W.store name) fun _ => W.discard required
  | index t k =>
    refine W.bind (htarget t (by simp [operands]) root) fun _ =>
      W.bind (htarget k (by simp [operands]) root) fun _ => ?_
    exact W.after (hvalue root) fun _ => W.before (W.insn 3 1 _) fun _ => W.discard required
  | field t name =>
    refine W.bind (htarget t (by simp [operands]) root) fun _ => W.after (hvalue root) fun _ => ?_
    exact W.before (W.named 2 1 _ name) fun _ => W.discard required
  | deref x =>
    refine W.bind (htarget x (by simp [operands]) root) fun _ => W.after (hvalue root) fun _ => ?_
    exact W.before (W.insn 2 1 _) fun _ => W.discard required
  | _ => exact W.before (W.report rfl) fun _ => W.after (hvalue root) fun _ => W.discard required

theorem compoundAssign {target value : Node} (pos : Position) (required : Bool) (op : Operator)
    (hvalue : W.Covers value) (htarget : ∀ n ∈ operands target.expr, W.Covers n) :
    P root (expr pos required (.compoundAssign op target value))
      (Outline.expr root pos (.compoundAssign op target value)) := by
  have hop : P root (build (.infixOp op.symbol)) [] := W.named 2 1 _ _
  obtain ⟨p, r, e⟩ := target
  cases e with
  | identifier name =>
    refine W.before (W.load name) fun _ => W.after (hvalue root) fun _ => W.before hop fun _ => ?_
    exact W.before (W.store name) fun _ => W.discard required
  | index t k =>
    refine W.bind (htarget t (by simp [operands]) root) fun _ =>
      W.bind (htarget k (by simp [operands]) root) fun _ => ?_
    refine W.before (W.insn 2 4 _) fun _ => W.before (W.insn 2 1 _) fun _ =>
      W.after (hvalue root) fun _ => ?_
    exact W.before hop fun _ => W.before (W.insn 3 1 _) fun _ => W.discard required
  | field t name =>
    refine W.bind (htarget t (by simp [operands]) root) fun _ => W.before (W.insn 1 2 _) fun _ => ?_
    refine W.before (W.named 1 1 _ name) fun _ => W.after (hvalue root) fun _ =>
      W.before hop fun _ => ?_
    exact W.before (W.named 2 1 _ name) fun _ => W.discard required
  | deref x =>
    refine W.bind (htarget x (by simp [operands]) root) fun _ => W.before (W.insn 1 2 _) fun _ => ?_
    refine W.before (W.insn 1 1 _) fun _ => W.after (hvalue root) fun _ => W.before hop fun _ => ?_
    exact W.before (W.insn 2 1 _) fun _ => W.discard required
  | _ => exact W.before (W.report rfl) fun _ => W.after (hvalue root) fun _ => W.discard required

theorem ifElse {condition pass : Node} {fail : Option Node} (pos : Position) (required : Bool)
    (hcondition : ∀ n ∈ condition :: negated condition.expr, W.Covers n) (hpass : W.Covers pass)
    (hfail : ∀ n ∈ fail, W.Covers n) : P root (expr pos required (.ifElse condition pass fail))
      (Outline.expr root pos (.ifElse condition pass fail)) := by
  have htest : P root (node (test condition).1) (Outline.node root condition) := by
    have h := hcondition _ (test_mem condition) root
    obtain ⟨p, r, e⟩ := condition
    cases e <;> exact h
  rw [expr_ifElse, Outline.expr]
  split
  · rename_i hnone
    obtain ⟨hnone, -⟩ := Bool.and_eq_true_iff.1 hnone
    rw [Option.isNone_iff_eq_none.1 hnone, Outline.elseBranch, List.append_nil]
    exact W.junction _ htest (hpass root)
  · exact W.either _ htest (hpass root) (W.elseBranch hfail)

theorem whileElse {condition body : Node} {other : Option Node} (pos : Position) (required : Bool)
    (hcondition : W.Covers condition) (hbody : W.Covers body) (hother : ∀ n ∈ other, W.Covers n) :
    P root (expr pos required (.whileElse condition body other))
      (Outline.expr root pos (.whileElse condition body other)) := by
  have hlist : P root (Lower.whenRequired required (.list 0)) [] :=
    W.whenRequired required (routine_sameNames.emitUnit 0 1 _)
  have hloop := W.loopBody required (hbody root)
  cases other with
  | none =>
    rw [expr_whileElse_none, Outline.expr]
    exact W.before hlist fun _ => W.looping (hcondition root) hloop
  | some n =>
    rw [expr_whileElse_some, Outline.expr]
    exact W.condition (W.loopingElse (hcondition root) hlist hloop (hother n rfl root))

theorem matchCases {scrutinee : Node} {cases : List (Arm Node)} (pos : Position) (required : Bool)
    (hscrutinee : W.Covers scrutinee) (hcases : ∀ a ∈ cases, W.Covers a.body) :
    P root (expr pos required (.matchCases scrutinee cases))
      (Outline.expr root pos (.matchCases scrutinee cases)) := by
  have hend : ∀ (height index : Nat) (ends : List Nat) (table : Table MatchKey Nat), P root (do
      let stop ← build .position
      ends.forM fun jump => build (.patchJump jump stop)
      let table := if table.contains .default then table else table.insert .default stop
      build (modify (·.fillTable index ⟨table⟩))
      build (.setHeight (if required then height + 1 else height))) [] := by
    intro height index ends table
    refine W.before W.position fun stop => ?_
    refine W.before (W.forM (fun jump => W.quiet (Build.quiet_patchJump jump stop)) ends) fun _ =>
      ?_
    exact W.before (W.quiet fun _ => ⟨rfl, rfl, rfl⟩) fun _ => W.setHeight _
  have hempty : ∀ key, Table.contains (.empty : Table MatchKey Nat) key = true ↔
      key ∈ ([] : List MatchKey) := by
    simp [Table.contains, Table.empty, Table.get?, Table.get?.go]
  rw [expr, Outline.expr]
  refine W.bind (hscrutinee root) fun _ =>
    W.before (W.quiet fun _ => ⟨rfl, rfl, rfl⟩) fun index => ?_
  refine W.before (W.insn 1 0 _) fun _ => W.before W.get fun s =>
    W.after (W.arms _ hempty hcases) fun r => ?_
  obtain ⟨table, ends⟩ := r
  dsimp only
  split
  · exact hend _ index ends table
  · exact W.before W.position fun _ => W.before (W.setHeight _) fun _ =>
      W.before (W.insn 0 1 _) fun _ =>
      hend _ index ends _

theorem invoke {target : Node} {args : List Node} (pos : Position) (required : Bool)
    (htarget : W.Covers target) (hoperands : ∀ n ∈ operands target.expr, W.Covers n)
    (hargs : ∀ n ∈ args, W.Covers n) : P root (expr pos required (.invoke target args))
      (Outline.expr root pos (.invoke target args)) := by
  have hcall : P root (do
      Lower.nodes args
      build (.setLine pos.line)
      build (.invoke args.length)
      Lower.discard required) (Outline.nodes root args) :=
    W.after (W.nodes hargs) fun _ => W.before (W.setLine _) fun _ =>
      W.before (W.insn _ 1 _) fun _ => W.discard required
  obtain ⟨p, r, e⟩ := target
  cases e with
  | field receiver name =>
    refine W.bind (hoperands receiver (by simp [operands]) root) fun _ =>
      W.after (W.nodes hargs) fun _ => ?_
    exact W.before (W.setLine _) fun _ => W.before (W.pooled _ _ 1 _) fun _ => W.discard required
  | _ => exact W.bind (htarget root) fun _ => hcall

theorem ref {x : Node} (pos : Position) (required : Bool) (hx : ∀ n ∈ operands x.expr, W.Covers n) :
    P root (expr pos required (.ref x)) (Outline.expr root pos (.ref x)) := by
  obtain ⟨p, r, e⟩ := x
  cases e with
  | identifier name => exact W.before (W.refer name) fun _ => W.discard required
  | index t k =>
    refine W.bind (hx t (by simp [operands]) root) fun _ =>
      W.after (hx k (by simp [operands]) root) fun _ => ?_
    exact W.before (W.insn 2 1 _) fun _ => W.discard required
  | field t name =>
    exact W.after (hx t (by simp [operands]) root) fun _ => W.before (W.pooled _ 1 1 _) fun _ =>
      W.discard required
  | _ => exact W.before (W.report rfl) fun _ => W.before (W.insn 0 1 _) fun _ => W.discard required

theorem expr {e : Expr Node} (pos : Position) (required : Bool) (ih : ∀ n ∈ parts e, W.Covers n) :
    P root (expr pos required e) (Outline.expr root pos e) := by
  cases e with
  | null | bool | this => exact W.whenRequired required (routine_sameNames.emitUnit 0 1 _)
  | int i => exact W.whenRequired required (routine_sameNames.int i)
  | float d => exact W.whenRequired required (routine_sameNames.float d)
  | str s => exact W.whenRequired required (routine_sameNames.pooled _ 0 1 _)
  | identifier name =>
    cases required with
    | true => exact W.load name
    | false => exact W.pure ()
  | prefixOp op x =>
    exact W.after (ih x (by simp [parts]) root) fun _ => W.before (W.named 1 1 _ _) fun _ =>
      W.discard required
  | infixOp op x y =>
    refine W.bind (ih x (by simp [parts]) root) fun _ =>
      W.after (ih y (by simp [parts]) root) fun _ => ?_
    cases op with
    | equal | notEqual => exact W.before (W.insn 2 1 _) fun _ => W.discard required
    | operator o => exact W.before (W.named 2 1 _ _) fun _ => W.discard required
  | and x y =>
    rw [expr_and]
    exact W.after (W.junction .and (ih x (by simp [parts]) root) (ih y (by simp [parts]) root))
      fun _ => W.discard required
  | or x y =>
    rw [expr_or]
    exact W.after (W.junction .or (ih x (by simp [parts]) root) (ih y (by simp [parts]) root))
      fun _ => W.discard required
  | not x | deref x =>
    exact W.after (ih x (by simp [parts]) root) fun _ => W.before (W.insn 1 1 _) fun _ =>
      W.discard required
  | scope items =>
    rw [expr_scope, Outline.expr]
    refine W.block (W.after (W.nodes ih) fun _ => ?_)
    split
    · exact W.whenRequired required (routine_sameNames.emitUnit 0 1 _)
    · exact W.pure ()
  | varDef bs =>
    rw [Lower.expr, Outline.expr]
    refine W.after (W.bindings pos required fun b hb => ih _ (List.mem_map_of_mem hb)) fun _ => ?_
    split
    · exact W.whenRequired required (routine_sameNames.emitUnit 0 1 _)
    · exact W.pure ()
  | fnDef name f =>
    rw [Lower.expr, Outline.expr]
    refine W.bind (W.declareBinding name pos) fun slot => ?_
    refine W.after (W.function (some name) pos (ih _ (by simp [parts]) false)) fun p => ?_
    exact W.before (W.quiet (routine_sameNames.closure p)) fun _ =>
      W.before (W.bindName name slot) fun _ =>
      W.discard required
  | fn f =>
    rw [Lower.expr, Outline.expr]
    refine W.after (W.function none pos (ih _ (by simp [parts]) false)) fun p => ?_
    exact W.before (W.quiet (routine_sameNames.closure p)) fun _ => W.discard required
  | typeDef body =>
    rw [Lower.expr]
    refine W.bind (W.declareBinding body.name pos) fun slot => ?_
    refine W.after (W.typeBody pos fun n hn => ih n hn false) fun t => ?_
    exact W.before (W.quiet (routine_sameNames.makeType t)) fun _ =>
      W.before (W.bindName body.name slot) fun _ =>
      W.discard required
  | assign t v =>
    exact W.assign pos required (ih v (by simp [parts])) fun n hn => ih n (by simp [parts, hn])
  | compoundAssign op t v =>
    exact W.compoundAssign pos required op (ih v (by simp [parts])) fun n hn =>
      ih n (by simp [parts, hn])
  | invoke t args =>
    exact W.invoke pos required (ih t (by simp [parts])) (fun n hn => ih n (by simp [parts, hn]))
      fun n hn => ih n (by simp [parts, hn])
  | index t k =>
    refine W.bind (ih t (by simp [parts]) root) fun _ =>
      W.after (ih k (by simp [parts]) root) fun _ => ?_
    exact W.before (W.insn 2 1 _) fun _ => W.discard required
  | field t name =>
    exact W.after (ih t (by simp [parts]) root) fun _ => W.before (W.named 1 1 _ name) fun _ =>
      W.discard required
  | ifElse c p f =>
    refine W.ifElse pos required (fun n hn => ih n ?_) (ih p (by simp [parts])) fun n hn => ih n ?_
    · rcases List.mem_cons.1 hn with rfl | hn
      · exact List.mem_cons_self
      · simp [parts, hn]
    · simp [parts, Option.mem_toList.2 hn]
  | whileElse c b o =>
    exact W.whileElse pos required (ih c (by simp [parts])) (ih b (by simp [parts]))
      fun n hn => ih n (by simp [parts, Option.mem_toList.2 hn])
  | matchCases x cases =>
    exact W.matchCases pos required (ih x (by simp [parts]))
      fun a ha => ih _ (List.mem_cons_of_mem _ (List.mem_map_of_mem ha))
  | ref x => exact W.ref pos required ih
  | list items | tuple items =>
    exact W.after (W.nodes ih) fun _ => W.before (W.insn _ 1 _) fun _ => W.discard required
  | ret value =>
    rw [Lower.expr, Outline.expr]
    refine W.after (W.elseBranch fun n hn => ih n (Option.mem_toList.2 hn)) fun _ => ?_
    refine W.before (W.insn 1 0 _) fun _ => ?_
    cases required with
    | true => exact W.before W.get fun s => W.setHeight _
    | false => exact W.pure ()

theorem node (n : Node) : W.Covers n := by
  induction n using Node.induction_parts with
  | step n ih =>
    intro root
    obtain ⟨pos, required, e⟩ := n
    rw [Lower.node, Outline.node]
    exact W.before (W.setLine pos.line) fun _ => W.expr pos required ih

end Walk

end Lower
end Refscript
