import Refscript.Proofs.Code.Compiled
import Refscript.Proofs.Number.Small
import Refscript.Proofs.Semantics.Simulation

/-!
# Refscript.Proofs.Semantics.Operations

The code of literals, names, operators, places and calls carries out their evaluation.

A piece of code is given by what its evaluation is (`Gives`, `Unary`, `Binary`, `Calls`); these are
shapes, so the rules for emitted code apply to them. Outside of functions and without declared
names, all names are global (`bare`).
-/

namespace Refscript

open Lower Scene

variable {name : String} {vs : List Value} {count : Nat} {o : LowerM Unit} {items : List Node}

namespace Scene

variable {ω : Type} (S : Scene ω)

/-- The stack with a value on top, if it is wanted. -/
def keep : Bool → Value → List Value → List Value
  | true, v, stack => v :: stack
  | false, _, stack => stack

/-- The code evaluates `x` and leaves its value if it is wanted. -/
def Gives (r : Bool) (x : Eval ω Value) : Shape := fun P i j =>
  S.code = P → ∀ stack s, S.Realizes S.fuel (S.point i stack s) (x s) fun v s =>
    S.point j (keep r v stack) s

/-- The code is one instruction that pushes the value. -/
def Pushes (v : Value) : Shape := fun P i j =>
  S.code = P → ∀ stack s, S.after 1 (S.point i stack s) = S.point j (v :: stack) s

/-- The code takes a value and leaves another one. -/
def Unary (f : Value → Eval ω Value) : Shape := fun P i j =>
  S.code = P → ∀ a stack s,
    S.Realizes S.fuel (S.point i (a :: stack) s) (f a s) fun v s => S.point j (v :: stack) s

/-- The code takes two values and leaves another one. -/
def Binary (f : Value → Value → Eval ω Value) : Shape := fun P i j =>
  S.code = P → ∀ a b stack s,
    S.Realizes S.fuel (S.point i (b :: a :: stack) s) (f a b s) fun v s => S.point j (v :: stack) s

end Scene

namespace Lower

/-- One instruction. -/
def Shape.single (i : Insn) : Shape := fun P k j => j = k + 1 ∧ P.Carries k i

section

variable {I : Invariant} {h : Nat}

theorem emits_single (popped pushed : Nat) (i : Insn) :
    Emits I (build (.emitUnit popped pushed i)) (h + popped) (h + pushed) (.single i) := by
  have hemit := emits_insn (I := I) (Nat.le_add_left popped h) pushed i
  rw [Nat.add_sub_cancel] at hemit
  exact hemit.imp fun P k j hs => ⟨hs.1, hs.2.1⟩

theorem emits_constant (c : Constant) (f : Nat → Insn) (popped pushed : Nat) :
    Emits I (build (do Build.emitUnit popped pushed (f (← Build.constant c))))
      (h + popped) (h + pushed)
      fun P i j => ∃ n, P.constants[n]? = some c ∧ Shape.single (f n) P i j := by
  have hemit := emits_pooled (I := I) c f (Nat.le_add_left popped h) pushed
  rw [Nat.add_sub_cancel] at hemit
  exact hemit.imp fun P k j ⟨n, hn, hs⟩ => ⟨n, hn, hs.1, hs.2.1⟩

end

/-- The outermost function, without parameters and without names in scope. -/
def bare : Invariant where
  holds s := s.enclosing = [] ∧ s.builder.signature = (0, false) ∧ s.builder.active = []
  inert he _ hb := by
    rintro ⟨hs₁, hs₂, hs₃⟩
    have ⟨hp, ha⟩ := Prod.mk.inj hb
    exact ⟨he.trans hs₁, hp.trans hs₂, (Prod.mk.inj ha).1.trans hs₃⟩

end Lower

section Instructions

variable {ω : Type} {S : Scene ω} {i j n : Nat} {insn : Insn} {stack : List Value} {s : Store × ω}
  {v : Value}

theorem Scene.after_silent {left : List Value} (hi : S.code.Carries i insn)
    (hop : Exec.operation (S.frame (i + 1) stack) insn.pack insn.op =
      pure (.next (S.frame j left))) :
    S.after 1 (S.point i stack s) = S.point j left s := by
  rw [after_point hi, hop]
  rfl

theorem Scene.after_calling {c : Call} {f : Frame} {t : Store} (hi : S.code.Carries i insn)
    (hop : Exec.operation (S.frame (i + 1) stack) insn.pack insn.op s.1 = .ok (.call c f) t) :
    S.after 1 (S.point i stack s) = (.running ⟨t, [f], some c, S.depth, S.limit⟩, s.2) := by
  rw [after_point hi, hop]

theorem Scene.after_jump {target : Nat} (hi : S.code.Carries i (.wide .jump target)) :
    S.after 1 (S.point i stack s) = S.point target stack s := by
  refine after_silent hi ?_
  show pure (Effect.next { S.frame (i + 1) stack with ip := (Insn.wide .jump target).pack.c }) = _
  rw [Insn.c_pack rfl hi.fits]
  rfl

theorem Scene.popPlain_frame (v : Value) (stack : List Value) :
    Exec.popPlain (S.frame i (v :: stack)) =
      Action.reading (·.deref v) >>= fun u => pure (u, S.frame i stack) :=
  rfl

theorem Scene.ofExcept_popN (hcount : count = vs.length) :
    Action.ofExcept ((S.frame i (vs.reverse ++ stack)).popN count) =
      pure (vs, S.frame i stack) := by
  have hlength : count = vs.reverse.length := by rw [List.length_reverse, hcount]
  have hpop : (S.frame i (vs.reverse ++ stack)).popN count = .ok (vs, S.frame i stack) := by
    rw [Frame.popN, if_neg, frame]
    · simp only [hlength, List.take_left, List.drop_left, List.reverse_reverse, frame]
    · rw [frame, List.length_append, hlength]
      exact Nat.not_lt.2 (Nat.le_add_right _ _)
  rw [hpop]
  rfl

theorem Scene.ofExcept_name {index : Nat} (hn : S.code.constants[n]? = some (.str name))
    (hindex : index = n) : Action.ofExcept ((S.frame i stack).name index) = pure name := by
  have hconstant : (S.frame i stack).prototype.stringConstant? index = some name := by
    rw [Prototype.stringConstant?, hindex]
    show (S.code.constants[n]?.bind Constant.str?) = some name
    rw [hn]
    rfl
  rw [Frame.name, hconstant]
  rfl

end Instructions

section Operations

variable {ω : Type} {S : Scene ω} {r : Bool} {pos : Position} {h : Nat} {v : Value}

/-- The step `x` adds code that evaluates `y`. -/
def Scene.Performs (S : Scene ω) (x : LowerM Unit) (r : Bool) (y : Eval ω Value) : Prop :=
  ∀ h, Emits bare x h (h + r.toNat) (S.Gives r y)

theorem performs_pure : S.Performs (pure ()) false (pure v) := by
  intro h
  refine emits_pure.imp ?_
  rintro P i j rfl hP stack s
  exact .pure rfl

theorem Scene.emits_push (S : Scene ω) (op : Opcode)
    (hop : ∀ f w, Exec.operation f w op = Exec.pushed f v) :
    Emits bare (build (.emitUnit 0 1 (.simple op))) h (h + 1) (S.Pushes v) := by
  refine (emits_single 0 1 (.simple op)).imp ?_
  rintro P i j ⟨rfl, hi⟩ rfl stack s
  exact after_silent hi (hop _ _)

theorem Scene.emits_const (S : Scene ω) (c : Constant) :
    Emits bare (build (do Build.emitUnit 0 1 (.wide .const (← Build.constant c)))) h (h + 1)
      (S.Pushes c.value) := by
  refine (emits_constant c (.wide .const) 0 1).imp ?_
  rintro P i j ⟨n, hn, rfl, hi⟩ rfl stack s
  refine after_silent hi ?_
  have hconstant : (S.frame (i + 1) stack).prototype.constants[(Insn.wide .const n).pack.c]? =
      some c := by
    rw [Insn.c_pack rfl hi.fits]
    exact hn
  simp only [Exec.operation, hconstant]
  rfl

theorem Scene.emits_null (S : Scene ω) : Emits bare (build .null) h (h + 1) (S.Pushes .null) :=
  S.emits_push .pushNull fun _ _ => rfl

theorem Scene.emits_bool (S : Scene ω) (b : Bool) :
    Emits bare (build (.bool b)) h (h + 1) (S.Pushes (.bool b)) := by
  cases b with
  | true => exact S.emits_push .pushTrue fun _ _ => rfl
  | false => exact S.emits_push .pushFalse fun _ _ => rfl

theorem Scene.emits_int (S : Scene ω) (i : Int64) :
    Emits bare (build (.int i)) h (h + 1) (S.Pushes (.int i)) := by
  unfold Build.int
  split
  · rename_i k hk
    refine S.emits_push (.smallInt k) fun f w => ?_
    rw [← Build.ofInt_of_small? hk]
    rfl
  · exact S.emits_const (.int i)

theorem Scene.emits_float (S : Scene ω) (d : Double) :
    Emits bare (build (.float d)) h (h + 1) (S.Pushes (.float d)) := by
  unfold Build.float
  split
  · rename_i k hk
    refine S.emits_push (.smallFloat k) fun f w => ?_
    rw [← Build.ofInt_of_smallDouble? hk]
    rfl
  · exact S.emits_const (.float d)

theorem Scene.emits_str (S : Scene ω) (t : String) :
    Emits bare (build (.string t)) h (h + 1) (S.Pushes (.str t)) :=
  S.emits_const (.str t)

theorem performs_literal {x : Build Unit} (hx : ∀ h, Emits bare (build x) h (h + 1) (S.Pushes v)) :
    S.Performs (whenRequired r x) r (pure v) := by
  intro h
  refine (emits_whenRequired r (hx h)).imp ?_
  cases r with
  | false =>
    rintro P i j rfl hP stack s
    exact .pure rfl
  | true =>
    rintro P i j hs hP stack s
    exact Realizes.steps (hs hP stack s) (Realizes.pure rfl)

theorem performs_null : S.Performs (whenRequired r .null) r (pure .null) :=
  performs_literal fun _ => S.emits_null

theorem performs_bool (b : Bool) : S.Performs (whenRequired r (.bool b)) r (pure (.bool b)) :=
  performs_literal fun _ => S.emits_bool b

theorem performs_int (i : Int64) : S.Performs (whenRequired r (.int i)) r (pure (.int i)) :=
  performs_literal fun _ => S.emits_int i

theorem performs_float (d : Double) : S.Performs (whenRequired r (.float d)) r (pure (.float d)) :=
  performs_literal fun _ => S.emits_float d

theorem performs_str (t : String) : S.Performs (whenRequired r (.string t)) r (pure (.str t)) :=
  performs_literal fun _ => S.emits_str t

theorem emits_resolve {f : Lower.Place → LowerM Unit} {h' : Nat} {A : Shape} (name : String)
    (hf : Emits bare (f .global) h h' A) : Emits bare (resolve name >>= f) h h' A := by
  intro s hs hI hh
  have hglobal : resolve name s = .ok .global s := by
    obtain ⟨b, enclosing, ds⟩ := s
    obtain ⟨rfl, _, hactive⟩ := hI
    have hlocal : b.localSlot? name = none := by
      rw [Builder.localSlot?, hactive]
      rfl
    have houter : b.outerPosition? name = none := by
      rw [Builder.outerPosition?, hs.2]
      rfl
    simp only [resolve, hlocal, Builder.resolveOuter?, houter]
  rw [yields_bind]
  exact ⟨.global, s, hglobal, hf s hs hI hh⟩

theorem performs_identifier (name : String) :
    S.Performs (if r then load name else return) r (Evaluator.act (Action.look (·.load name))) := by
  intro h
  cases r with
  | false =>
    refine emits_pure.imp ?_
    rintro P i j rfl hP stack s _
    exact ⟨0, rfl⟩
  | true =>
    refine (emits_resolve name (emits_constant (.str name) (.wide .loadGlobal) 0 1)).imp ?_
    rintro P i j ⟨n, hn, rfl, hi⟩ rfl stack s
    refine realizes_insn hi ?_
    show (Action.ofExcept ((S.frame (i + 1) _).name _) >>= _) = _
    rw [ofExcept_name hn (Insn.c_pack rfl hi.fits), pure_bind]
    rfl

theorem Scene.emits_prefixOp (S : Scene ω) (symbol : String) :
    Emits bare (build (.prefixOp symbol)) (h + 1) (h + 1)
      (S.Unary fun a => S.task (·.applyPrefix symbol a)) := by
  refine (emits_constant (.str symbol) (.wide .prefixOp) 1 1).imp ?_
  rintro P i j ⟨n, hn, rfl, hi⟩ rfl a stack s
  refine realizes_task (a := Action.reading (·.applyPrefix symbol a)) hi ?_ fun m => ?_
  · show (Action.ofExcept ((S.frame (i + 1) _).name _) >>= _) = _
    rw [ofExcept_name hn (Insn.c_pack rfl hi.fits), pure_bind]
    rfl
  · rw [Machine.applyPrefix, Action.reading]
    cases m.store.applyPrefix symbol a <;> rfl

theorem Scene.emits_infixOp (S : Scene ω) (symbol : String) :
    Emits bare (build (.infixOp symbol)) (h + 2) (h + 1)
      (S.Binary fun a b => S.task (·.applyInfix symbol a b)) := by
  refine (emits_constant (.str symbol) (.wide .infixOp) 2 1).imp ?_
  rintro P i j ⟨n, hn, rfl, hi⟩ rfl a b stack s
  refine realizes_task (a := Store.applyInfix symbol a b) hi ?_ fun m => rfl
  show (Action.ofExcept ((S.frame (i + 1) _).name _) >>= _) = _
  rw [ofExcept_name hn (Insn.c_pack rfl hi.fits), pure_bind]
  rfl

theorem Scene.emits_not (S : Scene ω) :
    Emits bare (build .not) (h + 1) (h + 1)
      (S.Unary fun a => return .bool !(← Evaluator.holds a)) := by
  refine (emits_single 1 1 (.simple .not)).imp ?_
  rintro P i j ⟨rfl, hi⟩ rfl a stack s
  have hinsn : S.Realizes S.fuel (S.point i (a :: stack) s) (Evaluator.follow a s) fun u s =>
      S.point (i + 1) (.bool (!u.truth) :: stack) s := by
    refine realizes_insn hi ?_
    show (Exec.popPlain (S.frame (i + 1) (a :: stack)) >>= _) = _
    rw [popPlain_frame, bind_assoc]
    rfl
  have hholds : S.Realizes S.fuel (S.point i (a :: stack) s) (Evaluator.holds a s) fun b s =>
      S.point (i + 1) (.bool (!b) :: stack) s :=
    hinsn.bind fun u t _ => .pure rfl
  exact hholds.bind fun b t _ => .pure rfl

theorem Scene.emits_comparison (S : Scene ω) (op : Opcode) (f : Bool → Bool)
    (hop : ∀ i a b stack w, Exec.operation (S.frame i (b :: a :: stack)) w op =
      Evaluator.comparing a b >>= fun u => pure (.next (S.frame i (.bool (f u) :: stack)))) :
    Emits bare (build (.emitUnit 2 1 (.simple op))) (h + 2) (h + 1)
      (S.Binary fun a b => return .bool (f (← Evaluator.act (Evaluator.comparing a b)))) := by
  refine (emits_single 2 1 (.simple op)).imp ?_
  rintro P i j ⟨rfl, hi⟩ rfl a b stack s
  have hinsn : S.Realizes S.fuel (S.point i (b :: a :: stack) s)
    (Evaluator.act (Evaluator.comparing a b) s) fun u s =>
      S.point (i + 1) (.bool (f u) :: stack) s :=
    realizes_insn hi (hop _ _ _ _ _)
  exact hinsn.bind fun u t _ => .pure rfl

theorem Scene.operation_eq (S : Scene ω) (i : Nat) (a b : Value) (stack : List Value) (w : Word) :
    Exec.operation (S.frame i (b :: a :: stack)) w .eq =
      Evaluator.comparing a b >>= fun u => pure (.next (S.frame i (.bool u :: stack))) := by
  show (Exec.popPlain (S.frame i (b :: a :: stack)) >>= _) = _
  simp only [popPlain_frame, Evaluator.comparing, bind_assoc, pure_bind]
  rfl

theorem Scene.operation_neq (S : Scene ω) (i : Nat) (a b : Value) (stack : List Value) (w : Word) :
    Exec.operation (S.frame i (b :: a :: stack)) w .neq =
      Evaluator.comparing a b >>= fun u => pure (.next (S.frame i (.bool (!u) :: stack))) := by
  show (Exec.popPlain (S.frame i (b :: a :: stack)) >>= _) = _
  simp only [popPlain_frame, Evaluator.comparing, bind_assoc, pure_bind]
  rfl

theorem Scene.Realizes.discard {c : Outcome × ω} {x : EStateM.Result Stop (Store × ω) Value}
    {stack : List Value} {m j : Nat}
    (hx : S.Realizes S.fuel c x fun v s => S.point m (v :: stack) s)
    (hd : (if r then Shape.none else .insn (h + 1) h (.simple .pop)) S.code m j) :
    S.Realizes S.fuel c x fun v s => S.point j (keep r v stack) s := by
  cases r with
  | true =>
    cases hd
    exact hx
  | false =>
    obtain ⟨rfl, hi, _⟩ := hd
    exact hx.trail fun v s _ => ⟨1, after_silent hi rfl⟩

theorem Scene.Performs.unary {a : LowerM Unit} {u : Eval ω Value} {f : Value → Eval ω Value}
    (ha : S.Performs a true u) (ho : ∀ h, Emits bare o (h + 1) (h + 1) (S.Unary f)) :
    S.Performs (do a; o; discard r) r (do f (← u)) := by
  intro h
  refine ((ha h).seq ((ho h).seq (emits_discard r))).imp ?_
  rintro P i j ⟨m₁, ha, m₂, hop, hd⟩ rfl stack s
  exact (Realizes.bind (ha rfl stack s) fun v t _ => hop rfl v stack t).discard hd

theorem Scene.Performs.binary {a b : LowerM Unit} {u v : Eval ω Value}
    {f : Value → Value → Eval ω Value} (ha : S.Performs a true u) (hb : S.Performs b true v)
    (ho : ∀ h, Emits bare o (h + 2) (h + 1) (S.Binary f)) :
    S.Performs (do a; b; o; discard r) r (do f (← u) (← v)) := by
  intro h
  refine ((ha h).seq ((hb (h + 1)).seq ((ho h).seq (emits_discard r)))).imp ?_
  rintro P i j ⟨m₁, ha, m₂, hb, m₃, hop, hd⟩ rfl stack s
  refine Realizes.discard (Realizes.bind (ha rfl stack s) fun c t _ => ?_) hd
  exact Realizes.bind (hb rfl (c :: stack) t) fun d u _ => hop rfl c d stack u

variable {x y : Node} {h i : Nat}

theorem performs_prefixOp {op : Operator} (hx : S.Performs (node x) true (S.node x)) :
    S.Performs (expr pos r (.prefixOp op x)) r (S.expr r (.prefixOp op x)) := by
  rw [expr]
  exact hx.unary fun _ => S.emits_prefixOp op.symbol

theorem performs_infixOp {op : InfixSymbol} (hx : S.Performs (node x) true (S.node x))
    (hy : S.Performs (node y) true (S.node y)) :
    S.Performs (expr pos r (.infixOp op x y)) r (S.expr r (.infixOp op x y)) := by
  rw [expr]
  cases op with
  | equal => exact hx.binary hy fun _ => S.emits_comparison .eq id S.operation_eq
  | notEqual => exact hx.binary hy fun _ => S.emits_comparison .neq not S.operation_neq
  | operator o => exact hx.binary hy fun _ => S.emits_infixOp o.symbol

theorem performs_not (hx : S.Performs (node x) true (S.node x)) :
    S.Performs (expr pos r (.not x)) r (S.expr r (.not x)) := by
  rw [expr]
  exact hx.unary fun _ => S.emits_not

/-- The code evaluates to several values and leaves all of them. -/
def Scene.GivesAll (S : Scene ω) (x : Eval ω (List Value)) : Shape := fun P i j =>
  S.code = P → ∀ stack s,
    S.Realizes S.fuel (S.point i stack s) (x s) fun vs s => S.point j (vs.reverse ++ stack) s

theorem performs_nodes {ns : List Node} (hns : ∀ n ∈ ns, S.Performs (node n) true (S.node n))
    (h : Nat) : Emits bare (nodes ns) h (h + ns.length) (S.GivesAll (S.nodes ns)) := by
  induction ns generalizing h with
  | nil =>
    rw [nodes]
    refine emits_pure.imp ?_
    rintro P i j rfl hP stack s
    exact .pure rfl
  | cons n ns ih =>
    have hrest := ih (fun m hm => hns m (List.mem_cons_of_mem n hm)) (h + 1)
    rw [Nat.add_assoc, Nat.add_comm 1] at hrest
    rw [nodes]
    refine ((hns n List.mem_cons_self h).seq hrest).imp ?_
    rintro P i j ⟨m, hn, hrest⟩ rfl stack s
    refine Realizes.bind (hn rfl stack s) fun v t _ =>
      Realizes.bind (hrest rfl (v :: stack) t) fun vs u _ => .pure ?_
    rw [List.reverse_cons, List.append_assoc]
    rfl

theorem Evaluator.length_nodes {E : Evaluator ω} {ns : List Node} {s t : Store × ω}
    (h : E.nodes ns s = .ok vs t) : vs.length = ns.length := by
  induction ns generalizing vs s t with
  | nil =>
    cases h
    rfl
  | cons n ns ih =>
    have h : (E.node n >>= fun v => E.nodes ns >>= fun vs => pure (v :: vs)) s = .ok vs t := h
    simp only [bind, EStateM.bind] at h
    split at h
    · split at h
      · rename_i hrest
        cases h
        rw [List.length_cons, List.length_cons, ih hrest]
      · cases h
    · cases h

/-- The code takes several values and leaves one. -/
def Scene.Gathers (S : Scene ω) (count : Nat) (f : List Value → Eval ω Value) :
    Shape := fun P i j =>
  S.code = P → ∀ vs stack s, vs.length = count →
    S.Realizes S.fuel (S.point i (vs.reverse ++ stack) s) (f vs s) fun v s =>
      S.point j (v :: stack) s

theorem Scene.operation_list {stack : List Value} (hi : S.code.Carries i (.wide .list count))
    (hcount : vs.length = count) :
    Exec.operation (S.frame (i + 1) (vs.reverse ++ stack)) (Insn.wide .list count).pack
      (Insn.wide .list count).op =
      Action.adding (·.newList vs.toArray) >>= fun u =>
        pure (.next (S.frame (i + 1) (u :: stack))) := by
  show (Action.ofExcept ((S.frame (i + 1) (vs.reverse ++ stack)).popN _) >>= _) = _
  rw [ofExcept_popN ((Insn.c_pack rfl hi.fits).trans hcount.symm), pure_bind]
  rfl

theorem Scene.operation_tuple {stack : List Value} (hi : S.code.Carries i (.wide .tuple count))
    (hcount : vs.length = count) :
    Exec.operation (S.frame (i + 1) (vs.reverse ++ stack)) (Insn.wide .tuple count).pack
      (Insn.wide .tuple count).op =
      pure (.next (S.frame (i + 1) (.tuple vs :: stack))) := by
  show (Action.ofExcept ((S.frame (i + 1) (vs.reverse ++ stack)).popN _) >>= _) = _
  rw [ofExcept_popN ((Insn.c_pack rfl hi.fits).trans hcount.symm), pure_bind]
  rfl

theorem Scene.emits_list (S : Scene ω) (count : Nat) :
    Emits bare (build (.list count)) (h + count) (h + 1)
      (S.Gathers count fun vs => Evaluator.act (Action.adding (·.newList vs.toArray))) := by
  refine (emits_single count 1 (.wide .list count)).imp ?_
  rintro P i j ⟨rfl, hi⟩ rfl vs stack s hcount
  exact realizes_insn hi (operation_list hi hcount)

theorem Scene.emits_tuple (S : Scene ω) (count : Nat) :
    Emits bare (build (.tuple count)) (h + count) (h + 1)
      (S.Gathers count fun vs => pure (.tuple vs)) := by
  refine (emits_single count 1 (.wide .tuple count)).imp ?_
  rintro P i j ⟨rfl, hi⟩ rfl vs stack s hcount
  exact Realizes.steps (after_silent hi (operation_tuple hi hcount)) (.pure rfl)

theorem performs_gathered {f : List Value → Eval ω Value}
    (hitems : ∀ n ∈ items, S.Performs (node n) true (S.node n))
    (ho : ∀ h, Emits bare o (h + items.length) (h + 1) (S.Gathers items.length f)) :
    S.Performs (do nodes items; o; discard r) r (do f (← S.nodes items)) := by
  intro h
  refine ((performs_nodes hitems h).seq ((ho h).seq (emits_discard r))).imp ?_
  rintro P i j ⟨m₁, hitems, m₂, hop, hd⟩ rfl stack s
  refine (Realizes.bind (hitems rfl stack s) fun vs t hvs => ?_).discard hd
  exact hop rfl vs stack t (Evaluator.length_nodes hvs)

theorem performs_list (hitems : ∀ n ∈ items, S.Performs (node n) true (S.node n)) :
    S.Performs (expr pos r (.list items)) r (S.expr r (.list items)) := by
  rw [expr]
  exact performs_gathered hitems fun _ => S.emits_list items.length

theorem performs_tuple (hitems : ∀ n ∈ items, S.Performs (node n) true (S.node n)) :
    S.Performs (expr pos r (.tuple items)) r (S.expr r (.tuple items)) := by
  rw [expr]
  exact performs_gathered hitems fun _ => S.emits_tuple items.length

theorem Scene.emits_loadIndex (S : Scene ω) :
    Emits bare (build .loadIndex) (h + 2) (h + 1)
      (S.Binary fun a b => Evaluator.act (Evaluator.readingIndex a b)) := by
  refine (emits_single 2 1 (.simple .loadIndex)).imp ?_
  rintro P i j ⟨rfl, hi⟩ rfl a b stack s
  refine realizes_insn hi ?_
  show (Exec.popPlain (S.frame (i + 1) (b :: a :: stack)) >>= _) = _
  simp only [popPlain_frame, Evaluator.readingIndex, bind_assoc, pure_bind]
  rfl

theorem Scene.emits_loadField (S : Scene ω) (name : String) :
    Emits bare (build (.loadField name)) (h + 1) (h + 1)
      (S.Unary fun a => Evaluator.act (Evaluator.readingField a name)) := by
  refine (emits_constant (.str name) (.wide .loadField) 1 1).imp ?_
  rintro P i j ⟨n, hn, rfl, hi⟩ rfl a stack s
  refine realizes_insn hi ?_
  show (Action.ofExcept ((S.frame (i + 1) (a :: stack)).name _) >>= fun name =>
    Exec.popPlain (S.frame (i + 1) (a :: stack)) >>= _) = _
  rw [ofExcept_name hn (Insn.c_pack rfl hi.fits), pure_bind]
  simp only [popPlain_frame, Evaluator.readingField, bind_assoc, pure_bind]
  rfl

theorem performs_index (hx : S.Performs (node x) true (S.node x))
    (hy : S.Performs (node y) true (S.node y)) :
    S.Performs (expr pos r (.index x y)) r (S.expr r (.index x y)) := by
  rw [expr]
  exact hx.binary hy fun _ => S.emits_loadIndex

theorem performs_field (hx : S.Performs (node x) true (S.node x)) :
    S.Performs (expr pos r (.field x name)) r (S.expr r (.field x name)) := by
  rw [expr]
  exact hx.unary fun _ => S.emits_loadField name

theorem Scene.emits_store (S : Scene ω) (name : String) :
    Emits bare (store name) (h + 1) (h + 1) (S.Unary fun v => do
      Evaluator.act (Store.assign (.global name) v)
      return v) := by
  refine (emits_resolve name (emits_constant (.str name) (.wide .storeGlobal) 1 1)).imp ?_
  rintro P i j ⟨n, hn, rfl, hi⟩ rfl v stack s
  have hinsn :
    S.Realizes S.fuel (S.point i (v :: stack) s) (Evaluator.act (Store.assign (.global name) v) s)
      fun _ s => S.point (i + 1) (v :: stack) s := by
    refine realizes_insn hi ?_
    show (Action.ofExcept ((S.frame (i + 1) _).name _) >>= _) = _
    rw [ofExcept_name hn (Insn.c_pack rfl hi.fits), pure_bind]
    rfl
  exact hinsn.bind fun _ t _ => .pure rfl

theorem performs_assign {p : Position} {r' : Bool} (hx : S.Performs (node x) true (S.node x)) :
    S.Performs (expr pos r (.assign ⟨p, r', .identifier name⟩ x)) r
      (S.expr r (.assign ⟨p, r', .identifier name⟩ x)) := by
  rw [expr]
  exact hx.unary fun _ => S.emits_store name

theorem performs_compoundAssign {op : Operator} {p : Position} {r' : Bool}
    (hx : S.Performs (node x) true (S.node x)) :
    S.Performs (expr pos r (.compoundAssign op ⟨p, r', .identifier name⟩ x)) r
      (S.expr r (.compoundAssign op ⟨p, r', .identifier name⟩ x)) := by
  intro h
  rw [expr]
  refine ((performs_identifier (S := S) (r := true) name h).seq
    ((hx (h + 1)).seq ((S.emits_infixOp op.symbol).seq
    ((S.emits_store name).seq (emits_discard r))))).imp ?_
  rintro P i j ⟨m₁, hload, m₂, hx, m₃, hop, m₄, hstore, hd⟩ rfl stack s
  refine Realizes.discard (Realizes.bind (hload rfl stack s) fun a t _ => ?_) hd
  refine Realizes.bind (hx rfl (a :: stack) t) fun b u _ => ?_
  exact Realizes.bind (hop rfl a b stack u) fun v t _ => hstore rfl v stack t

/-- A method call, with the method still to be found. -/
def methodCall (receiver : Value) (name : String) (args : List Value) : Action Applied := do
  let receiver ← Action.reading (·.deref receiver)
  return .call ⟨← Action.reading (·.readField receiver name), some receiver, args, none⟩

theorem Scene.operation_invokeMethod {n : Nat} (hn : S.code.constants[n]? = some (.str name))
    (hi : S.code.Carries i (.split .invokeMethod count n)) (hcount : count = vs.length) (a : Value)
    (stack : List Value) :
    Exec.operation (S.frame (i + 1) (vs.reverse ++ a :: stack))
      (Insn.split .invokeMethod count n).pack .invokeMethod =
      methodCall a name vs >>= fun x => pure (Exec.applied (S.frame (i + 1) stack) x) := by
  show (Action.ofExcept ((S.frame (i + 1) _).name _) >>= _) = _
  rw [ofExcept_name hn (Insn.b_pack rfl hi.fits), pure_bind,
    ofExcept_popN ((Insn.a_pack rfl hi.fits).trans hcount), pure_bind]
  simp only [popPlain_frame, methodCall, bind_assoc, pure_bind]
  rfl

/-- The code takes a value and arguments for it, and leaves another value. -/
def Scene.Calls (S : Scene ω) (count : Nat) (f : Value → List Value → Eval ω Value) :
    Shape := fun P i j =>
  S.code = P → ∀ a vs stack s, vs.length = count →
    S.Realizes S.fuel (S.point i (vs.reverse ++ a :: stack) s) (f a vs s) fun v s =>
      S.point j (v :: stack) s

theorem Scene.emits_invoke (S : Scene ω) (count : Nat) :
    Emits bare (build (.invoke count)) (h + 1 + count) (h + 1)
      (S.Calls count fun f vs => S.task (·.call ⟨f, none, vs, none⟩)) := by
  rw [Nat.add_right_comm h 1 count]
  refine (emits_single (count + 1) 1 (.wide .invoke count)).imp ?_
  rintro P i j ⟨rfl, hi⟩ rfl f vs stack s hcount
  refine realizes_task (a := pure (.call ⟨f, none, vs, none⟩)) hi ?_ fun m => rfl
  show (Action.ofExcept ((S.frame (i + 1) (vs.reverse ++ f :: stack)).popN _) >>= _) = _
  rw [ofExcept_popN ((Insn.c_pack rfl hi.fits).trans hcount.symm), pure_bind]
  rfl

theorem Scene.emits_invokeMethod (S : Scene ω) (name : String) (count : Nat) :
    Emits bare (build (.invokeMethod name count)) (h + 1 + count) (h + 1)
      (S.Calls count fun a vs => S.task (·.callMethod a name vs)) := by
  rw [Nat.add_right_comm h 1 count]
  refine (emits_constant (.str name) (.split .invokeMethod count) (count + 1) 1).imp ?_
  rintro P i j ⟨n, hn, rfl, hi⟩ rfl a vs stack s hcount
  refine realizes_task hi (operation_invokeMethod hn hi hcount.symm a stack) fun m => ?_
  simp only [Machine.callMethod, methodCall, Action.reading, bind, EStateM.bind, Except.bind]
  cases m.store.deref a with
  | error e => rfl
  | ok u =>
    dsimp only
    cases m.store.readField u name <;> rfl

theorem performs_called {args : List Node} {f : Value → List Value → Eval ω Value} (line : Nat)
    (hx : S.Performs (node x) true (S.node x))
    (hargs : ∀ n ∈ args, S.Performs (node n) true (S.node n))
    (ho : ∀ h, Emits bare o (h + 1 + args.length) (h + 1) (S.Calls args.length f)) :
    S.Performs (do node x; nodes args; build (.setLine line); o; discard r) r
      (do f (← S.node x) (← S.nodes args)) := by
  intro h
  refine ((hx h).seq ((performs_nodes hargs (h + 1)).seq ((emits_setLine line).seq
    ((ho h).seq (emits_discard r))))).imp ?_
  rintro P i j ⟨m₁, hx, m₂, hargs, _, rfl, m₃, hcall, hd⟩ rfl stack s
  refine Realizes.discard (Realizes.bind (hx rfl stack s) fun a t _ => ?_) hd
  refine Realizes.bind (hargs rfl (a :: stack) t) fun vs u hvs => ?_
  exact hcall rfl a vs stack u (Evaluator.length_nodes hvs)

theorem performs_invoke {args : List Node}
    (hoperands : ∀ n ∈ operands x.expr, S.Performs (node n) true (S.node n))
    (hx : S.Performs (node x) true (S.node x))
    (hargs : ∀ n ∈ args, S.Performs (node n) true (S.node n)) :
    S.Performs (expr pos r (.invoke x args)) r (S.expr r (.invoke x args)) := by
  obtain ⟨p, r', e⟩ := x
  cases e with
  | field receiver name =>
    exact performs_called pos.line (hoperands receiver List.mem_cons_self) hargs fun _ =>
      S.emits_invokeMethod name args.length
  | _ => exact performs_called pos.line hx hargs fun _ => S.emits_invoke args.length

end Operations
end Refscript
