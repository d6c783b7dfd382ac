import Refscript.Proofs.Semantics.Literals
import Refscript.Proofs.Semantics.ReadBack

/-!
# Refscript.Proofs.Semantics.Folding

The code of trees of operators over literals, folded and not folded.

* `Scene.computes_node`: the code of a tree computes its meaning.
* `Lower.silent_node`: nothing is reported about it, unless it has too many constants, and its stack
  is no larger than the tree.
* `folding_keeps_answer`: so a folded tree comes to the same value or fault as the tree that is not
  folded. Their stores differ only in what the code of the program itself takes up there, and no
  operation looks at that.
-/

namespace Refscript

open Lower Marking

variable {j k popped pushed : Nat} {x : LowerM Unit} {n : Node} {p : Prototype} {u : Action Value}

section Code

variable {ω : Type}

namespace Scene

variable (S : Scene ω)

/-- The run from `c` comes to where `post` says, or raises the fault, and leaves the world alone. -/
def Settles {α : Type} (c : Outcome × ω) (r : EStateM.Result Fault Store α)
    (post : α → Store → Outcome × ω) : Prop :=
  match r with
  | .ok a t => ∃ k, S.after k c = post a t
  | .error f _ => ∃ k m, S.after k c = (Machine.raise m f, c.2)

/-- The code computes `x` and leaves its value. -/
def Computes (x : Action Value) : Shape := fun P i j =>
  S.code = P → ∀ stack s w, S.Settles (S.point i stack (s, w)) (x s) fun v t =>
    S.point j (v :: stack) (t, w)

variable {S} {α β : Type} {c : Outcome × ω} {s : Store}

theorem Settles.bind {x : Action α} {f : α → Action β} {post : α → Store → Outcome × ω}
    {post' : β → Store → Outcome × ω}
    (hx : S.Settles c (x s) post) (hf : ∀ a t, x s = .ok a t → S.Settles (post a t) (f a t) post')
    (hworld : ∀ a t, (post a t).2 = c.2) : S.Settles c ((x >>= f) s) post' := by
  simp only [Bind.bind, EStateM.bind]
  cases hxs : x s with
  | error e t =>
    rw [hxs] at hx
    exact hx
  | ok a t =>
    rw [hxs] at hx
    obtain ⟨k, hk⟩ := hx
    have hrest := hf a t hxs
    dsimp only
    cases hfa : f a t with
    | ok b u =>
      rw [hfa] at hrest
      obtain ⟨j, hj⟩ := hrest
      exact ⟨k + j, after_trans hk hj⟩
    | error e u =>
      rw [hfa] at hrest
      obtain ⟨j, m, hj⟩ := hrest
      exact ⟨k + j, m, (after_trans hk hj).trans (by rw [hworld])⟩

theorem settles_insn {x : Action Value} {i : Nat} {insn : Insn} {stack left : List Value}
    (hi : S.code.Carries i insn) (w : ω)
    (hop : Exec.operation (S.frame (i + 1) stack) insn.pack insn.op s =
      (x >>= fun v => pure (.next (S.frame (i + 1) (v :: left)))) s) :
    S.Settles (S.point i stack (s, w)) (x s) fun v t => S.point (i + 1) (v :: left) (t, w) := by
  have hmove := after_point hi stack (s, w)
  rw [hop] at hmove
  simp only [Bind.bind, EStateM.bind] at hmove
  cases hx : x s with
  | ok v t =>
    rw [hx] at hmove
    exact ⟨1, hmove⟩
  | error e t =>
    rw [hx] at hmove
    exact ⟨1, _, hmove⟩

/-- The code takes a value and leaves another one. -/
def Turns (S : Scene ω) (f : Value → Action Value) : Shape := fun P i j =>
  S.code = P → ∀ a stack s w, a.IsData →
    S.Settles (S.point i (a :: stack) (s, w)) (f a s) fun v t => S.point j (v :: stack) (t, w)

/-- The code takes two values and leaves another one. -/
def Joins (S : Scene ω) (f : Value → Value → Action Value) : Shape := fun P i j =>
  S.code = P → ∀ a b stack s w, a.IsData → b.IsData →
    S.Settles (S.point i (b :: a :: stack) (s, w)) (f a b s) fun v t =>
      S.point j (v :: stack) (t, w)

variable {h : Nat}

theorem turns_not (S : Scene ω) :
    Emits bare (build .not) (h + 1) (h + 1) (S.Turns fun a => pure (.bool !a.truth)) := by
  refine (emits_single 1 1 (.simple .not)).imp ?_
  rintro P i j ⟨rfl, hi⟩ rfl a stack s w ha
  refine settles_insn hi w ?_
  show (Exec.popPlain (S.frame (i + 1) (a :: stack)) >>= _) s = _
  rw [popPlain_frame]
  simp only [Action.reading, Bind.bind, EStateM.bind, ha.deref]
  rfl

theorem turns_prefixOp (S : Scene ω) (symbol : String) :
    Emits bare (build (.prefixOp symbol)) (h + 1) (h + 1)
      (S.Turns fun a => Action.reading (·.plainPrefix symbol a)) := by
  refine (emits_constant (.str symbol) (.wide .prefixOp) 1 1).imp ?_
  rintro P i j ⟨n, hn, rfl, hi⟩ rfl a stack s w ha
  refine settles_insn hi w ?_
  show (Action.ofExcept ((S.frame (i + 1) _).name _) >>= _) s = _
  rw [ofExcept_name hn (Insn.c_pack rfl hi.fits), pure_bind]
  show (Action.reading (·.applyPrefix symbol a) >>= fun x =>
    pure (Exec.applied (S.frame (i + 1) stack) x)) s = _
  simp only [Action.reading, Store.applyPrefix, Bind.bind, EStateM.bind, Except.bind, ha.deref,
    ha.ownOperator?]
  cases s.plainPrefix symbol a <;> rfl

theorem joins_infixOp (S : Scene ω) (o : Operator) :
    Emits bare (build (.infixOp o.symbol)) (h + 2) (h + 1)
      (S.Joins fun a b => Store.plainInfix o.symbol a b) := by
  refine (emits_constant (.str o.symbol) (.wide .infixOp) 2 1).imp ?_
  rintro P i j ⟨n, hn, rfl, hi⟩ rfl a b stack s w ha hb
  refine settles_insn hi w ?_
  show (Action.ofExcept ((S.frame (i + 1) _).name _) >>= _) s = _
  rw [ofExcept_name hn (Insn.c_pack rfl hi.fits), pure_bind]
  show (Store.applyInfix o.symbol a b >>= fun x => pure (Exec.applied (S.frame (i + 1) stack) x))
    s = _
  simp only [Store.applyInfix, Action.reading, Action.look, Bind.bind, EStateM.bind, ha.deref,
    hb.deref, ha.ownOperator?]
  cases Store.plainInfix o.symbol a b s <;> rfl

theorem comparing_of_data {a b : Value} (ha : a.IsData) (hb : b.IsData) (s : Store) :
    Evaluator.comparing a b s = .ok (s.equal a b) s := by
  simp only [Evaluator.comparing, Action.reading, Bind.bind, EStateM.bind, ha.deref, hb.deref]
  rfl

theorem joins_eq (S : Scene ω) :
    Emits bare (build (.eq false)) (h + 2) (h + 1)
      (S.Joins fun a b => Store.plainInfix "==" a b) := by
  refine (emits_single 2 1 (.simple .eq)).imp ?_
  rintro P i j ⟨rfl, hi⟩ rfl a b stack s w ha hb
  refine settles_insn hi w ((congrFun (S.operation_eq (i + 1) a b stack _) s).trans ?_)
  simp only [Bind.bind, EStateM.bind, comparing_of_data ha hb]
  rfl

theorem joins_neq (S : Scene ω) :
    Emits bare (build (.eq true)) (h + 2) (h + 1)
      (S.Joins fun a b => Store.plainInfix "!=" a b) := by
  refine (emits_single 2 1 (.simple .neq)).imp ?_
  rintro P i j ⟨rfl, hi⟩ rfl a b stack s w ha hb
  refine settles_insn hi w ((congrFun (S.operation_neq (i + 1) a b stack _) s).trans ?_)
  simp only [Bind.bind, EStateM.bind, comparing_of_data ha hb]
  rfl

theorem computes_push {v : Value} (hx : Emits bare x h (h + 1) (S.Pushes v)) :
    Emits bare x h (h + 1) (S.Computes (pure v)) :=
  hx.imp fun _ _ _ hs hP stack s w => ⟨1, hs hP stack (s, w)⟩

theorem computes_unary {o : LowerM Unit} {f : Value → Action Value}
    (hdata : ∀ s, u.Ensures s (fun v _ => v.IsData) fun _ _ => True)
    (hx : Emits bare x h (h + 1) (S.Computes u)) (ho : Emits bare o (h + 1) (h + 1) (S.Turns f)) :
    Emits bare (do x; o; discard true) h (h + 1) (S.Computes (u >>= f)) := by
  refine (hx.seq (ho.seq (emits_discard true))).imp ?_
  rintro P i j ⟨m, hx, _, ho, rfl⟩ rfl stack s w
  exact (hx rfl stack s w).bind (fun a t ha => ho rfl a stack t w ((hdata s).ok ha)) fun _ _ => rfl

theorem computes_binary {y o : LowerM Unit} {v : Action Value} {f : Value → Value → Action Value}
    (hu : ∀ s, u.Ensures s (fun v _ => v.IsData) fun _ _ => True)
    (hv : ∀ s, v.Ensures s (fun v _ => v.IsData) fun _ _ => True)
    (hx : Emits bare x h (h + 1) (S.Computes u)) (hy : Emits bare y (h + 1) (h + 2) (S.Computes v))
    (ho : Emits bare o (h + 2) (h + 1) (S.Joins f)) :
    Emits bare (do x; y; o; discard true) h (h + 1) (S.Computes (do f (← u) (← v))) := by
  refine (hx.seq (hy.seq (ho.seq (emits_discard true)))).imp ?_
  rintro P i j ⟨m, hx, _, hy, _, ho, rfl⟩ rfl stack s w
  refine (hx rfl stack s w).bind (fun a t ha => ?_) fun _ _ => rfl
  refine (hy rfl (a :: stack) t w).bind (fun b r hb => ?_) fun _ _ => rfl
  exact ho rfl a b stack r w ((hu s).ok ha) ((hv t).ok hb)

theorem computes_line {line : Nat} (hx : Emits bare x h (h + 1) (S.Computes u)) :
    Emits bare (do build (.setLine line); x) h (h + 1) (S.Computes u) := by
  refine ((emits_setLine line).seq hx).imp ?_
  rintro P i j ⟨_, rfl, hs⟩
  exact hs

theorem computes_node (S : Scene ω) (hn : n.OfLiterals) (hm : Marks true n) (h : Nat) :
    Emits bare (node n) h (h + 1) (S.Computes n.compute) := by
  induction hn generalizing h with
  | null pos r =>
    cases hm.1
    exact computes_line (computes_push S.emits_null)
  | bool pos r b =>
    cases hm.1
    exact computes_line (computes_push (S.emits_bool b))
  | int pos r i =>
    cases hm.1
    exact computes_line (computes_push (S.emits_int i))
  | float pos r d =>
    cases hm.1
    exact computes_line (computes_push (S.emits_float d))
  | str pos r t =>
    cases hm.1
    exact computes_line (computes_push (S.emits_str t))
  | @not pos r x hx ih =>
    obtain ⟨rfl, hm⟩ := hm
    exact computes_line (computes_unary x.isData_compute (ih hm h) S.turns_not)
  | @prefixOp pos r op x hx ih =>
    obtain ⟨rfl, hm⟩ := hm
    exact computes_line (computes_unary x.isData_compute (ih hm h) (S.turns_prefixOp op.symbol))
  | @infixOp pos r op x y hx hy ihx ihy =>
    obtain ⟨rfl, hmx, hmy⟩ := hm
    have hbinary :=
      fun {o f} => computes_binary (o := o) (f := f) x.isData_compute y.isData_compute (ihx hmx h)
      (ihy hmy (h + 1))
    cases op with
    | equal => exact computes_line (hbinary S.joins_eq)
    | notEqual => exact computes_line (hbinary S.joins_neq)
    | operator o => exact computes_line (hbinary (S.joins_infixOp o))

end Scene
end Code

/-- The function is still the same, and has got at most `k` further constants and values on its
stack. If its constants can all be told apart in an instruction, no instruction is too large. -/
structure Builder.GrowsBy (k : Nat) (b c : Builder) : Prop where
  name : c.name = b.name
  maxLocals : c.maxLocals = b.maxLocals
  constants : c.constants.size ≤ b.constants.size + k
  height : c.height ≤ b.height + k
  maxHeight : c.maxHeight ≤ max b.maxHeight (b.height + k)
  fits : b.constants.size + k ≤ 16777216 → b.oversized = false → c.oversized = false

namespace Builder.GrowsBy

variable {b c d : Builder}

theorem refl (b : Builder) : GrowsBy 0 b b :=
  ⟨rfl, rfl, Nat.le_refl _, Nat.le_refl _, Nat.le_max_left _ _, fun _ h => h⟩

theorem trans (h : GrowsBy j b c) (h' : GrowsBy k c d) : GrowsBy (j + k) b d := by
  obtain ⟨hname, hlocals, hcount, hheight, hmax, hfits⟩ := h
  obtain ⟨hname', hlocals', hcount', hheight', hmax', hfits'⟩ := h'
  refine ⟨hname'.trans hname, hlocals'.trans hlocals, ?_, ?_, ?_, fun hroom hb => ?_⟩
  · omega
  · omega
  · omega
  · exact hfits' (by omega) (hfits (by omega) hb)

theorem mono (h : GrowsBy j b c) (hjk : j ≤ k) : GrowsBy k b c := by
  obtain ⟨hname, hlocals, hcount, hheight, hmax, hfits⟩ := h
  refine ⟨hname, hlocals, ?_, ?_, ?_, fun hroom => hfits (by omega)⟩
  · omega
  · omega
  · omega

theorem emitted {i : Insn} (hheight : popped ≤ b.height) (hk : pushed ≤ popped + k)
    (hi : i.fits = true) : GrowsBy k b (b.emitted popped pushed i) := by
  refine ⟨rfl, rfl, Nat.le_add_right _ _, ?_, ?_, fun _ hb => ?_⟩
  · show b.height - popped + pushed ≤ b.height + k
    omega
  · show max b.maxHeight (b.height - popped + pushed) ≤ max b.maxHeight (b.height + k)
    omega
  · show (b.oversized || !i.fits) = false
    rw [hb, hi]
    rfl

end Builder.GrowsBy

namespace Lower

/-- The step reports nothing, and the function grows by at most `k`. -/
def Silent {α : Type} (k : Nat) (x : LowerM α) : Prop :=
  ∀ s a t, x s = .ok a t → t.diagnostics = s.diagnostics ∧ s.builder.GrowsBy k t.builder

section Silent

variable {α β : Type}

theorem silent_pure (a : α) : Silent 0 (pure a) := by
  intro s a t h
  cases h
  exact ⟨rfl, .refl _⟩

theorem Silent.bind {x : LowerM α} {f : α → LowerM β} (hx : Silent j x) (hf : ∀ a, Silent k (f a)) :
    Silent (j + k) (x >>= f) := by
  intro s b u h
  simp only [Bind.bind, EStateM.bind] at h
  split at h
  · rename_i a t ht
    obtain ⟨hreports, hgrows⟩ := hx s a t ht
    obtain ⟨hreports', hgrows'⟩ := hf a t b u h
    exact ⟨hreports'.trans hreports, hgrows.trans hgrows'⟩
  · cases h

theorem Silent.seq {y : LowerM α} (hx : Silent j x) (hy : Silent k y) : Silent (j + k) (do x; y) :=
  hx.bind fun _ => hy

theorem Silent.mono {x : LowerM α} (hx : Silent j x) (h : j ≤ k) : Silent k x :=
  fun s a t ht => ⟨(hx s a t ht).1, (hx s a t ht).2.mono h⟩

theorem silent_build {x : Build α} (hx : ∀ b a c, x b = .ok a c → Builder.GrowsBy k b c) :
    Silent k (build x) := by
  intro s a t h
  simp only [build] at h
  split at h
  · rename_i a' b hb
    cases h
    exact ⟨rfl, hx _ _ _ hb⟩
  · cases h

theorem silent_setLine (line : Nat) : Silent 0 (build (.setLine line)) := by
  refine silent_build fun b a c h => ?_
  cases h
  exact { Builder.GrowsBy.refl b with }

theorem emitUnit_ok {i : Insn} {b c : Builder} {a : Unit}
    (h : Build.emitUnit popped pushed i b = .ok a c) :
    popped ≤ b.height ∧ c = b.emitted popped pushed i := by
  by_cases hheight : popped ≤ b.height
  · rw [emitUnit_run hheight] at h
    cases h
    exact ⟨hheight, rfl⟩
  · have hshrink : Build.shrink popped b = .error (.heightBelowZero b.displayName) b := by
      show (if b.height < popped then throw (.heightBelowZero b.displayName)
        else set { b with height := b.height - popped } : Build Unit) b = _
      rw [if_pos (Nat.lt_of_not_le hheight)]
      rfl
    simp only [Build.emitUnit, Build.emit, bind, EStateM.bind, hshrink] at h
    cases h

theorem silent_emitUnit {i : Insn} (hi : i.fits = true) (hk : pushed ≤ popped + k) :
    Silent k (build (.emitUnit popped pushed i)) := by
  refine silent_build fun b a c h => ?_
  obtain ⟨hheight, rfl⟩ := emitUnit_ok h
  exact .emitted hheight hk hi

theorem silent_pooled {c : Constant} {f : Nat → Insn} (hf : ∀ i, i < 16777216 → (f i).fits = true)
    (hpushed : pushed ≤ popped + 1) :
    Silent 1 (build (do Build.emitUnit popped pushed (f (← Build.constant c)))) := by
  refine silent_build fun b a b' h => ?_
  have h : Build.emitUnit popped pushed (f (b.addConstant c).1) (b.addConstant c).2 = .ok a b' := h
  obtain ⟨hheight, rfl⟩ := emitUnit_ok h
  have hlow : popped ≤ b.height := by
    refine Nat.le_trans hheight (Nat.le_of_eq ?_)
    unfold Builder.addConstant
    split <;> rfl
  have hafter : b.height - popped + pushed ≤ b.height + 1 := by omega
  have hmax : max b.maxHeight (b.height - popped + pushed) ≤ max b.maxHeight (b.height + 1) := by
    omega
  unfold Builder.addConstant
  split
  · rename_i i hi
    have hlt := (Array.findIdx?_eq_some_iff_getElem.1 hi).1
    refine ⟨rfl, rfl, Nat.le_add_right _ _, hafter, hmax, fun hroom hb => ?_⟩
    show (b.oversized || !(f i).fits) = false
    rw [hb, hf i (by omega)]
    rfl
  · refine ⟨rfl, rfl, Nat.le_of_eq (Array.size_push _), hafter, hmax, fun hroom hb => ?_⟩
    show (b.oversized || !(f b.constants.size).fits) = false
    rw [hb, hf b.constants.size (by omega)]
    rfl

theorem silent_named {op : Opcode} {name : String} (hop : op.layout = .wide)
    (hpushed : pushed ≤ popped + 1) :
    Silent 1 (build (.named popped pushed op name)) := by
  refine silent_pooled (fun i hi => ?_) hpushed
  have hlayout : (Insn.wide op i).op.layout = .wide := hop
  simp only [Insn.fits, hlayout]
  exact decide_eq_true hi

theorem silent_discard (r : Bool) : Silent 0 (discard r) := by
  cases r with
  | true => exact silent_pure ()
  | false => exact silent_emitUnit rfl (Nat.zero_le _)

theorem silent_whenRequired {x : Build Unit} (r : Bool) (hx : Silent k (build x)) :
    Silent k (whenRequired r x) := by
  cases r with
  | true => exact hx
  | false => exact (silent_pure ()).mono (Nat.zero_le _)

theorem silent_int (i : Int64) : Silent 1 (build (.int i)) := by
  unfold Build.int
  split
  · exact silent_emitUnit rfl (Nat.le_refl _)
  · exact silent_pooled (fun i hi => decide_eq_true hi) (Nat.le_refl _)

theorem silent_float (d : Double) : Silent 1 (build (.float d)) := by
  unfold Build.float
  split
  · exact silent_emitUnit rfl (Nat.le_refl _)
  · exact silent_pooled (fun i hi => decide_eq_true hi) (Nat.le_refl _)

theorem silent_line {line : Nat} {x : LowerM α} (hx : Silent k x) :
    Silent k (do build (.setLine line); x) :=
  ((silent_setLine line).seq hx).mono (Nat.le_of_eq (Nat.zero_add k))

theorem Silent.discarding (hx : Silent k x) (r : Bool) : Silent k (do x; discard r) :=
  hx.seq (silent_discard r)

theorem silent_node (hn : n.OfLiterals) : Silent n.weight (node n) := by
  induction hn with
  | null pos r => exact silent_line (silent_whenRequired r (silent_emitUnit rfl (Nat.le_refl _)))
  | bool pos r b =>
    refine silent_line (silent_whenRequired r (silent_emitUnit ?_ (Nat.le_refl _)))
    cases b <;> rfl
  | int pos r i => exact silent_line (silent_whenRequired r (silent_int i))
  | float pos r d => exact silent_line (silent_whenRequired r (silent_float d))
  | str pos r t => exact silent_line (silent_whenRequired r (silent_named rfl (Nat.le_refl _)))
  | not pos r hx ih =>
    exact silent_line (ih.seq ((silent_emitUnit rfl (Nat.le_succ _)).discarding r))
  | prefixOp pos r op hx ih =>
    exact silent_line (ih.seq ((silent_named rfl (Nat.le_succ _)).discarding r))
  | infixOp pos r op hx hy ihx ihy =>
    refine silent_line ((ihx.seq (ihy.seq ?_)).mono (Nat.le_of_eq (Nat.add_assoc _ _ 1).symm))
    cases op with
    | equal | notEqual => exact (silent_emitUnit rfl (by decide)).discarding r
    | operator o => exact (silent_named rfl (by decide)).discarding r

theorem Silent.quiet {x : LowerM α} (hx : Silent k x) : Quiet x := by
  intro s a t h r hr
  rw [(hx s a t h).1] at hr
  exact .inl hr

/-- A program without reports has none when it is finished, unless a constant has no place in an
instruction. -/
theorem Silent.leave {pos : Position} {s : State} (hx : Silent k x) (hk : k ≤ 16777216)
    (h : (do x; leave pos : LowerM Prototype) .start = .ok p s) : s.diagnostics = [] := by
  simp only [Bind.bind, EStateM.bind] at h
  split at h
  · rename_i a t ht
    obtain ⟨hreports, hgrows⟩ := hx _ a t ht
    have hroom : State.start.builder.constants.size + k ≤ 16777216 :=
      Nat.le_trans (Nat.le_of_eq (Nat.zero_add k)) hk
    have hfits : t.builder.oversized = false := hgrows.fits hroom rfl
    have hcheck : checkSize pos t = .ok () t := by
      show (if t.builder.oversized then report pos (.tooLarge t.builder.displayName)
        else pure () : LowerM Unit) t = _
      rw [hfits]
      rfl
    simp only [Lower.leave, Bind.bind, EStateM.bind, hcheck] at h
    obtain ⟨b, enclosing, ds⟩ := t
    have hds : ds = [] := hreports
    cases enclosing with
    | nil | cons parent rest =>
      cases h
      exact hds
  · cases h

end Silent
end Lower

section Program

variable {ω : Type}

/-- The store in which the code of a program starts. -/
def Machine.begun (m : Machine) (p : Prototype) : Store :=
  ((m.store.addClosure ⟨p, #[]⟩).2.addActivation (Array.replicate p.slots .null)).2

/-- What running the code of a program comes to that computes `x`. -/
def Machine.computing (m : Machine) (p : Prototype) (x : Action Value) :
    EStateM.Result Fault Store Value :=
  if m.limit ≤ m.depth then .error (.callDepthExceeded m.limit) (m.store.addClosure ⟨p, #[]⟩).2
    else x (m.begun p)

/-- A call of the code of a tree can be laid out, because its stack is no larger than the tree. -/
theorem startable_ofLiterals {b : State} (hn : n.OfLiterals) (hweight : n.weight ≤ Value.capacity)
    (hrun : nodes [n] .start = .ok () b) (hp : p.PackedFrom b.builder) (hparams : p.params = 0)
    (hvariadic : p.variadic = false) : p.startable = true := by
  have hsilent : Silent n.weight (nodes [n]) := (silent_node hn).seq (silent_pure ())
  obtain ⟨_, hgrows⟩ := hsilent _ _ _ hrun
  have hlocals : p.maxLocals = 0 := by
    rw [hp.1]
    exact hgrows.maxLocals
  have hstack : p.maxStack ≤ n.weight := by
    rw [hp.1]
    refine Nat.le_trans hgrows.maxHeight ?_
    show max 0 (0 + n.weight) ≤ n.weight
    omega
  have hslots : p.slots = 0 := by rw [Prototype.slots, hlocals, hparams, Nat.max_self]
  rw [Prototype.startable, hslots, hvariadic, decide_eq_true (Nat.zero_le _),
    decide_eq_true (Nat.le_trans hstack hweight)]
  rfl

theorem Machine.settles_computing (t : Terminal (StateM ω)) (host : Host) {m : Machine} {b : State}
    (hn : n.OfLiterals) (hm : Marks true n) (hrun : nodes [n] .start = .ok () b)
    (hp : p.PackedFrom b.builder) (houters : p.outers = []) (hweight : n.weight ≤ Value.capacity)
    (hidle : m.frames = []) (w : ω) :
    (m.scene t host 0 p).Settles (m.runPrototype p [], w) (m.computing p n.compute) fun v s =>
      (m.scene t host 0 p).finished v (s, w) := by
  have hemits : Emits bare (nodes [n]) 0 1 ((m.scene t host 0 p).Computes n.compute) := by
    refine ((Scene.computes_node (m.scene t host 0 p) hn hm 0).seq emits_pure).imp ?_
    rintro P i j ⟨_, hs, rfl⟩
    exact hs
  obtain ⟨hcomputes, hparams, hvariadic⟩ := code_of_emits hemits hrun hp
  have hmove := after_runPrototype (m := m) t host houters hidle w
  have hfit := startable_ofLiterals hn hweight hrun hp hparams hvariadic
  rw [start_program (p := p) hparams hvariadic, hfit, Bool.not_true] at hmove
  unfold computing
  split
  · rename_i hdeep
    rw [if_pos hdeep] at hmove
    exact ⟨1, ⟨_, [], none, m.depth, m.limit⟩, hmove⟩
  · rename_i hdeep
    rw [if_neg hdeep, if_neg Bool.false_ne_true] at hmove
    have hcode := hcomputes rfl [] (m.begun p) w
    unfold Scene.Settles at hcode ⊢
    split
    · rename_i v s hv
      rw [hv] at hcode
      obtain ⟨k, hk⟩ := hcode
      have hend := Scene.after_trans hk (Scene.after_end [v] (s, w))
      exact ⟨_, Scene.after_trans (S := m.scene t host 0 p) hmove hend⟩
    · rename_i f s hf
      rw [hf] at hcode
      obtain ⟨k, m', hk⟩ := hcode
      exact ⟨_, m', Scene.after_trans (S := m.scene t host 0 p) hmove hk⟩

/-- The code of such a program is there, and the only thing to report about it is its size, if it is
very large. -/
theorem lower_ofLiterals (hn : n.OfLiterals) (hm : Marks true n) :
    ∃ l, lower [n] = .ok l ∧ (∀ d ∈ l.diagnostics, ∃ name, d.problem = .tooLarge name) ∧
      (n.weight ≤ 16777216 → l.diagnostics = []) ∧
      (l.diagnostics = [] → l.prototype.outers = [] ∧ l.prototype.name = some "script" ∧
        ∃ b, nodes [n] .start = .ok () b ∧ l.prototype.PackedFrom b.builder) := by
  have hsilent : Silent n.weight (nodes [n]) := (silent_node hn).seq (silent_pure ())
  have hblock : MarksBlock true [n] := ⟨hm, trivial⟩
  obtain ⟨p, s, hrun, houters, hgood⟩ := yields_program hblock
  refine ⟨⟨p, s.diagnostics⟩, ?_, fun d hd => ?_, fun hsmall => ?_, fun hnone => ⟨houters, ?_⟩⟩
  · rw [lower, EStateM.run, hrun]
  · exact ((hsilent.quiet.seq (quiet_leave _)) _ _ _ hrun d hd).resolve_left List.not_mem_nil
  · exact hsilent.leave hsmall hrun
  · have hfit : SizesFit s.diagnostics := by
      intro d hd
      rw [show s.diagnostics = [] from hnone] at hd
      cases hd
    obtain ⟨_, b, hnodes, hpacked⟩ := hgood hfit
    refine ⟨?_, b, hnodes, hpacked⟩
    rw [hpacked.1]
    exact (hsilent _ _ _ hnodes).2.name

theorem Store.blurs_alike : Store.Blurs Store.Alike where
  alike h := h
  addList items h := { h with lists := congrArg (Array.push · items) h.lists }

theorem Store.cellValue_addActivation (s : Store) (count : Nat) (c : CellId) :
    (s.addActivation (Array.replicate count .null)).2.cellValue c = s.cellValue c := by
  have hcell : (s.addActivation (Array.replicate count .null)).2.cell c = s.cell c := rfl
  rw [cellValue, cellValue, hcell]
  split
  · rename_i a i _
    show ((s.activations.push (Array.replicate count .null)).getD a #[]).getD i .null =
      (s.activations.getD a #[]).getD i .null
    simp only [Array.getD_eq_getD_getElem?, Array.getElem?_push]
    split
    · rename_i ha
      subst ha
      rw [Array.getElem?_eq_none (Nat.le_refl s.activations.size)]
      simp only [Option.getD_some, Array.getElem?_replicate]
      split <;> rfl
    · rfl
  · rfl

theorem Machine.alike_begun (m : Machine) {p' : Prototype}
    (hname : p'.displayName = p.displayName) : (m.begun p).Alike (m.begun p') := by
  refine ⟨rfl, rfl, rfl, rfl, rfl, rfl, rfl, rfl, fun c => ?_, fun id => ?_⟩
  · exact (Store.cellValue_addActivation _ _ c).trans (Store.cellValue_addActivation _ _ c).symm
  · show ((m.store.closures.push ⟨p', #[]⟩).getD id default).prototype.displayName =
      ((m.store.closures.push ⟨p, #[]⟩).getD id default).prototype.displayName
    simp only [Array.getD_eq_getD_getElem?, Array.getElem?_push]
    split
    · exact hname
    · rfl

/-- What a run has come to: a value with the lists that it may be made of, or a fault. That the
machine cannot go on counts as a fault of its own. -/
def Outcome.answer? : Outcome → Option (Except Fault (Value × Array (Array Value)))
  | returned v m => some (.ok (v, m.store.lists))
  | failed e _ => some (.error e.fault)
  | stuck _ => some (.error .capacityOverflow)
  | running _ | waiting _ _ => none

theorem Machine.answer?_raise (m : Machine) (f : Fault) :
    (m.raise f).answer? = some (.error f) := by
  unfold raise
  split <;> rfl

theorem Machine.ended_raise (m : Machine) (f : Fault) : (m.raise f).ended = true :=
  m.raise_cases (P := fun o => o.ended = true) f rfl rfl

/-- The answer of a run that comes to the given result. -/
def answerOf : EStateM.Result Fault Store Value → Except Fault (Value × Array (Array Value))
  | .ok v s => .ok (v, s.lists)
  | .error f _ => .error f

theorem Scene.Settles.answer {S : Scene ω} {o : Outcome} {w : ω}
    {r : EStateM.Result Fault Store Value} (h : S.Settles (o, w) r fun v s => S.finished v (s, w)) :
    ∃ k o', (Machine.drive S.terminal S.host false k o).run w = (o', w) ∧
      o'.answer? = some (answerOf r) := by
  cases r with
  | ok v s =>
    obtain ⟨n, hn⟩ := (Outcome.exists_drive_iff o w rfl).2 h
    exact ⟨n, _, hn, rfl⟩
  | error f s =>
    obtain ⟨k, m, hk⟩ := h
    obtain ⟨n, hn⟩ := (Outcome.exists_drive_iff o w (m.ended_raise f)).2 ⟨k, hk⟩
    exact ⟨n, _, hn, m.answer?_raise f⟩

theorem Machine.answerOf_computing (m : Machine) {p' : Prototype}
    (hname : p'.displayName = p.displayName) (hn : n.OfLiterals) :
    answerOf (m.computing p' n.compute) = answerOf (m.computing p n.compute) := by
  unfold computing
  split
  · rfl
  · have hsame := hn.respects Store.blurs_alike _ _ (m.alike_begun hname)
    unfold Action.Ensures at hsame
    split at hsame
    · rename_i v s hv
      obtain ⟨t, ht, halike⟩ := hsame
      rw [hv, ht]
      exact congrArg (fun lists => Except.ok (v, lists)) halike.lists
    · rename_i f s hf
      obtain ⟨t, ht, _⟩ := hsame
      rw [hf, ht]
      rfl

/-- Folding the operators of a tree of literals, or not folding them, makes no difference to what
the program comes to. Both programs have code unless it is too large, which takes a tree with more
parts than an operand can tell apart. Both runs then end, on every idle machine and against every
terminal and host, if the tree has no more parts than there can be values side by side, which holds
of every tree in memory. They give the same value, bit by bit, or the same fault, and leave the
world alone. -/
theorem folding_keeps_answer {n : Node} (hn : n.OfLiterals) :
    ∃ l l', lower (Normalize.program ⟨false, false⟩ [n]).value = .ok l ∧
      lower (normalize [n]).value = .ok l' ∧
      (∀ d ∈ l.diagnostics ++ l'.diagnostics, ∃ name, d.problem = .tooLarge name) ∧
      (n.weight ≤ 16777216 → l.diagnostics = [] ∧ l'.diagnostics = []) ∧
      (l.diagnostics = [] → l'.diagnostics = [] → n.weight ≤ Value.capacity →
        ∀ {ω : Type} (t : Terminal (StateM ω)) (host : Host) (m : Machine) (w : ω), m.frames = [] →
          ∃ k k' o o' r,
            (Machine.drive t host false k (m.runPrototype l.prototype [])).run w = (o, w) ∧
            (Machine.drive t host false k' (m.runPrototype l'.prototype [])).run w = (o', w) ∧
            o.answer? = some r ∧ o'.answer? = some r) := by
  have hmarks : ∀ rules, Marks true (Normalize.node rules true n).value :=
    fun rules => marks_node rules true n
  obtain ⟨hplain, hvalue, hweight⟩ := Normalize.node_abridges ⟨false, false⟩ true hn
  obtain ⟨hfolded, hvalue', hweight'⟩ := Normalize.node_abridges ⟨true, true⟩ true hn
  obtain ⟨l, hl, hquiet, hsmall, hcode⟩ := lower_ofLiterals hplain (hmarks _)
  obtain ⟨l', hl', hquiet', hsmall', hcode'⟩ := lower_ofLiterals hfolded (hmarks _)
  refine ⟨l, l', hl, hl', fun d hd => (List.mem_append.1 hd).elim (hquiet d) (hquiet' d),
    fun h => ?_, ?_⟩
  · exact ⟨hsmall (Nat.le_trans hweight h), hsmall' (Nat.le_trans hweight' h)⟩
  intro hnone hnone' hroom ω t host m w hidle
  obtain ⟨houters, hname, b, hrun, hp⟩ := hcode hnone
  obtain ⟨houters', hname', b', hrun', hp'⟩ := hcode' hnone'
  have hsettles := Machine.settles_computing t host hplain (hmarks _) hrun hp houters
    (Nat.le_trans hweight hroom) hidle w
  have hsettles' := Machine.settles_computing t host hfolded (hmarks _) hrun' hp' houters'
    (Nat.le_trans hweight' hroom) hidle w
  obtain ⟨k, o, hk, ho⟩ := hsettles.answer
  obtain ⟨k', o', hk', ho'⟩ := hsettles'.answer
  have hdisplay : l'.prototype.displayName = l.prototype.displayName := by
    rw [Prototype.displayName, Prototype.displayName, hname, hname']
  refine ⟨k, k', o, o', _, hk, hk', ho, ho'.trans ?_⟩
  rw [hvalue, hvalue', m.answerOf_computing hdisplay hn]

/-- An addition that does not fit a whole number, beside a product that does. -/
def Node.overflowing : Node :=
  ⟨⟨1, 1⟩, false, .infixOp (.operator .minus)
    ⟨⟨1, 2⟩, false, .infixOp (.operator .plus) ⟨⟨1, 2⟩, false, .int 9223372036854775807⟩
      ⟨⟨1, 24⟩, false, .int 1⟩⟩
    ⟨⟨1, 29⟩, false, .infixOp (.operator .star) ⟨⟨1, 29⟩, false, .int 2⟩ ⟨⟨1, 33⟩, false, .int 3⟩⟩⟩

/-- Only the product is folded, and the programs come to the same. -/
theorem folding_keeps_answer_overflowing :
    Node.overflowing.OfLiterals ∧ (Normalize.node ⟨true, true⟩ true .overflowing).value.weight = 5 ∧
    ∃ l l', lower (Normalize.program ⟨false, false⟩ [.overflowing]).value = .ok l ∧
      lower (normalize [.overflowing]).value = .ok l' ∧
      ∃ k k' o o' r, (Machine.drive Recording.terminal noHost false k
          (Machine.fresh.runPrototype l.prototype [])).run .blank = (o, .blank) ∧
        (Machine.drive Recording.terminal noHost false k'
          (Machine.fresh.runPrototype l'.prototype [])).run .blank =
          (o', .blank) ∧ o.answer? = some r ∧ o'.answer? = some r := by
  have hliterals : Node.overflowing.OfLiterals :=
    .infixOp _ _ _ (.infixOp _ _ _ (.int _ _ _) (.int _ _ _))
      (.infixOp _ _ _ (.int _ _ _) (.int _ _ _))
  obtain ⟨l, l', hl, hl', _, hsmall, hruns⟩ := folding_keeps_answer hliterals
  obtain ⟨hnone, hnone'⟩ := hsmall (by decide)
  exact ⟨hliterals, by decide, l, l', hl, hl',
    hruns hnone hnone' (by decide) Recording.terminal noHost .fresh .blank rfl⟩

end Program

end Refscript
