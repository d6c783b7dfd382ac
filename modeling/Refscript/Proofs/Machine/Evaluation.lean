import Refscript.Proofs.Code.Balance
import Refscript.Proofs.Machine.Cells
import Refscript.Proofs.Machine.Lifting
import Refscript.Proofs.Machine.World

/-!
# Refscript.Proofs.Machine.Evaluation

The code of an expression works on top of the stack: whatever is below when a call comes to it is
there when the call leaves it, and makes no difference in between.

* `Frame.Amid.operation`: an instruction of a piece of code finds its operands among the values of
  the piece.
* `Outcome.evaluating_move`: two runs that differ in the values below the code of an expression take
  the same moves until the call is done with the code, or with itself.
* `Outcome.Evaluating.stands`: a call that is done with the code has its values above those that
  were there before.
-/

namespace Refscript

open StackCheck

/-- A piece of code with the heights that it has on every path, above what is on the stack below. -/
structure Prototype.Piece (P : Prototype) where
  start : Nat
  stop : Nat
  height : Nat → Nat
  steady : ∀ k, start ≤ k → k < stop → ∃ targets, Steady P k (height k) targets ∧
    ∀ t ∈ targets, start ≤ t.1 ∧ t.1 ≤ stop ∧ t.2 = height t.1

theorem Lower.Balanced.piece {h h' : Nat} {P : Prototype} {i j : Nat}
    (hcode : Lower.Balanced h h' P i j) :
    ∃ K : P.Piece, K.start = i ∧ K.stop = j ∧ K.height i = h ∧ K.height j = h' := by
  obtain ⟨_, _, H, _, hends, hsteady⟩ := hcode
  refine ⟨⟨i, j, H, fun k hi hj => ?_⟩, rfl, rfl, ?_, ?_⟩
  · obtain ⟨targets, hstep, hall⟩ := hsteady k hi hj
    refine ⟨targets, hstep, fun t ht => ?_⟩
    rcases hall t ht with ⟨x, hx, _⟩ | hinside
    · cases hx
    · exact hinside
  · exact (hends (i, h) (by simp)).2.2.symm
  · exact (hends (j, h') (by simp)).2.2.symm

/-- The call is in the piece of code, and on its stack are as many values as the piece has there,
but for `n` results that it waits for. -/
structure Frame.Amid {P : Prototype} (K : P.Piece) (A : ActivationId) (n : Nat) (f : Frame) :
    Prop where
  prototype : f.prototype = P
  activation : f.activation = A
  start : K.start ≤ f.ip
  stop : f.ip ≤ K.stop
  height : f.stack.length + n = K.height f.ip

/-- The call has no instruction left. -/
structure Frame.Done (P : Prototype) (A : ActivationId) (f : Frame) : Prop where
  prototype : f.prototype = P
  activation : f.activation = A
  ip : P.code.size ≤ f.ip

variable {P : Prototype} {K : P.Piece} {A : ActivationId}

/-- How a call that was in the piece of code goes on after an instruction. -/
def Effect.Amid (K : P.Piece) (A : ActivationId) (op : Opcode) : Effect → Prop
  | .next g => if op = .ret then g.Done P A else g.Amid K A 0
  | .call _ g => op ≠ .ret ∧ g.Amid K A 1

namespace Frame

theorem Amid.push {f : Frame} (h : f.Amid K A 1) (v : Value) : (f.push v).Amid K A 0 :=
  ⟨h.prototype, h.activation, h.start, h.stop, h.height⟩

/-- In the piece of code, there is an instruction, which finds its operands among the values of the
piece and leads to the piece or out of the call. -/
theorem Amid.operation {f : Frame} (h : f.Amid K A 0) (hlt : f.ip < K.stop) (s : Store) :
    ∃ w op popped pushed, f.prototype.code[f.ip]? = some w ∧ w.op? = some op ∧
      effect? op w = some (popped, pushed) ∧ popped ≤ f.stack.length ∧
      Action.Ensures (Exec.operation { f with ip := f.ip + 1 } w op) s
        (fun eff _ => eff.Amid K A op) fun _ _ => True := by
  obtain ⟨targets, ⟨insn, popped, pushed, hhas, heff, hpop, _, hnext⟩, hall⟩ :=
    K.steady f.ip h.start hlt
  have hlength : f.stack.length = K.height f.ip := h.height
  have hproto := h.prototype
  rw [← hlength] at hpop hnext
  refine ⟨insn.pack, insn.op, popped,
    pushed, by rw [hproto]; exact hhas.word, insn.op?_pack, heff, hpop, ?_⟩
  refine (Exec.operation_ensures (f := { f with ip := f.ip + 1 }) (s := s) (w := insn.pack)
    insn.op rfl).imp ?_ fun _ _ _ => trivial
  rintro eff t ⟨hmoves, _⟩
  -- the places that the instruction leads to are those of the piece
  have hthere : ∀ {g : Frame} {n popped' pushed' : Nat} {targets' : List (Nat × Nat)},
    f.SameCall g → effect? insn.op insn.pack = some (popped', pushed') →
      successors? f.prototype insn.op insn.pack f.ip (f.stack.length - popped' + pushed') =
        some targets' →
      (g.ip, g.stack.length + n) ∈ targets' → g.Amid K A n := by
    intro g n popped' pushed' targets' hsame heff' hnext' hmem
    cases heff.symm.trans heff'
    rw [hproto] at hnext'
    cases hnext.symm.trans hnext'
    obtain ⟨hstart, hstop, hheight⟩ := hall _ hmem
    exact ⟨(congrArg Closure.prototype hsame.closure).trans hproto,
      hsame.activation.trans h.activation, hstart, hstop, hheight⟩
  have hleads : ∀ {targets' : List (Nat × Nat)} {t : Nat × Nat} {height : Nat},
      successors? f.prototype insn.op insn.pack f.ip height = some targets' → t ∈ targets' →
        insn.op ≠ .ret := by
    intro targets' t height hnext' hmem hret
    rw [hret] at hnext'
    cases hnext'
    cases hmem
  cases hmoves with
  | @next g _ _ _ hsame heff' _ hnext' hmem =>
    rw [Effect.Amid, if_neg (hleads hnext' hmem)]
    exact hthere ⟨hsame.1, hsame.2, hsame.3, hsame.4⟩ heff' hnext' hmem
  | call hsame heff' _ hnext' hmem =>
    exact ⟨hleads hnext' hmem, hthere ⟨hsame.1, hsame.2, hsame.3, hsame.4⟩ heff' hnext' hmem⟩
  | @ret g hsame hret _ hip _ =>
    rw [Effect.Amid, if_pos hret]
    refine ⟨(congrArg Closure.prototype hsame.closure).trans hproto,
      hsame.activation.trans h.activation, ?_⟩
    rw [hip, ← hproto]
    exact Nat.le_refl _

end Frame

theorem Exec.Ties.begun {f g : Frame} {s t : Store} {w : Word} {op : Opcode}
    (h : Exec.Ties f s w op g t) (hA : A < s.activations.size) : A < t.activations.size := by
  cases h with
  | still _ ht => exact (ht.slots A hA).1
  | takes _ htakes _ => rwa [htakes.activations]
  | closes _ _ ht => rwa [ht, f.closeFrom_activations]

theorem kept_begun (A : ActivationId) : Kept fun s _ => A < s.activations.size where
  still h ht := (ht.slots A h).1
  push _ h := h
  start h ht _ _ _ := (ht.slots A h).1
  execute h hruns := hruns.ties.begun h
  pop h := by rwa [Frame.closeFrom_activations]

/-- The call has ended: its slots are in the store, but it is none of those in progress. -/
structure Gone (A : ActivationId) (s : Store) (fs : List Frame) : Prop where
  begun : A < s.activations.size
  ended : ∀ f ∈ fs, f.activation ≠ A

theorem kept_gone (A : ActivationId) : Kept (Gone A) where
  still h ht := ⟨(ht.slots A h.begun).1, h.ended⟩
  push _ h := ⟨h.begun, List.forall_mem_cons.2 (List.forall_mem_cons.1 h.ended)⟩
  start h ht ha _ _ :=
    ⟨(ht.slots A h.begun).1, List.forall_mem_cons.2 ⟨Nat.ne_of_gt (ha ▸ h.begun), h.ended⟩⟩
  execute h hruns := by
    obtain ⟨hf, hrest⟩ := List.forall_mem_cons.1 h.ended
    refine ⟨hruns.ties.begun h.begun, List.forall_mem_cons.2 ⟨fun heq => hf ?_, hrest⟩⟩
    exact hruns.moves.sameCall.activation ▸ heq
  pop h := ⟨by rw [Frame.closeFrom_activations]; exact h.begun, (List.forall_mem_cons.1 h.ended).2⟩

namespace Outcome

/-- The two are the same, but for the values at the bottom of the stack of the call that has
`around` around it. The call is in the piece of code, or it has ended and the two are the same
altogether. -/
inductive Evaluating (K : P.Piece) (A : ActivationId) (around : List Frame)
    (base base' : List Value) : Outcome → Outcome → Prop where
  | on {s : Store} {f : Frame} {depth limit : Nat} : f.Amid K A 0 →
      Evaluating K A around base base' (running ⟨s, f.onto base :: around, none, depth, limit⟩)
        (running ⟨s, f.onto base' :: around, none, depth, limit⟩)
  | calling {s : Store} (above : List Frame) {f : Frame} {pending : Option Call}
      {depth limit : Nat} : f.Amid K A 1 → (pending = none → above ≠ []) →
      Evaluating K A around base base'
        (running ⟨s, above ++ f.onto base :: around, pending, depth, limit⟩)
        (running ⟨s, above ++ f.onto base' :: around, pending, depth, limit⟩)
  | waiting {r : Request} {s : Store} {above : List Frame} {f : Frame} {depth limit : Nat} :
      f.Amid K A 1 → Evaluating K A around base base'
        (waiting r ⟨s, above ++ f.onto base :: around, none, depth, limit⟩)
        (waiting r ⟨s, above ++ f.onto base' :: around, none, depth, limit⟩)
  | stuck {s : Store} {above : List Frame} {f : Frame} {pending : Option Call} {depth limit : Nat} :
      f.Amid K A 1 → Evaluating K A around base base'
        (stuck ⟨s, above ++ f.onto base :: around, pending, depth, limit⟩)
        (stuck ⟨s, above ++ f.onto base' :: around, pending, depth, limit⟩)
  | ending {s : Store} {f : Frame} {depth limit : Nat} : f.Done P A →
      Evaluating K A around base base' (running ⟨s, f :: around, none, depth, limit⟩)
        (running ⟨s, f :: around, none, depth, limit⟩)
  | ended {o : Outcome} : (∀ f ∈ o.machine.frames, f.activation ≠ A) →
      Evaluating K A around base base' o o

variable {around above : List Frame} {base base' : List Value} {f : Frame} {s : Store}
  {pending : Option Call} {depth limit : Nat}

theorem unwind_onto (base base' : List Value) (above : List Frame) (s : Store) (depth : Nat) :
    (⟨s, above ++ f.onto base :: around, pending, depth, limit⟩ : Machine).unwind =
      (⟨s, above ++ f.onto base' :: around, pending, depth, limit⟩ : Machine).unwind := by
  induction above generalizing s depth with
  | nil => rfl
  | cons g above ih => exact ih (g.closeFrom 0 s).2 (depth - 1)

theorem evaluating_raise (above : List Frame) (e : Fault) :
    Evaluating K A around base base'
      (Machine.raise ⟨s, above ++ f.onto base :: around, pending, depth, limit⟩ e)
      (Machine.raise ⟨s, above ++ f.onto base' :: around, pending, depth, limit⟩ e) := by
  have hline : (above ++ f.onto base :: around).head?.map Frame.line =
      (above ++ f.onto base' :: around).head?.map Frame.line := by
    cases above <;> rfl
  have heq : Machine.raise ⟨s, above ++ f.onto base :: around, pending, depth, limit⟩ e =
      Machine.raise ⟨s, above ++ f.onto base' :: around, pending, depth, limit⟩ e :=
    Machine.raise_congr (unwind_onto base base' above s depth) hline e
  rw [heq]
  refine .ended fun g hg => ?_
  rw [Machine.frames_raise] at hg
  cases hg

theorem evaluating_deliver (h : f.Amid K A 1) (v : Value) :
    Evaluating K A around base base'
      (Machine.deliver ⟨s, above ++ f.onto base :: around, none, depth, limit⟩ v)
      (Machine.deliver ⟨s, above ++ f.onto base' :: around, none, depth, limit⟩ v) := by
  cases above with
  | nil => exact .on (h.push v)
  | cons g above => exact .calling (g.push v :: above) h fun _ => List.cons_ne_nil _ _

theorem evaluating_start (h : f.Amid K A 1) (c : Closure) (this : Option Value) (args : List Value)
    (result : Option Value) :
    Evaluating K A around base base'
      (Machine.start ⟨s, above ++ f.onto base :: around, none, depth, limit⟩ c this args result)
      (Machine.start ⟨s, above ++ f.onto base' :: around, none, depth, limit⟩ c
        this args result) := by
  unfold Machine.start
  dsimp only
  split
  · exact evaluating_raise _ _
  · split
    · exact evaluating_raise _ _
    · split
      · exact .stuck h
      · exact .calling (_ :: above) h fun _ => List.cons_ne_nil _ _

theorem evaluating_callMember (h : f.Amid K A 1) (v : Value) (c : Call) :
    Evaluating K A around base base'
      (Machine.callMember ⟨s, above ++ f.onto base :: around, none, depth, limit⟩ v c)
      (Machine.callMember ⟨s, above ++ f.onto base' :: around, none, depth, limit⟩ v c) := by
  unfold Machine.callMember
  split
  · exact evaluating_start h _ _ _ _
  · exact .calling _ h fun hnone => absurd hnone (Option.some_ne_none _)

theorem evaluating_instantiate (h : f.Amid K A 1) (id : TypeId) (c : Call) :
    Evaluating K A around base base'
      (Machine.instantiate ⟨s, above ++ f.onto base :: around, none, depth, limit⟩ id c)
      (Machine.instantiate ⟨s, above ++ f.onto base' :: around, none, depth, limit⟩ id c) := by
  unfold Machine.instantiate
  dsimp only
  split
  · exact evaluating_raise _ _
  · split
    · exact evaluating_callMember h _ _
    · split
      · exact evaluating_deliver h _
      · exact evaluating_raise _ _

theorem evaluating_callNative (host : Host) (h : f.Amid K A 1) (id : CallbackId) (c : Call) :
    Evaluating K A around base base'
      (Machine.callNative host ⟨s, above ++ f.onto base :: around, none, depth, limit⟩ id c)
      (Machine.callNative host ⟨s, above ++ f.onto base' :: around, none, depth, limit⟩ id c) := by
  unfold Machine.callNative
  dsimp only
  split
  · exact evaluating_deliver h _
  · exact .waiting h
  · exact .calling _ h fun hnone => absurd hnone (Option.some_ne_none _)
  · exact evaluating_raise _ _

theorem evaluating_enter (host : Host) (h : f.Amid K A 1) (c : Call) :
    Evaluating K A around base base'
      (Machine.enter host ⟨s, above ++ f.onto base :: around, none, depth, limit⟩ c)
      (Machine.enter host ⟨s, above ++ f.onto base' :: around, none, depth, limit⟩ c) := by
  unfold Machine.enter
  dsimp only
  split
  · exact evaluating_raise _ _
  · exact evaluating_start h _ _ _ _
  · exact evaluating_callNative host h _ _
  · exact evaluating_instantiate h _ _
  · split
    · exact evaluating_callMember h _ _
    · exact evaluating_raise _ _
  · exact evaluating_raise _ _

theorem evaluating_above (host : Host) {g : Frame} (h : f.Amid K A 1) :
    Evaluating K A around base base'
      (Machine.step host ⟨s, g :: above ++ f.onto base :: around, none, depth, limit⟩)
      (Machine.step host ⟨s, g :: above ++ f.onto base' :: around, none, depth, limit⟩) := by
  simp only [Machine.step, List.cons_append]
  split
  · rename_i w _
    simp only [Machine.execute]
    split
    · exact .calling (_ :: above) h fun _ => List.cons_ne_nil _ _
    · exact .calling (_ :: above) h fun _ => List.cons_ne_nil _ _
    · exact evaluating_raise (_ :: above) _
  · exact evaluating_deliver h _

theorem evaluating_on (host : Host) (h : f.Amid K A 0) (hlt : f.ip < K.stop) :
    Evaluating K A around base base'
      (Machine.step host ⟨s, f.onto base :: around, none, depth, limit⟩)
      (Machine.step host ⟨s, f.onto base' :: around, none, depth, limit⟩) := by
  obtain ⟨w, op, popped, pushed, hw, hop, heff, hpop, hensures⟩ := h.operation hlt s
  have hstep : ∀ base, Machine.step host ⟨s, f.onto base :: around, none, depth, limit⟩ =
      Machine.execute (f.onto base) w around s depth limit := by
    intro base
    have hw' : (f.onto base).prototype.code[(f.onto base).ip]? = some w := hw
    simp only [Machine.step, hw']
  rw [hstep, hstep]
  by_cases hret : op = .ret
  · subst hret
    cases heff
    have hrun : ∀ base, Exec.word { f.onto base with ip := (f.onto base).ip + 1 } w s =
        Exec.operation { f with ip := f.ip + 1 } w .ret s := by
      intro base
      simp only [Exec.word, hop]
      exact congrFun (Exec.ret_onto (f := { f with ip := f.ip + 1 }) hpop) s
    simp only [Machine.execute, hrun]
    cases hx : Exec.operation { f with ip := f.ip + 1 } w .ret s with
    | ok eff t =>
      have hamid := hensures.ok hx
      cases eff with
      | next g =>
        rw [Effect.Amid, if_pos rfl] at hamid
        exact .ending hamid
      | call c g => exact absurd rfl hamid.1
    | error e t => exact evaluating_raise [] (f := { f with ip := f.ip + 1 }) e
  · have hrun : ∀ base, Exec.word { f.onto base with ip := (f.onto base).ip + 1 } w s =
        (Effect.onto base <$> Exec.operation { f with ip := f.ip + 1 } w op) s := by
      intro base
      simp only [Exec.word, hop]
      exact congrFun (Exec.lifts_operation (f := { f with ip := f.ip + 1 }) heff hpop hret) s
    simp only [Machine.execute, hrun, Functor.map, EStateM.map]
    cases hx : Exec.operation { f with ip := f.ip + 1 } w op s with
    | ok eff t =>
      have hamid := hensures.ok hx
      cases eff with
      | next g =>
        rw [Effect.Amid, if_neg hret] at hamid
        exact .on hamid
      | call c g => exact .calling [] hamid.2 fun hnone => absurd hnone (Option.some_ne_none _)
    | error e t => exact evaluating_raise [] (f := { f with ip := f.ip + 1 }) e

/-- The innermost call is the one with the activation, and it has come to the instruction at `k`. -/
def stands (A : ActivationId) (k : Nat) : Outcome → Bool
  | running ⟨_, f :: _, none, _, _⟩ => f.activation == A && f.ip == k
  | _ => false

theorem stands_iff {o : Outcome} {k : Nat} : o.stands A k = true ↔
    ∃ s f rest depth limit, o = running ⟨s, f :: rest, none, depth, limit⟩ ∧ f.activation = A ∧
      f.ip = k := by
  constructor
  · intro h
    unfold stands at h
    split at h
    · rw [Bool.and_eq_true, beq_iff_eq, beq_iff_eq] at h
      exact ⟨_, _, _, _, _, rfl, h⟩
    · cases h
  · rintro ⟨s, f, rest, depth, limit, rfl, hA, hk⟩
    simp [stands, hA, hk]

variable {ω : Type} {o o' : Outcome} {b : Nat} (t : Terminal (StateM ω)) (host : Host)

/-- Unless the call is done with the piece, a move makes no difference. -/
theorem evaluating_move (h : Evaluating K A around base base' o o')
    (hown : Owned b o.machine.store o.machine.frames)
    (hbegun : A < o.machine.store.activations.size) (hnot : o.stands A K.stop = false) (w : ω) :
    Evaluating K A around base base' (move t host (o, w)).1 (move t host (o', w)).1 ∧
      (move t host (o', w)).2 = (move t host (o, w)).2 := by
  cases h with
  | @on s f depth limit hf =>
    refine ⟨evaluating_on host hf (Nat.lt_of_le_of_ne hf.stop fun heq => ?_), rfl⟩
    rw [stands_iff.2 ⟨s, f.onto base, around, depth, limit, rfl, hf.activation, heq⟩] at hnot
    cases hnot
  | @calling s above f pending depth limit hf habove =>
    refine ⟨?_, rfl⟩
    cases pending with
    | some c => exact evaluating_enter host hf c
    | none =>
      cases above with
      | nil => exact absurd rfl (habove rfl)
      | cons g above => exact evaluating_above host hf
  | @waiting r s above f depth limit hf =>
    refine ⟨?_, rfl⟩
    simp only [move, Machine.resume]
    split
    · exact evaluating_deliver hf _
    · exact evaluating_raise _ _
  | stuck hf => exact ⟨.stuck hf, rfl⟩
  | @ending s f depth limit hf =>
    -- the call ends, and no other one has its number
    refine ⟨.ended ?_, rfl⟩
    have hothers : ∀ g ∈ around, g.activation ≠ A := by
      intro g hg heq
      refine (List.nodup_cons.1 hown.distinct).1 ?_
      rw [hf.activation, ← heq]
      exact List.mem_map_of_mem hg
    have hpopped : Gone A (f.closeFrom 0 s).2 around := ⟨by rwa [f.closeFrom_activations], hothers⟩
    have hnone : f.prototype.code[f.ip]? = none := by
      rw [hf.prototype]
      exact Array.getElem?_eq_none hf.ip
    simp only [move, Machine.step, hnone]
    exact ((kept_gone A).deliver (m := ⟨(f.closeFrom 0 s).2, around, none, depth - 1, limit⟩)
      hpopped _).ended
  | ended hended => exact ⟨.ended ((kept_gone A).after t host ⟨hbegun, hended⟩ w 1).ended, rfl⟩

theorem Evaluating.stands (h : Evaluating K A around base base' o o')
    (hown : Owned b o.machine.store o.machine.frames) (hstop : K.stop < P.code.size)
    (hdone : o.stands A K.stop = true) :
    ∃ (s : Store) (f : Frame) (depth limit : Nat), f.Amid K A 0 ∧ f.ip = K.stop ∧
      o = running ⟨s, f.onto base :: around, none, depth, limit⟩ ∧
      o' = running ⟨s, f.onto base' :: around, none, depth, limit⟩ := by
  obtain ⟨s', g, rest, depth', limit', ho, hact, hip⟩ := stands_iff.1 hdone
  cases h with
  | @on s f depth limit hf =>
    cases ho
    exact ⟨_, f, _, _, hf, hip, rfl, rfl⟩
  | @calling s above f pending depth limit hf habove =>
    -- the innermost call is another one
    cases above with
    | nil =>
      cases ho
      exact absurd rfl (habove rfl)
    | cons g' above =>
      cases ho
      refine absurd ?_ (List.nodup_cons.1 hown.distinct).1
      rw [hact, ← hf.activation]
      exact List.mem_map.2 ⟨f.onto base, by simp, rfl⟩
  | ending hf =>
    cases ho
    exact absurd hf.ip (by rw [hip]; exact Nat.not_le.2 hstop)
  | ended hended =>
    subst ho
    exact absurd hact (hended g List.mem_cons_self)
  | waiting | stuck => cases ho

end Outcome

end Refscript
