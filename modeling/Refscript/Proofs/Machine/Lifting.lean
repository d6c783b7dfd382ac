import Refscript.Code.StackCheck
import Refscript.Machine.Exec

/-!
# Refscript.Proofs.Machine.Lifting

Instructions work on top of the stack. An instruction that finds its operands does the same with
more values below them (`Exec.lifts_operation`); only `ret` drops what is below (`Exec.ret_onto`).
-/

namespace Refscript

open StackCheck

/-- The call with more values below those on its stack. -/
def Frame.onto (f : Frame) (base : List Value) : Frame :=
  { f with stack := f.stack ++ base }

/-- The effect with more values below those on the stack of the call. -/
def Effect.onto (base : List Value) : Effect → Effect
  | .next f => .next (f.onto base)
  | .call c f => .call c (f.onto base)

namespace Frame

variable {f : Frame} {base : List Value}

theorem capture_onto (slot : Nat) :
    (f.onto base).capture slot = (fun r => (r.1, r.2.onto base)) <$> f.capture slot := by
  simp only [capture, map_bind]
  refine bind_congr fun c => ?_
  cases c with
  | none => simp [onto]
  | some c => simp

theorem captures_onto (os : List OuterInfo) (f : Frame) :
    (f.onto base).captures os = (fun r => (r.1, r.2.onto base)) <$> f.captures os := by
  induction os generalizing f with
  | nil => simp [captures]
  | cons o os ih =>
    simp only [captures]
    cases o.kind with
    | localInParent => simp [capture_onto, ih]
    | outerInParent =>
      have houter : Action.ofExcept (((f.onto base).outer o.position).map (·, f.onto base)) =
          (fun r => (r.1, r.2.onto base)) <$>
            Action.ofExcept ((f.outer o.position).map (·, f)) := by
        change Action.ofExcept ((f.outer o.position).map (·, f.onto base)) = _
        cases f.outer o.position <;> rfl
      simp [houter, ih]

theorem makeClosure_onto (index : Nat) (f : Frame) :
    (f.onto base).makeClosure index = (fun r => (r.1, r.2.onto base)) <$> f.makeClosure index := by
  simp only [makeClosure, map_bind]
  refine bind_congr fun p => ?_
  simp [captures_onto]

theorem makeMember_onto (index : Option Nat) (f : Frame) :
    (f.onto base).makeMember index = (fun r => (r.1, r.2.onto base)) <$> f.makeMember index := by
  cases index <;> simp [makeMember, makeClosure_onto]

theorem makeMembers_onto (ms : List (String × Nat)) (f : Frame) :
    (f.onto base).makeMembers ms = (fun r => (r.1, r.2.onto base)) <$> f.makeMembers ms := by
  induction ms generalizing f with
  | nil => simp [makeMembers]
  | cons m ms ih => simp [makeMembers, makeClosure_onto, ih]

theorem checkNested_onto (ks : List Nat) (f : Frame) :
    (f.onto base).checkNested ks = f.checkNested ks := by
  induction ks with
  | nil => rfl
  | cons k ks ih =>
    rw [checkNested, checkNested, ih]
    rfl

theorem makeType_onto (index : Nat) (f : Frame) :
    (f.onto base).makeType index = (fun r => (r.1, r.2.onto base)) <$> f.makeType index := by
  rw [makeType, makeType, show (f.onto base).prototype = f.prototype from rfl]
  cases f.prototype.types[index]? with
  | none => rfl
  | some t => simp [checkNested_onto, makeMember_onto, makeMembers_onto]

end Frame

namespace Exec

/-- The first action does what the second one does, with more values below. -/
def Lifts (base : List Value) (x' x : Action Effect) : Prop :=
  x' = Effect.onto base <$> x

section Lifting

variable {α : Type} {f : Frame} {base : List Value} {n : Nat}

theorem Lifts.bind {k' k : α → Action Effect} (x : Action α) (hk : ∀ a, Lifts base (k' a) (k a)) :
    Lifts base (x >>= k') (x >>= k) := by
  rw [Lifts, map_bind]
  exact bind_congr hk

theorem Lifts.onto {x' x : Action (α × Frame)} {k' k : α × Frame → Action Effect}
    (hx : x' = (fun r => (r.1, r.2.onto base)) <$> x)
    (hk : ∀ a g, Lifts base (k' (a, g.onto base)) (k (a, g))) :
    Lifts base (x' >>= k') (x >>= k) := by
  rw [hx, Lifts, bind_map_left, map_bind]
  exact bind_congr fun r => hk r.1 r.2

theorem Lifts.top {k' k : Value → Action Effect} (h : 1 ≤ f.stack.length)
    (hk : ∀ v, Lifts base (k' v) (k v)) :
    Lifts base (Action.ofExcept (f.onto base).top >>= k') (Action.ofExcept f.top >>= k) := by
  obtain ⟨closure, this, activation, stack, ip, openCells, result⟩ := f
  cases stack with
  | nil => cases h
  | cons v rest => exact .bind (Action.ofExcept (.ok v)) hk

theorem Lifts.pop {k' k : Value × Frame → Action Effect} (h : n + 1 ≤ f.stack.length)
    (hk : ∀ v g, n ≤ g.stack.length → Lifts base (k' (v, g.onto base)) (k (v, g))) :
    Lifts base (Exec.pop (f.onto base) >>= k') (Exec.pop f >>= k) := by
  obtain ⟨closure, this, activation, stack, ip, openCells, result⟩ := f
  cases stack with
  | nil => cases h
  | cons v rest =>
    exact hk v ⟨closure, this, activation, rest, ip, openCells, result⟩ (Nat.le_of_succ_le_succ h)

theorem Lifts.popPlain {k' k : Value × Frame → Action Effect} (h : n + 1 ≤ f.stack.length)
    (hk : ∀ v g, n ≤ g.stack.length → Lifts base (k' (v, g.onto base)) (k (v, g))) :
    Lifts base (Exec.popPlain (f.onto base) >>= k') (Exec.popPlain f >>= k) := by
  simp only [Exec.popPlain, bind_assoc, pure_bind]
  exact .pop h fun v g hg => .bind _ fun u => hk u g hg

theorem Lifts.popN {m : Nat} {k' k : List Value × Frame → Action Effect}
    (h : m + n ≤ f.stack.length)
    (hk : ∀ vs g, n ≤ g.stack.length → Lifts base (k' (vs, g.onto base)) (k (vs, g))) :
    Lifts base (Action.ofExcept ((f.onto base).popN m) >>= k')
      (Action.ofExcept (f.popN m) >>= k) := by
  have hm : m ≤ f.stack.length := by omega
  have hle : ¬(f.onto base).stack.length < m := by
    simp only [Frame.onto, List.length_append]
    omega
  rw [Frame.popN, Frame.popN, if_neg hle, if_neg (Nat.not_lt.2 hm)]
  simp only [Frame.onto, List.take_append_of_le_length hm, List.drop_append_of_le_length hm]
  exact hk _ { f with stack := f.stack.drop m } (by rw [List.length_drop]; omega)

theorem Lifts.ite {p : Prop} [Decidable p] {x' x y' y : Action Effect} (hx : Lifts base x' x)
    (hy : Lifts base y' y) : Lifts base (if p then x' else y') (if p then x else y) := by
  split
  · exact hx
  · exact hy

theorem Lifts.pushed (f : Frame) (v : Value) :
    Lifts base (Exec.pushed (f.onto base) v) (Exec.pushed f v) := rfl

theorem lifts_jumpIf (h : 1 ≤ f.stack.length) (when : Bool) (target : Nat) :
    Lifts base (jumpIf (f.onto base) when target) (jumpIf f when target) := by
  refine .popPlain h fun v g _ => ?_
  dsimp only
  split <;> rfl

theorem lifts_keepIf (h : 1 ≤ f.stack.length) (when : Bool) (target : Nat) :
    Lifts base (keepIf (f.onto base) when target) (keepIf f when target) :=
  .top h fun _ => .bind _ fun _ => .ite rfl (.pop h fun _ _ _ => rfl)

theorem lifts_applied (f : Frame) (a : Applied) :
    Lifts base (pure (applied (f.onto base) a)) (pure (applied f a)) := by
  cases a <;> rfl

theorem lifts_ref {w : Word} {popped pushed : Nat} (heff : effect? .ref w = some (popped, pushed))
    (hpop : popped ≤ f.stack.length) :
    Lifts base (operation (f.onto base) w .ref) (operation f w .ref) := by
  have hrefer : ∀ place g,
    Lifts base (do Exec.pushed (g.onto base) (← Action.adding (·.newReference place)))
      (do Exec.pushed g (← Action.adding (·.newReference place))) :=
        fun _ g => .bind _ fun _ => .pushed g _
  simp only [effect?] at heff
  simp only [operation, makeReference]
  cases hkind : RefKind.ofNumber? w.a with
  | none => rfl
  | some kind =>
    rw [hkind] at heff
    cases kind with
    | global | outer =>
      simp only [bind_assoc, pure_bind]
      exact .bind _ fun _ => hrefer _ f
    | loc =>
      simp only [bind_assoc, pure_bind]
      exact .onto (Frame.capture_onto _) fun _ g => hrefer _ g
    | index =>
      cases heff
      simp only [bind_assoc, pure_bind]
      exact .popPlain hpop fun _ _ hg => .popPlain hg fun _ g _ => hrefer _ g
    | field =>
      cases heff
      simp only [bind_assoc, pure_bind]
      exact .popPlain hpop fun _ g _ => .bind _ fun _ => hrefer _ g

end Lifting

variable {f : Frame} {w : Word} {op : Opcode} {popped pushed : Nat} {base : List Value}

/-- An instruction that finds its operands does the same with more values below them. Only `ret`
drops them. -/
theorem lifts_operation (heff : effect? op w = some (popped, pushed))
    (hpop : popped ≤ f.stack.length) (hret : op ≠ .ret) :
    Lifts base (operation (f.onto base) w op) (operation f w op) := by
  cases op with
  | ret => exact absurd rfl hret
  | closeOuters | jump | pushNull | pushTrue | pushFalse | smallInt | smallFloat | this => rfl
  | jumpTrue | jumpFalse => cases heff; exact lifts_jumpIf hpop _ _
  | and | or => cases heff; exact lifts_keepIf hpop _ _
  | loadLocal => exact .bind _ fun _ => .pushed f _
  | loadOuter | loadGlobal => exact .bind _ fun _ => .bind _ fun _ => .pushed f _
  | const =>
    simp only [operation, show (f.onto base).prototype = f.prototype from rfl]
    split <;> rfl
  | closure => exact .onto (Frame.makeClosure_onto _ _) fun _ g => .pushed g _
  | makeType => exact .onto (Frame.makeType_onto _ _) fun _ g => .pushed g _
  | ref => exact lifts_ref heff hpop
  | list => cases heff; exact .popN (n := 0) hpop fun _ g _ => .bind _ fun _ => .pushed g _
  | tuple => cases heff; exact .popN (n := 0) hpop fun _ g _ => .pushed g _
  | pop => cases heff; exact .pop hpop fun _ _ _ => rfl
  | dup => cases heff; exact .top hpop fun _ => .pushed f _
  | dup2 =>
    cases heff
    refine .popN (n := 0) hpop fun vs g _ => ?_
    simp only [Lifts, map_pure, Effect.onto, Frame.onto, List.append_assoc]
  | invoke => cases heff; exact .popN hpop fun _ _ hg => .pop hg fun _ _ _ => rfl
  | invokeMethod =>
    cases heff
    exact .bind _ fun _ => .popN hpop fun _ _ hg => .popPlain hg fun _ _ _ => .bind _ fun _ => rfl
  | matchOn =>
    cases heff
    refine .popPlain hpop fun v g _ => ?_
    dsimp only
    rw [show (g.onto base).prototype = g.prototype from rfl]
    split <;> rfl
  | storeLocal | storeOuter =>
    cases heff; exact .top hpop fun _ => .bind _ fun _ => .bind _ fun _ => rfl
  | initLocal =>
    cases heff; exact .top hpop fun _ => .bind _ fun _ => .ite (.bind _ fun _ => rfl) rfl
  | storeGlobal => cases heff; exact .bind _ fun _ => .top hpop fun _ => .bind _ fun _ => rfl
  | loadField =>
    cases heff; exact .bind _ fun _ => .popPlain hpop fun _ g _ => .bind _ fun _ => .pushed g _
  | prefixOp =>
    cases heff; exact .bind _ fun _ => .pop hpop fun _ g _ => .bind _ fun _ => lifts_applied g _
  | not | deref => cases heff; exact .popPlain hpop fun _ g _ => .pushed g _
  | loadIndex =>
    cases heff
    exact .popPlain hpop fun _ _ hg => .popPlain hg fun _ g _ => .bind _ fun _ => .pushed g _
  | storeField =>
    cases heff
    exact .bind _ fun _ => .pop hpop fun _ _ hg => .popPlain hg fun _ g _ => .bind _ fun _ =>
      .bind _ fun _ =>
      .pushed g _
  | infixOp =>
    cases heff
    exact .bind _ fun _ => .pop hpop fun _ _ hg => .pop hg fun _ g _ => .bind _ fun _ =>
      lifts_applied g _
  | eq | neq =>
    cases heff; exact .popPlain hpop fun _ _ hg => .popPlain hg fun _ g _ =>
      .bind _ fun _ => .pushed g _
  | storeDeref =>
    cases heff
    refine .pop hpop fun _ _ hg => .pop hg fun target g _ => ?_
    cases target with
    | ref => exact .bind _ fun _ => .pushed g _
    | _ => rfl
  | storeIndex =>
    cases heff
    exact .pop hpop fun _ _ hg => .popPlain hg fun _ _ hg => .popPlain hg fun _ g _ =>
      .bind _ fun _ =>
      .bind _ fun _ => .pushed g _

theorem ret_onto (hpop : 1 ≤ f.stack.length) :
    operation (f.onto base) w .ret = operation f w .ret := by
  obtain ⟨closure, this, activation, stack, ip, openCells, result⟩ := f
  cases stack with
  | nil => cases hpop
  | cons v rest => rfl

end Exec

end Refscript
