import Refscript.Proofs.Code.StraightLine
import Refscript.Proofs.Machine.Run

/-!
# Refscript.Proofs.Machine.StraightLine

The height of the operand stack is counted three times: by the builder when it emits an instruction,
by the check from the packed word, and by the machine, which does not count but pops and pushes. For
functions without jumps `straight_line_heights` says that all three agree.

* `Paced`: a property of calls that go on and one of calls that wait for a result, kept by whatever
  a call does. What runs keep of it is shown once (`Paced.run`); `Kept` cannot be used, since it
  does not know which calls wait.
* `Prototype.Falls.paced`: the height at the offset that a call has reached is such a property.
-/

namespace Refscript

open StackCheck

/-- `Going` holds of calls that go on and `Waiting` of those that wait for the result of another
one: of a call at its start, of one that is given its result, and of one that has executed an
instruction. -/
structure Paced (Going Waiting : Frame → Prop) : Prop where
  start (c : Closure) (this : Option Value) (a : ActivationId) (result : Option Value) :
    Going ⟨c, this, a, [], 0, [], result⟩
  push {f : Frame} (v : Value) : Waiting f → Going (f.push v)
  next {f g : Frame} {w : Word} {op : Opcode} : Going f → f.prototype.code[f.ip]? = some w →
    w.op? = some op → Exec.Moves f w op f.ip (.next g) → Going g
  call {f g : Frame} {w : Word} {op : Opcode} {c : Call} : Going f →
    f.prototype.code[f.ip]? = some w →
    w.op? = some op → Exec.Moves f w op f.ip (.call c g) → Waiting g

namespace Outcome

/-- The innermost call goes on unless it is about to call; those around it wait. -/
def Paces (Going Waiting : Frame → Prop) : Outcome → Prop
  | running ⟨_, f :: rest, none, _, _⟩ => Going f ∧ ∀ g ∈ rest, Waiting g
  | running ⟨_, frames, some _, _, _⟩ => ∀ g ∈ frames, Waiting g
  | waiting _ m => m.pending = none ∧ ∀ g ∈ m.frames, Waiting g
  | _ => True

end Outcome

namespace Paced

variable {Going Waiting : Frame → Prop} {host : Host}

theorem deliver (hP : Paced Going Waiting) {m : Machine} (hpending : m.pending = none)
    (h : ∀ g ∈ m.frames, Waiting g) (v : Value) : (m.deliver v).Paces Going Waiting := by
  obtain ⟨s, frames, pending, depth, limit⟩ := m
  cases hpending
  cases frames with
  | nil => exact trivial
  | cons f rest =>
    exact ⟨hP.push v (h f List.mem_cons_self), fun g hg => h g (List.mem_cons_of_mem _ hg)⟩

theorem raise (m : Machine) (e : Fault) : (m.raise e).Paces Going Waiting :=
  m.raise_cases (P := Outcome.Paces Going Waiting) e trivial trivial

theorem called (hP : Paced Going Waiting) {s : Store} {fs : List Frame} {call : Call} {o : Outcome}
    (h : ∀ g ∈ fs, Waiting g) (hcall : Machine.Called host s fs call o) :
    o.Paces Going Waiting := by
  cases hcall with
  | value => exact hP.deliver rfl h _
  | started => exact ⟨hP.start _ _ _ _, h⟩
  | again =>
    cases fs with
    | nil => exact h
    | cons f rest => exact h
  | waiting => exact ⟨rfl, h⟩
  | failed => exact raise _ _
  | stuck => exact trivial

theorem executed (hP : Paced Going Waiting) {s : Store} {f : Frame} {rest : List Frame} {w : Word}
    {depth limit : Nat} {o : Outcome} (hf : Going f) (hrest : ∀ g ∈ rest, Waiting g)
    (hw : f.prototype.code[f.ip]? = some w) (hexec : Machine.Executed s f rest w depth limit o) :
    o.Paces Going Waiting := by
  cases hexec with
  | next hop _ hm => exact ⟨hP.next hf hw hop hm, hrest⟩
  | call hop _ hm => exact List.forall_mem_cons.2 ⟨hP.call hf hw hop hm, hrest⟩
  | failed | undecoded => exact raise _ _

theorem move (hP : Paced Going Waiting) {o o' : Outcome} (h : o.Paces Going Waiting)
    (hm : Outcome.Move host o o') : o'.Paces Going Waiting := by
  cases hm with
  | step m =>
    obtain ⟨s, frames, pending, depth, limit⟩ := m
    refine Machine.step_cases (P := Outcome.Paces Going Waiting) host _ ?_ ?_ ?_ ?_
    · rintro c rfl o' hcall
      cases frames with
      | nil | cons f rest => exact hP.called h hcall
    · rintro f rest w rfl rfl hw o' hexec
      exact hP.executed h.1 h.2 hw hexec
    · rintro f rest rfl rfl - v depth' limit'
      exact hP.deliver rfl h.2 v
    · exact fun _ _ => trivial
  | @answer r m a _ =>
    unfold Machine.resume
    split
    · exact hP.deliver h.1 h.2 _
    · exact raise _ _

theorem run (hP : Paced Going Waiting) {o o' : Outcome} (h : o.Paces Going Waiting)
    (hr : Outcome.Run host o o') : o'.Paces Going Waiting := by
  induction hr with
  | refl => exact h
  | move _ hm ih => exact hP.move ih hm

theorem going (hP : Paced Going Waiting) {m₀ m : Machine} {f : Frame} {rest : List Frame}
    (hidle : m₀.frames = []) (hr : Outcome.Run host (.running m₀) (.running m))
    (hpending : m.pending = none) (hfs : m.frames = f :: rest) :
    Going f := by
  have hstart : (Outcome.running m₀).Paces Going Waiting := by
    obtain ⟨s, frames, pending, depth, limit⟩ := m₀
    cases hidle
    cases pending with
    | none => exact trivial
    | some c => exact fun g hg => by cases hg
  have hpaces := hP.run hstart hr
  obtain ⟨s, frames, pending, depth, limit⟩ := m
  cases hpending
  cases hfs
  exact hpaces.1

end Paced

namespace Prototype.Falls

variable {p : Prototype} {height : Nat → Nat}

theorem next (h : p.Falls height) {k n popped pushed : Nat} {w : Word} {op : Opcode}
    {targets : List (Nat × Nat)} {t : Nat × Nat} (hw : p.code[k]? = some w) (hop : w.op? = some op)
    (hn : n = height k) (heff : effect? op w = some (popped, pushed))
    (hs : successors? p op w k (n - popped + pushed) = some targets) (ht : t ∈ targets) :
    t = (k + 1, height (k + 1)) := by
  obtain ⟨op', popped', pushed', hop', heff', -, hnext, hfalls⟩ := h.insn hw
  obtain rfl : op = op' := Option.some.inj (hop.symm.trans hop')
  obtain ⟨rfl, rfl⟩ := Prod.mk.inj (Option.some.inj (heff.symm.trans heff'))
  rw [hfalls, hn, ← hnext] at hs
  obtain rfl := Option.some.inj hs
  exact List.mem_singleton.1 ht

theorem not_ret (h : p.Falls height) {k : Nat} {w : Word} (hw : p.code[k]? = some w) :
    w.op? ≠ some .ret := by
  intro hret
  obtain ⟨op, _, _, hop, -, -, -, hfalls⟩ := h.insn hw
  obtain rfl : .ret = op := Option.some.inj (hret.symm.trans hop)
  have hnone := hfalls 0
  simp [successors?] at hnone

theorem paced (h : p.Falls height) : Paced (fun f => f.prototype = p → f.stack.length = height f.ip)
    (fun f => f.prototype = p → f.stack.length + 1 = height f.ip) := by
  refine ⟨fun _ _ _ _ _ => h.zero.symm, fun _ hf => hf, fun {f g w op} hf hw hop hm hg => ?_,
    fun {f g w op c} hf hw hop hm hg => ?_⟩
  · have hproto : f.prototype = p := (congrArg Closure.prototype hm.sameCall.closure).symm.trans hg
    have hw' : p.code[f.ip]? = some w := hproto ▸ hw
    cases hm with
    | next _ heff _ hs ht =>
      have hnext := Prod.mk.inj (h.next hw' hop (hf hproto) heff (hproto ▸ hs) ht)
      rw [hnext.1, hnext.2]
    | ret _ hret => exact absurd (hret ▸ hop) (h.not_ret hw')
  · have hproto : f.prototype = p := (congrArg Closure.prototype hm.sameCall.closure).symm.trans hg
    have hw' : p.code[f.ip]? = some w := hproto ▸ hw
    cases hm with
    | call _ heff _ hs ht =>
      have hnext := Prod.mk.inj (h.next hw' hop (hf hproto) heff (hproto ▸ hs) ht)
      rw [hnext.1, hnext.2]

end Prototype.Falls

/-- A function is built without jumps, and `b` is the builder in the middle of it. The height that
it counts is the one that the check records for the next offset, and the one that the stack of every
call has that comes there; the maximum is the greatest of the heights so far; and the function
passes the check exactly if it ends with at most one value. -/
theorem straight_line_heights {name : Option String} {hs hs' : List Nat} {b c : Builder}
    (hb : Builder.StraightLine (.new name) hs b) (hc : Builder.StraightLine b hs' c)
    (hfits : c.oversized = false) :
    (∃ recorded, heights c.build = .ok recorded ∧ recorded[b.position]? = some (some b.height)) ∧
    (∀ {host : Host} {m₀ m : Machine} {f : Frame} {rest : List Frame}, m₀.frames = [] →
      Outcome.Run host (.running m₀) (.running m) → m.pending = none → m.frames = f :: rest →
      f.prototype = c.build → f.ip = b.position → f.stack.length = b.height) ∧
    b.maxHeight = hs.foldl max 0 ∧
    (checkOne c.build = .ok () ↔ c.height ≤ 1) := by
  have hlogs := hb.logs
  have hlogs' := (hb.trans hc).logs
  have hfalls := hlogs'.falls hfits
  have hsize : c.build.code.size = (hs ++ hs').length := by
    rw [← hlogs'.size]
    exact Array.size_map
  have hposition : b.position = hs.length := hlogs.size
  have hheight : Builder.heightAt (hs ++ hs') b.position = b.height := by
    rw [hposition, Builder.heightAt_append (Nat.le_refl _), hlogs.height]
  refine ⟨?_, ?_, hlogs.maxHeight, ?_⟩
  · obtain ⟨recorded, hrecorded, hall⟩ := hfalls.exists_heights
    refine ⟨recorded, hrecorded, ?_⟩
    rw [hall b.position (by rw [hposition, hsize, List.length_append]; omega), hheight]
  · intro host m₀ m f rest hidle hr hpending hfs hproto hip
    rw [hfalls.paced.going hidle hr hpending hfs hproto, hip, hheight]
  · rw [hfalls.checkOne_iff, hsize, ← hlogs'.height]

/-- A function that declares a variable, sets it and has its value on the stack twice, but is not
complete yet. -/
def Builder.pairing : Builder :=
  let declared : Builder := { new none with active := [⟨"x", 0, 0, 0, false⟩], maxLocals := 1 }
  ((declared.emitted 0 1 (.simple .pushNull)).emitted 1 1 (.wide .initLocal 0)).emitted 0 1
    (.wide .loadLocal 0)

/-- The function then makes a pair of both. -/
def Builder.paired : Builder :=
  pairing.emitted 2 1 (.wide .tuple 2)

/-- A machine that is to call the function. -/
def Machine.callingPaired : Machine :=
  ⟨{ Store.empty with closures := #[⟨Builder.paired.build, #[]⟩] }, [],
    some ⟨.closure 0, none, [], none⟩, 0, 1⟩

/-- Before the pair is made, the builder, the check and the machine count two values. -/
theorem straight_line_heights_pair :
    Builder.StraightLine (.new none) [1, 1, 2] .pairing ∧
      Builder.StraightLine .pairing [1] .paired ∧
    Builder.paired.oversized = false ∧
    (∃ recorded, heights Builder.paired.build = .ok recorded ∧ recorded[3]? = some (some 2)) ∧
    (∃ m f, Outcome.Run noHost (.running .callingPaired) (.running m) ∧ m.frames = [f] ∧ f.ip = 3 ∧
      f.stack.length = 2) ∧
    Builder.pairing.maxHeight = 2 ∧ checkOne Builder.paired.build = .ok () := by
  have hb : Builder.StraightLine (.new none) [1, 1, 2] .pairing := by
    have hadd : (Builder.new none).addLocal? "x" =
        some (0, { Builder.new none with active := [⟨"x", 0, 0, 0, false⟩], maxLocals := 1 }) := rfl
    have hdeclared := Builder.StraightLine.declaration .refl (Builder.declares_addLocal hadd)
    exact ((hdeclared.emission .null rfl).emission (.initLocal 0) rfl).emission (.loadLocal 0) rfl
  have hc : Builder.StraightLine .pairing [1] .paired := by
    have hpairing : Builder.StraightLine .pairing [] .pairing := .refl
    exact hpairing.emission (.tuple 2) rfl
  obtain ⟨hrecorded, hmachine, hmax, hcheck⟩ := straight_line_heights hb hc rfl
  refine ⟨hb, hc, rfl, hrecorded, ?_, hmax, hcheck.2 (by decide)⟩
  have hr := Outcome.run_reaches noHost 4 .callingPaired
  have hrunning : Machine.callingPaired.run noHost 4 =
    .running (Machine.callingPaired.run noHost 4).machine := by cbv
  have hpending : (Machine.callingPaired.run noHost 4).machine.pending = none := by cbv
  have hprototype : (Machine.callingPaired.run noHost 4).machine.frames.map Frame.prototype =
      [Builder.paired.build] := by cbv
  have hip : (Machine.callingPaired.run noHost 4).machine.frames.map Frame.ip = [3] := by cbv
  obtain ⟨f, hf, hproto⟩ := List.map_eq_singleton_iff.1 hprototype
  rw [hf] at hip
  rw [hrunning] at hr
  exact ⟨_, f, hr, hf, List.singleton_inj.1 hip,
    hmachine rfl hr hpending hf hproto (List.singleton_inj.1 hip)⟩

end Refscript
