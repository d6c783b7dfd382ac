import Mathlib.Data.List.Forall2
import Refscript.Proofs.Machine.Embedding

/-!
# Refscript.Proofs.Machine.ErrorLines

The line that an error names.

* `Situation.spot?`: the instruction that is being executed, in the innermost call there is.
* `Situation.Marked`: every call that waits has gone one instruction past the one that it is
  executing, which is why the line it has reached is the line of that one. `Situation.Marked.act`:
  this holds at every moment.
* `Situation.Passes`: an error on its way out, through functions of the embedding program that pass
  it on.
* `Situation.Marked.raises`, `Situation.Marked.passes`: which calls a fault has ended, and which
  line it has got.
* `fault_located`: what arrives outside is the fault, at the line of the instruction that was being
  executed.
-/

namespace Refscript

/-- An instruction that a call is executing. -/
structure Spot where
  frame : Frame
  index : Nat

/-- What the line table has for the instruction. -/
def Spot.line (spot : Spot) : Nat :=
  spot.frame.prototype.lines.line spot.index

/-- The call has gone on to the instruction after the marked one. -/
def Frame.IsPast (f : Frame) (mark : Option Nat) : Prop :=
  ∃ i, mark = some i ∧ f.ip = i + 1

namespace Layer

/-- What the innermost call is executing. -/
def spot? : Layer → Option Spot
  | ⟨f :: _, some i :: _, _⟩ => some ⟨f, i⟩
  | _ => none

/-- All the calls wait for the instructions they are executing. -/
def Waits (l : Layer) : Prop :=
  List.Forall₂ Frame.IsPast l.frames l.marks

/-- The innermost call, if there is one, is executing an instruction. -/
def Placed (l : Layer) : Prop :=
  l.spot?.map Spot.frame = l.frames.head?

theorem placed_nil (marks : List (Option Nat)) : Placed ⟨[], marks, none⟩ := rfl

namespace Waits

theorem length_eq {fs : List Frame} {marks : List (Option Nat)} (h : Waits ⟨fs, marks, none⟩) :
    marks.length = fs.length :=
  (List.Forall₂.length_eq h).symm

theorem placed {l : Layer} (h : l.Waits) : l.Placed := by
  obtain ⟨frames, marks, result⟩ := l
  cases h with
  | nil => rfl
  | cons hpast _ =>
    obtain ⟨i, rfl, _⟩ := hpast
    rfl

theorem line_eq {l : Layer} (h : l.Waits) :
    l.frames.head?.map Frame.line = l.spot?.map Spot.line := by
  obtain ⟨frames, marks, result⟩ := l
  cases h with
  | nil => rfl
  | @cons f _ _ _ hpast _ =>
    obtain ⟨i, rfl, hip⟩ := hpast
    show some (f.prototype.lines.line (f.ip - 1)) = some (f.prototype.lines.line i)
    rw [hip, Nat.add_sub_cancel]

end Waits

theorem frame_findSome? {layers : List Layer} (h : ∀ l ∈ layers, l.Placed) :
    (layers.findSome? spot?).map Spot.frame = (layers.flatMap Layer.frames).head? := by
  induction layers with
  | nil => rfl
  | cons l layers ih =>
    obtain ⟨hl, hlayers⟩ := List.forall_mem_cons.1 h
    have hl : l.spot?.map Spot.frame = l.frames.head? := hl
    rw [List.flatMap_cons, List.head?_append, ← hl, ← ih hlayers, List.findSome?_cons]
    cases l.spot? <;> rfl

variable {marks : List (Option Nat)} {n : Nat}

theorem fit_eq (h : marks.length = n) : fit n marks = marks := by
  unfold fit
  rw [if_neg (by omega), h, Nat.sub_self, List.drop_zero]

theorem fit_started (h : marks.length = n) : fit (n + 1) marks = none :: marks := by
  unfold fit
  rw [if_pos (by omega)]

theorem fit_left (mark : Option Nat) (h : marks.length = n) : fit n (mark :: marks) = marks := by
  unfold fit
  rw [if_neg (by rw [List.length_cons]; omega), List.length_cons, h, Nat.add_sub_cancel_left,
    List.drop_one, List.tail_cons]

theorem fit_zero (marks : List (Option Nat)) : fit 0 marks = [] := by
  unfold fit
  rw [if_neg (Nat.not_lt_zero _), Nat.sub_zero, List.drop_length]

end Layer

open Layer

namespace Machine

theorem length_deliver (m : Machine) (v : Value) :
    (m.deliver v).machine.frames.length = m.frames.length := by
  obtain ⟨s, frames, pending, depth, limit⟩ := m
  cases frames <;> rfl

theorem frames_unwind (m : Machine) : m.unwind.frames = [] := by
  obtain ⟨s, hs⟩ := m.unwind_eq
  rw [hs]

theorem foldl_atLine (frames : List Frame) (e : RuntimeError) :
    frames.foldl (fun e f => e.atLine f.line) e =
      ⟨e.fault, e.line.or (frames.head?.map Frame.line)⟩ := by
  induction frames generalizing e with
  | nil => rw [List.foldl_nil, List.head?_nil, Option.map_none, Option.or_none]
  | cons f rest ih =>
    rw [List.foldl_cons, ih]
    cases hline : e.line <;> simp [RuntimeError.atLine, hline]

theorem line_of_raise {m m' : Machine} {φ : Fault} {e : RuntimeError}
    (h : m.raise φ = .failed e m') : e.line = m.frames.head?.map Frame.line := by
  unfold raise at h
  split at h
  · cases h
  · cases h
    rfl

theorem failWith_eq {m : Machine} {l : Layer} (h : l.Waits) (hframes : m.frames = l.frames)
    (e : RuntimeError) :
    m.failWith e = .failed ⟨e.fault, e.line.or (l.spot?.map Spot.line)⟩ m.unwind := by
  rw [failWith, foldl_atLine, hframes, ← h.line_eq]

section

variable {s : Store} {f : Frame} {rest : List Frame} {depth limit : Nat}

theorem mark_executing (hlt : f.ip < f.prototype.code.size) (mk : Option Nat)
    (marks : List (Option Nat)) :
    mark (fetches? ⟨s, f :: rest, none, depth, limit⟩) (mk :: marks) = some f.ip :: marks := by
  unfold fetches?
  dsimp only
  rw [if_pos hlt]
  rfl

theorem mark_leaving (hle : f.prototype.code.size ≤ f.ip) (marks : List (Option Nat)) :
    mark (fetches? ⟨s, f :: rest, none, depth, limit⟩) marks = marks := by
  unfold fetches?
  dsimp only
  rw [if_neg (Nat.not_lt.2 hle)]
  rfl

end

theorem deliver_ne_failed (m : Machine) (v : Value) (e : RuntimeError) (m' : Machine) :
    m.deliver v ≠ .failed e m' := by
  obtain ⟨s, frames, pending, depth, limit⟩ := m
  cases frames <;> exact fun h => Outcome.noConfusion h

end Machine

/-- The marks are those of the calls in progress. Only the innermost call can be about to execute an
instruction. -/
inductive Outcome.Marked : Outcome → List (Option Nat) → Prop where
  | executing {m : Machine} {f : Frame} {rest : List Frame} {mark : Option Nat}
      {marks : List (Option Nat)} :
      m.pending = none → m.frames = f :: rest → Waits ⟨rest, marks, none⟩ →
        Marked (.running m) (mark :: marks)
  | calling {m : Machine} {c : Call} {marks : List (Option Nat)} :
      m.pending = some c → Waits ⟨m.frames, marks, none⟩ → Marked (.running m) marks
  | waiting {r : Request} {m : Machine} {marks : List (Option Nat)} :
      m.pending = none → Waits ⟨m.frames, marks, none⟩ → Marked (.waiting r m) marks
  | returned {v : Value} {m : Machine} : m.frames = [] → Marked (.returned v m) []
  | failed {e : RuntimeError} {m : Machine} : m.frames = [] → Marked (.failed e m) []
  | stuck {m : Machine} {marks : List (Option Nat)} : Marked (.stuck m) marks

namespace Outcome.Marked

variable {m : Machine} {o : Outcome} {marks : List (Option Nat)}

theorem idle (h : o.Marked marks) (hidle : o.idle? = some m) : m.frames = [] ∧ marks = [] := by
  cases h with
  | returned hframes | failed hframes =>
    cases hidle
    exact ⟨hframes, rfl⟩
  | executing | calling | waiting | stuck => cases hidle

theorem deliver (hpending : m.pending = none) (h : Waits ⟨m.frames, marks, none⟩) (v : Value) :
    (m.deliver v).Marked marks := by
  obtain ⟨s, frames, pending, depth, limit⟩ := m
  cases h with
  | nil => exact .returned rfl
  | cons _ hrest => exact .executing hpending rfl hrest

theorem refit (h : o.Marked marks) (hlength : marks.length = o.machine.frames.length) :
    o.Marked (fit o.machine.frames.length marks) := by
  rw [fit_eq hlength]
  exact h

theorem deliver_fit (hpending : m.pending = none) (h : Waits ⟨m.frames, marks, none⟩) (v : Value) :
    (m.deliver v).Marked (fit (m.deliver v).machine.frames.length marks) :=
  (deliver hpending h v).refit (h.length_eq.trans (m.length_deliver v).symm)

theorem failWith_fit (m : Machine) (e : RuntimeError) (marks : List (Option Nat)) :
    (m.failWith e).Marked (fit (m.failWith e).machine.frames.length marks) := by
  show (Outcome.failed _ m.unwind).Marked (fit m.unwind.frames.length marks)
  rw [m.frames_unwind, List.length_nil, fit_zero]
  exact .failed m.frames_unwind

theorem raise_fit (m : Machine) (φ : Fault) (marks : List (Option Nat)) :
    (m.raise φ).Marked (fit (m.raise φ).machine.frames.length marks) := by
  refine m.raise_cases (P := fun o => o.Marked (fit o.machine.frames.length marks)) φ .stuck ?_
  show (Outcome.failed _ m.unwind).Marked (fit m.unwind.frames.length marks)
  rw [m.frames_unwind, List.length_nil, fit_zero]
  exact .failed m.frames_unwind

theorem called {c : Call} (hpending : m.pending = some c) (h : Waits ⟨m.frames, marks, none⟩)
    (hstep : m.Stepped o) : o.Marked (fit o.machine.frames.length marks) := by
  cases hstep with
  | answered => exact deliver_fit (m := ⟨_, _, none, _, _⟩) rfl h _
  | started =>
    show Marked _ (fit (m.frames.length + 1) marks)
    rw [fit_started h.length_eq]
    exact .executing rfl rfl h
  | again => exact refit (.calling rfl h) h.length_eq
  | waiting => exact refit (.waiting rfl h) h.length_eq
  | refused => exact raise_fit _ _ _
  | stuck => exact .stuck
  | next hnone | call hnone | failed hnone | left hnone | rested hnone =>
    rw [hpending] at hnone
    cases hnone

theorem executed {s : Store} {f : Frame} {rest : List Frame} {depth limit : Nat} (mk : Option Nat)
    (h : Waits ⟨rest, marks, none⟩) (hstep : Machine.Stepped ⟨s, f :: rest, none, depth, limit⟩ o) :
    o.Marked (fit o.machine.frames.length
      (mark (Machine.fetches? ⟨s, f :: rest, none, depth, limit⟩) (mk :: marks))) := by
  have hlength : ∀ (mk : Option Nat) (g : Frame), (mk :: marks).length = (g :: rest).length :=
    fun _ _ => congrArg (· + 1) h.length_eq
  cases hstep with
  | @next _ g _ _ _ hframes hlt =>
    cases hframes
    rw [Machine.mark_executing hlt]
    exact refit (.executing rfl rfl h) (hlength _ g)
  | @call _ g _ _ _ _ hframes hlt hip =>
    cases hframes
    rw [Machine.mark_executing hlt]
    exact refit (.calling rfl (.cons ⟨f.ip, rfl, hip⟩ h)) (hlength _ g)
  | failed => exact raise_fit _ _ _
  | left _ hframes hle =>
    cases hframes
    rw [Machine.mark_leaving hle, Machine.length_deliver, fit_left mk h.length_eq]
    exact deliver rfl h _
  | rested _ hframes => cases hframes
  | answered hsome | started hsome | again hsome | waiting hsome | refused hsome | stuck hsome =>
    cases hsome

theorem stepped (h : (running m).Marked marks) (hstep : m.Stepped o) :
    o.Marked (fit o.machine.frames.length (mark m.fetches? marks)) := by
  obtain ⟨s, frames, pending, depth, limit⟩ := m
  cases h with
  | calling hpending h =>
    cases hpending
    exact called rfl h hstep
  | executing hpending hframes h =>
    cases hpending
    cases hframes
    exact executed _ h hstep

theorem begun (hframes : m.frames = []) (hbegun : m.Begun o) :
    o.Marked (fit o.machine.frames.length []) := by
  obtain ⟨s, frames, pending, depth, limit⟩ := m
  cases hframes
  cases hbegun with
  | call => exact .calling rfl .nil
  | answered => exact .returned rfl
  | failed => exact .raise_fit _ _ _

/-- A fault that a step raises has the line of the instruction that is being executed. -/
theorem line_of_stepped {m' : Machine} {φ : Fault} {line : Option Nat}
    (h : (Outcome.running m).Marked marks) (hstep : m.Stepped o) (ho : o = .failed ⟨φ, line⟩ m') :
    Layer.Placed ⟨m.frames, mark m.fetches? marks, none⟩ ∧
      line = (Layer.spot? ⟨m.frames, mark m.fetches? marks, none⟩).map Spot.line := by
  obtain ⟨s, frames, pending, depth, limit⟩ := m
  cases hstep with
  | answered | left => exact absurd ho (Machine.deliver_ne_failed _ _ _ _)
  | started | again | waiting | stuck | next | call | rested => cases ho
  | refused hsome =>
    cases hsome
    cases h with
    | calling _ h => exact ⟨h.placed, (Machine.line_of_raise ho).trans h.line_eq⟩
    | executing hnone => cases hnone
  | failed hnone hframes hlt =>
    cases hnone
    cases hframes
    cases h with
    | calling hsome => cases hsome
    | executing =>
      rw [Machine.mark_executing hlt]
      exact ⟨rfl, Machine.line_of_raise ho⟩

end Outcome.Marked

theorem Layer.Waits.line_of_resume {m m' : Machine} {marks : List (Option Nat)} {line : Option Nat}
    {φ : Fault} (h : Waits ⟨m.frames, marks, none⟩) {a : Except Fault Value}
    (ho : m.resume a = .failed ⟨φ, line⟩ m') :
    line = (Layer.spot? ⟨m.frames, marks, none⟩).map Spot.line := by
  cases a with
  | ok v => exact absurd ho (m.deliver_ne_failed v _ _)
  | error e => exact (Machine.line_of_raise ho).trans h.line_eq

theorem Machine.Begun.line_eq_none {m m' : Machine} {o : Outcome} {φ : Fault} {line : Option Nat}
    (hframes : m.frames = []) (hbegun : m.Begun o) (ho : o = .failed ⟨φ, line⟩ m') :
    line = none := by
  cases hbegun with
  | call => cases ho
  | answered => exact absurd ho (Machine.deliver_ne_failed _ _ _ _)
  | failed =>
    have := Machine.line_of_raise ho
    simpa only [hframes, List.head?_nil, Option.map_none] using this

namespace Situation

/-- The marks, with the instruction that a step would execute now. -/
def currentMarks (σ : Situation) : List (Option Nat) :=
  match σ.outcome with
  | .running m => mark m.fetches? σ.marks
  | _ => σ.marks

/-- The calls of the innermost task, and below them those that wait for functions of the embedding
program. -/
def layers (σ : Situation) : List Layer :=
  ⟨σ.machine.frames, σ.currentMarks, none⟩ :: σ.below

/-- The instruction that is being executed, in the innermost call there is. -/
def spot? (σ : Situation) : Option Spot :=
  σ.layers.findSome? Layer.spot?

theorem live_eq_flatMap (σ : Situation) : σ.live = σ.layers.flatMap Layer.frames := rfl

/-- The marks are those of the calls in progress, also of those that wait for functions of the
embedding program. -/
structure Marked (σ : Situation) : Prop where
  outcome : σ.outcome.Marked σ.marks
  below : ∀ l ∈ σ.below, l.Waits

variable {host : Host} {σ σ' : Situation} {a : Act} {φ : Fault}

theorem marked_start (store : Store) (limit : Nat) : (start store limit).Marked :=
  ⟨.returned rfl, fun _ h => absurd h List.not_mem_nil⟩

theorem Marked.act (h : σ.Marked) (hact : σ.act host a = some σ') : σ'.Marked := by
  obtain ⟨ho, hbelow⟩ := h
  cases acted_of_act hact with
  | @step m => exact ⟨.stepped ho (m.step_stepped host), hbelow⟩
  | @answer _ _ _ _ a =>
    refine ⟨?_, hbelow⟩
    cases ho with
    | waiting hpending hwaits =>
      cases a with
      | ok v => exact .deliver_fit hpending hwaits v
      | error e => exact .raise_fit _ _ _
  | @begin _ m _ _ t hidle =>
    obtain ⟨hframes, hmarks⟩ := ho.idle hidle
    cases hmarks
    exact ⟨.begun hframes (m.start_begun t), hbelow⟩
  | @change _ m _ _ _ hidle =>
    obtain ⟨hframes, hmarks⟩ := ho.idle hidle
    cases hmarks
    refine ⟨?_, hbelow⟩
    show (Outcome.returned _ _).Marked (fit m.frames.length [])
    rw [hframes]
    exact .returned rfl
  | takeOver hcalls =>
    refine ⟨.returned rfl, List.forall_mem_cons.2 ⟨?_, hbelow⟩⟩
    cases ho with
    | calling _ hwaits => exact hwaits
    | executing hpending =>
      unfold Machine.callsHost at hcalls
      rw [hpending] at hcalls
      cases hcalls
  | @reply _ _ _ layer _ a =>
    obtain ⟨hlayer, hbelow'⟩ := List.forall_mem_cons.1 hbelow
    have hlayer : Waits ⟨layer.frames, layer.marks, none⟩ := hlayer
    refine ⟨?_, hbelow'⟩
    cases a with
    | ok v => exact .deliver_fit rfl hlayer _
    | error e => exact .failWith_fit _ _ _

/-- The act raises a fault: the task fails with it. A function of the embedding program raises one
if it replies with an error that it has not got from the machine and so has no line. -/
def Raises (host : Host) (σ : Situation) (a : Act) (φ : Fault) (σ' : Situation) : Prop :=
  σ.act host a = some σ' ∧ (∃ line m, σ'.outcome = .failed ⟨φ, line⟩ m) ∧ ∀ e,
    a = .reply (.error e) → e.line = none

/-- The error that a task has failed with is passed on by functions of the embedding program, one
after the other. Before it replies with the error, each of them may do whatever it likes. -/
inductive Passes (host : Host) (σ : Situation) : Situation → Prop where
  | here : Passes host σ σ
  | on {σ₁ σ₂ σ₃ : Situation} {e : RuntimeError} {m : Machine} (acts : List Act) :
      Passes host σ σ₁ → σ₁.outcome = .failed e m →
        runAbove host σ₁.below.length acts σ₁ = some σ₂ →
      σ₂.below.length = σ₁.below.length → σ₂.act host (.reply (.error e)) = some σ₃ →
        Passes host σ σ₃

theorem Marked.layers_idle (h : σ.Marked) {m : Machine} (hidle : σ.outcome.idle? = some m) :
    σ.layers = ⟨[], [], none⟩ :: σ.below := by
  obtain ⟨o, marks, below⟩ := σ
  obtain ⟨hframes, rfl⟩ := h.outcome.idle hidle
  cases o with
  | returned | failed =>
    cases hidle
    exact congrArg (⟨·, [], none⟩ :: below) hframes
  | running | waiting | stuck => cases hidle

/-- A fault has ended the innermost calls, and comes with the line of what was being executed in
them. -/
def Reaches (φ : Fault) (layers : List Layer) (σ : Situation) : Prop :=
  ∃ ended m, layers = ended ++ σ.below ∧
    σ.outcome = .failed ⟨φ, (ended.findSome? Layer.spot?).map Spot.line⟩ m

theorem Marked.replies (h : σ.Marked) {e : RuntimeError}
    (hact : σ.act host (.reply (.error e)) = some σ') :
    ∃ layer m, σ.below = layer :: σ'.below ∧ σ.layers = ⟨[], [], none⟩ :: σ.below ∧
      σ'.outcome = .failed ⟨e.fault, e.line.or (layer.spot?.map Spot.line)⟩ m := by
  cases acted_of_act hact with
  | @reply _ m _ layer _ _ hidle =>
    have hwaits : layer.Waits := h.below layer List.mem_cons_self
    exact ⟨layer, _, rfl, h.layers_idle hidle,
      Machine.failWith_eq (m := ⟨m.store, layer.frames, none, m.depth, m.limit⟩) hwaits rfl e⟩

theorem Marked.raises_inside (h : σ.Marked) {l : Layer} {m : Machine}
    (hlayers : σ.layers = l :: σ.below) (hbelow : σ'.below = σ.below) (hplaced : l.Placed)
    (ho : σ'.outcome = .failed ⟨φ, l.spot?.map Spot.line⟩ m) :
    (∀ l ∈ σ.layers, l.Placed) ∧ Reaches φ σ.layers σ' := by
  rw [hlayers]
  refine ⟨List.forall_mem_cons.2 ⟨hplaced, fun l hl => (h.below l hl).placed⟩, [l], m, ?_, ?_⟩
  · rw [hbelow, List.singleton_append]
  · rw [List.findSome?_singleton]
    exact ho

/-- When a fault is raised, the innermost call is executing an instruction, and the fault gets its
line unless a function of the embedding program comes before the call. -/
theorem Marked.raises (h : σ.Marked) (hraises : σ.Raises host a φ σ') :
    (∀ l ∈ σ.layers, l.Placed) ∧ Reaches φ σ.layers σ' := by
  obtain ⟨hact, ⟨line, m', ho⟩, hline⟩ := hraises
  have hmarked := h.outcome
  cases acted_of_act hact with
  | @step m =>
    obtain ⟨hplaced, rfl⟩ := hmarked.line_of_stepped (m.step_stepped host) ho
    exact h.raises_inside rfl rfl hplaced ho
  | answer =>
    cases hmarked with
    | waiting _ hwaits =>
      cases hwaits.line_of_resume ho
      exact h.raises_inside rfl rfl hwaits.placed ho
  | @begin _ m _ _ t hidle =>
    cases (m.start_begun t).line_eq_none (hmarked.idle hidle).1 ho
    exact h.raises_inside (h.layers_idle hidle) rfl (placed_nil []) ho
  | change | takeOver => cases ho
  | @reply _ _ _ layer _ a =>
    cases a with
    | ok v => exact absurd ho (Machine.deliver_ne_failed _ _ _ _)
    | error e =>
      obtain ⟨layer', m, hbelow, hlayers, ho'⟩ := h.replies hact
      cases hbelow
      have hfault : e.fault = φ := by
        rw [ho'] at ho
        cases ho
        rfl
      rw [hlayers]
      refine ⟨List.forall_mem_cons.2 ⟨placed_nil [], fun l hl => (h.below l hl).placed⟩,
        [⟨[], [], none⟩, layer], m, rfl, ?_⟩
      rw [ho', hfault, hline e rfl, Option.none_or, ← List.findSome?_singleton (f := Layer.spot?)]
      rfl

/-- What a fault has got on its way it keeps, and what it has not got it gets from the next calls
that it ends. -/
theorem Marked.passes {layers : List Layer} (h : σ.Marked) (hreaches : Reaches φ layers σ)
    (hpasses : Passes host σ σ') : σ'.Marked ∧ Reaches φ layers σ' := by
  induction hpasses with
  | here => exact ⟨h, hreaches⟩
  | on acts _ hfailed hrun hlength hact ih =>
    obtain ⟨h₁, ended, m, hlayers, ho⟩ := ih
    have h₂ := runAbove_induction (P := Marked) (fun h hact => h.act hact) h₁ hrun
    refine ⟨h₂.act hact, ?_⟩
    obtain ⟨layer, m', hbelow, _, ho'⟩ := h₂.replies hact
    rw [hfailed] at ho
    cases ho
    refine ⟨ended ++ [layer], m', ?_, ?_⟩
    · rw [hlayers, ← below_eq_of_runAbove hrun hlength, hbelow, List.append_assoc,
        List.singleton_append]
    · rw [ho', List.findSome?_append, List.findSome?_singleton, Option.map_or]

end Situation

open Situation

/-- Wherever a run has got to, and whatever then raises a fault: the instruction that is being
executed is one of the innermost call, and the error arrives with the line that the table has for
it, however many calls the fault ends and functions of the embedding program pass it on. -/
theorem fault_located (host : Host) (store : Store) (n : Nat) (acts : List Act)
    {σ σ' σ'' : Situation} {a : Act} {φ : Fault} (hrun : run host acts (start store n) = some σ)
    (hraises : σ.Raises host a φ σ') (hpasses : Passes host σ' σ'')
    (hout : σ''.below = [] ∨ σ''.live.length < σ.live.length) :
    σ.spot?.map Spot.frame = σ.live.head? ∧ ∃ m,
      σ''.outcome = .failed ⟨φ, σ.spot?.map Spot.line⟩ m := by
  have hmarked : σ.Marked :=
    runAbove_induction (P := Marked) (fun h hact => h.act hact) (marked_start store n) hrun
  obtain ⟨hplaced, hreaches⟩ := hmarked.raises hraises
  obtain ⟨hmarked'', ended, m, hlayers, ho⟩ := (hmarked.act hraises.1).passes hreaches hpasses
  refine ⟨frame_findSome? hplaced, m, ?_⟩
  rcases hout with hbelow | hlive
  · rw [hbelow, List.append_nil] at hlayers
    rw [Situation.spot?, hlayers]
    exact ho
  · -- some call has ended, and the innermost one is among those that have
    have hidle'' : σ''.outcome.idle? = some m := congrArg Outcome.idle? ho
    have hlive'' := live_of_idle hidle'' (hmarked''.outcome.idle hidle'').1
    rw [live_eq_flatMap σ, hlayers, List.flatMap_append, List.length_append, ← hlive''] at hlive
    cases hspot : ended.findSome? Layer.spot? with
    | some spot =>
      rw [Situation.spot?, hlayers, List.findSome?_append, hspot, Option.some_or]
      rw [hspot] at ho
      exact ho
    | none =>
      have hhead := frame_findSome? fun l hl => hplaced l (hlayers ▸ List.mem_append_left _ hl)
      rw [hspot] at hhead
      rw [List.head?_eq_none_iff.1 hhead.symm, List.length_nil] at hlive
      omega

/-- A call that is one too many, in the task of a function that passes the error on: the line is
that of the call of the function. -/
theorem fault_located_nested :
    ∃ σ σ' σ'' m, run noHost (.begin .asking :: Act.nested) (start .hosting 1) = some σ ∧
      σ.Raises noHost .step (.callDepthExceeded 1) σ' ∧ Passes noHost σ' σ'' ∧ σ'.below ≠ [] ∧
        σ''.below = [] ∧
      σ.spot?.map Spot.index = some 1 ∧ σ''.outcome = .failed ⟨.callDepthExceeded 1, some 4⟩ m := by
  obtain ⟨σ, σ', σ'', hrun, hraises, hpasses, hbelow', hbelow, hindex, hline⟩ :
      ∃ σ σ' σ'', run noHost (.begin .asking :: Act.nested) (start .hosting 1) = some σ ∧
        σ.Raises noHost .step (.callDepthExceeded 1) σ' ∧ Passes noHost σ' σ'' ∧ σ'.below ≠ [] ∧
          σ''.below = [] ∧
        σ.spot?.map Spot.index = some 1 ∧ σ.spot?.map Spot.line = some 4 := by
    refine ⟨_, _, _, rfl, ⟨rfl, ⟨_, _, rfl⟩, ?_⟩, .on [] .here rfl rfl rfl rfl, ?_, rfl, rfl, rfl⟩
    · intro e he
      cases he
    · exact List.cons_ne_nil _ _
  obtain ⟨_, m, ho⟩ := fault_located noHost .hosting 1 _ hrun hraises hpasses (.inl hbelow)
  rw [hline] at ho
  exact ⟨σ, σ', σ'', m, hrun, hraises, hpasses, hbelow', hbelow, hindex, ho⟩

end Refscript
