import Refscript.Proofs.Code.Operands
import Refscript.Proofs.Code.Words
import Refscript.Proofs.Machine.Run
import Refscript.Proofs.Machine.World
import Refscript.Proofs.Semantics.Evaluator

/-!
# Refscript.Proofs.Semantics.Simulation

How a run of a program's code carries out an evaluation. `Scene.Realizes n c r post` says it of one
evaluation with result `r` and a run that starts in `c`: the run comes to where `post` says if there
is a value, to the end of the code with the value if the program returns, to the same fault with the
same store and world; and if the evaluation is exhausted, the run does not end within `n` moves.

There is one lemma for instructions (`realizes_insn`) and one for instructions that have something
called (`realizes_task`).
-/

namespace Refscript

/-- The method `append` of lists is the provided one. -/
def Store.appendsLists (s : Store) : Bool :=
  match (s.type Kind.list.typeId).methods.get? "append" with
  | some (.callback id) => (s.callback id).native == .method .listAppend
  | _ => false

/-- The call of a program's code that is to carry out an evaluation. -/
structure Scene (ω : Type) extends Evaluator ω where
  closure : Closure
  activation : ActivationId

namespace Scene

variable {ω α β : Type} (S : Scene ω)

def code : Prototype := S.closure.prototype

/-- The call at an offset. -/
def frame (i : Nat) (stack : List Value) : Frame :=
  ⟨S.closure, none, S.activation, stack, i, [], none⟩

/-- The machine with this call in progress alone, and the world. -/
def point (i : Nat) (stack : List Value) (s : Store × ω) : Outcome × ω :=
  (.running ⟨s.1, [S.frame i stack], none, S.depth, S.limit⟩, s.2)

def after (n : Nat) (c : Outcome × ω) : Outcome × ω :=
  Outcome.after S.terminal S.host n c

def Realizes (n : Nat) (c : Outcome × ω) (r : EStateM.Result Stop (Store × ω) α)
    (post : α → Store × ω → Outcome × ω) : Prop :=
  (∀ k, (S.after k c).1.machine.store.appendsLists = true) →
    match r with
    | .ok a s => ∃ k, S.after k c = post a s
    | .error (.ret v) s => ∃ k, S.after k c = S.point S.code.code.size [v] s
    | .error (.fault e) s => ∃ k r m, S.after k c = (.failed r m, s.2) ∧ r.fault = e ∧ m.store = s.1
    | .error .stuck s => ∃ k m, S.after k c = (.stuck m, s.2) ∧ m.store = s.1
    | .error .exhausted _ => (S.after n c).1.ended = false

variable {S} {n k : Nat} {c c' : Outcome × ω} {s : Store × ω} {post : α → Store × ω → Outcome × ω}
  {post' : β → Store × ω → Outcome × ω}

theorem after_trans {j : Nat} {c'' : Outcome × ω} (h : S.after k c = c') (h' : S.after j c' = c'') :
    S.after (k + j) c = c'' := by
  rw [after, Outcome.after_add]
  exact (congrArg (S.after j) h).trans h'

theorem Realizes.pure {a : α} (h : c = post a s) : S.Realizes n c (EStateM.Result.ok a s) post :=
  fun _ => ⟨0, h⟩

theorem Realizes.moves {r : EStateM.Result Stop (Store × ω) α} (hmoves : S.after k c = c')
    (h : S.Realizes n c' r post) : S.Realizes (k + n) c r post := by
  intro hlists
  have hadd : ∀ j, S.after (k + j) c = S.after j c' := fun j => after_trans hmoves rfl
  have h := h fun j => by
    rw [← hadd]
    exact hlists (k + j)
  match r, h with
  | .ok a s, ⟨j, hj⟩ => exact ⟨k + j, (hadd j).trans hj⟩
  | .error (.ret v) s, ⟨j, hj⟩ => exact ⟨k + j, (hadd j).trans hj⟩
  | .error (.fault e) s, ⟨j, r, m, hj, hrest⟩ => exact ⟨k + j, r, m, (hadd j).trans hj, hrest⟩
  | .error .stuck s, ⟨j, m, hj, hrest⟩ => exact ⟨k + j, m, (hadd j).trans hj, hrest⟩
  | .error .exhausted s, h =>
    rw [← hadd] at h
    exact h

theorem Realizes.mono {r : EStateM.Result Stop (Store × ω) α} (hle : k ≤ n)
    (h : S.Realizes n c r post) : S.Realizes k c r post := by
  intro hlists
  match r, h hlists with
  | .ok a s, h => exact h
  | .error (.ret v) s, h => exact h
  | .error (.fault e) s, h => exact h
  | .error .stuck s, h => exact h
  | .error .exhausted s, h => exact Outcome.ended_anti hle h

theorem Realizes.steps {r : EStateM.Result Stop (Store × ω) α} (hmoves : S.after k c = c')
    (h : S.Realizes n c' r post) : S.Realizes n c r post :=
  (h.moves hmoves).mono (Nat.le_add_left n k)

theorem Realizes.bind {x : Eval ω α} {f : α → Eval ω β} (hx : S.Realizes n c (x s) post)
    (hf : ∀ a t, x s = .ok a t → S.Realizes n (post a t) (f a t) post') :
    S.Realizes n c ((x >>= f) s) post' := by
  intro hlists
  have hx := hx hlists
  simp only [Bind.bind, EStateM.bind]
  match x s, hx, hf with
  | .ok a t, ⟨k, hk⟩, hf => exact (hf a t rfl).steps hk hlists
  | .error (.ret v) t, h, _ => exact h
  | .error (.fault e) t, h, _ => exact h
  | .error .stuck t, h, _ => exact h
  | .error .exhausted t, h, _ => exact h

theorem Realizes.trail {r : EStateM.Result Stop (Store × ω) α} {post' : α → Store × ω → Outcome × ω}
    (h : S.Realizes n c r post)
    (hpost : ∀ a s, r = .ok a s → ∃ k, S.after k (post a s) = post' a s) :
    S.Realizes n c r post' := by
  intro hlists
  match r, h hlists, hpost with
  | .ok a s, ⟨k, hk⟩, hpost =>
    obtain ⟨j, hj⟩ := hpost a s rfl
    exact ⟨k + j, after_trans hk hj⟩
  | .error (.ret v) s, h, _ => exact h
  | .error (.fault e) s, h, _ => exact h
  | .error .stuck s, h, _ => exact h
  | .error .exhausted s, h, _ => exact h

variable {i j : Nat} {insn : Insn} {stack : List Value}

theorem after_point (hi : S.code.Carries i insn) (stack : List Value) (s : Store × ω) :
    S.after 1 (S.point i stack s) =
      (match Exec.operation (S.frame (i + 1) stack) insn.pack insn.op s.1 with
      | .ok (.next f) t => .running ⟨t, [f], none, S.depth, S.limit⟩
      | .ok (.call c f) t => .running ⟨t, [f], some c, S.depth, S.limit⟩
      | .error e t =>
        Machine.raise ⟨t, [S.frame (i + 1) stack], none, S.depth, S.limit⟩ e, s.2) := by
  have hword : S.closure.prototype.code[i]? = some insn.pack := hi.word
  have hop : Exec.word (S.frame (i + 1) stack) insn.pack =
      Exec.operation (S.frame (i + 1) stack) insn.pack insn.op := by
    simp only [Exec.word, Insn.op?_pack]
  have hstep : Machine.step S.host ⟨s.1, [S.frame i stack], none, S.depth, S.limit⟩ =
      Machine.execute (S.frame i stack) insn.pack [] s.1 S.depth S.limit := by
    simp only [Machine.step, frame, Frame.prototype, hword]
  rw [← hop]
  exact congrArg (·, s.2) hstep

theorem realizes_raise {t : Store} {stack : List Value} {e : Fault}
    (hmoves : S.after k c =
      (Machine.raise ⟨t, [S.frame i stack], none, S.depth, S.limit⟩ e, s.2)) :
    S.Realizes n c (EStateM.Result.error (Stop.ofFault e) (t, s.2)) post := by
  intro _
  cases e with
  | capacityOverflow => exact ⟨k, _, hmoves, rfl⟩
  | _ => exact ⟨k, _, _, hmoves, rfl, rfl⟩

theorem realizes_insn {a : Action α} {next : α → Nat} {left : α → List Value}
    (hi : S.code.Carries i insn) (hop : Exec.operation (S.frame (i + 1) stack) insn.pack insn.op =
      a >>= fun u => pure (.next (S.frame (next u) (left u)))) :
    S.Realizes n (S.point i stack s) (Evaluator.act a s) fun u s =>
      S.point (next u) (left u) s := by
  have hmove := after_point hi stack s
  rw [hop] at hmove
  simp only [Bind.bind, EStateM.bind] at hmove
  simp only [Evaluator.act]
  cases ha : a s.1 with
  | ok u t =>
    rw [ha] at hmove
    exact fun _ => ⟨1, hmove⟩
  | error e t =>
    rw [ha] at hmove
    exact realizes_raise hmove

theorem realizes_atop {start : Machine → Outcome} {left : List Value}
    (hatop : Outcome.Atop (S.frame j left) S.depth S.limit
      (start ⟨s.1, [], none, S.depth, S.limit⟩) c.1)
    (hworld : s.2 = c.2) :
    S.Realizes S.fuel c (S.task start s) fun v s => S.point j (v :: left) s := by
  intro _
  obtain ⟨k, hdrive, hbound⟩ := Outcome.drive_eq_after S.terminal S.host S.fuel
    (start ⟨s.1, [], none, S.depth, S.limit⟩) s.2
  obtain ⟨k', hatop, hsame, hk⟩ := Outcome.atop_after S.terminal S.host rfl
    (c := (start ⟨s.1, [], none, S.depth, S.limit⟩, s.2)) hatop hworld k
  simp only [Evaluator.task, hdrive]
  generalize Outcome.after S.terminal S.host k (start ⟨s.1, [], none, S.depth, S.limit⟩, s.2) =
    d at *
  obtain ⟨o, w⟩ := d
  generalize hthere : Outcome.after S.terminal S.host k' c = d' at hatop hsame
  obtain ⟨o', w'⟩ := d'
  cases hsame
  cases hatop with
  | returned => exact ⟨k', hthere⟩
  | failed hfault hstore => exact ⟨k', _, _, hthere, hfault, hstore⟩
  | stuck hstore => exact ⟨k', _, hthere, hstore⟩
  | running | waiting =>
    rcases hbound with hle | hend
    · rw [hk rfl] at hthere
      refine Outcome.ended_anti hle ?_
      rw [hthere]
      rfl
    · cases hend

theorem realizes_task {a : Action Applied} {start : Machine → Outcome} {left : List Value}
    (hi : S.code.Carries i insn)
    (hop : Exec.operation (S.frame (i + 1) stack) insn.pack insn.op =
      a >>= fun x => pure (Exec.applied (S.frame (i + 1) left) x))
    (hstart : ∀ m, start m = match a m.store with
      | .ok x t => Machine.afterApplied { m with store := t } x
      | .error e t => Machine.raise { m with store := t } e) :
    S.Realizes S.fuel (S.point i stack s) (S.task start s) fun v s =>
      S.point (i + 1) (v :: left) s := by
  have hmove := after_point hi stack s
  rw [hop] at hmove
  simp only [Bind.bind, EStateM.bind] at hmove
  refine Realizes.steps hmove (realizes_atop ?_ rfl)
  rw [hstart]
  cases ha : a s.1 with
  | error e t => exact Outcome.atop_raise rfl ⟨t, [], none, S.depth, S.limit⟩ e
  | ok x t =>
    cases x with
    | value v => exact .returned
    | call c => exact .running ⟨rfl, rfl⟩ fun h => nomatch h

end Scene
end Refscript
