import Refscript.Proofs.Machine.Embedding
import Refscript.Proofs.Machine.World

/-!
# Refscript.Proofs.Machine.CallDepth

The number of calls in progress, as a machine counts it.

* `Machine.Tallies`: the count is right, with so many calls waiting below, and within the limit.
* `Outcome.Counted.stepped`: what a step keeps of that; `Situation.Counted.act`: what an embedding
  program can do keeps it too, also by functions that have the machine call back and go on after
  errors.
* `step_refused_iff`: a call of a function is refused for its depth exactly if the limit is reached.
* `call_depth_exact`: the count at every moment, at the limit, and after every task.
-/

namespace Refscript

/-- The machine counts its calls in progress and `base` others, and they are within the limit. -/
structure Machine.Tallies (base most : Nat) (m : Machine) :
    Prop extends Machine.Counts base most m where
  bound : m.depth ≤ most

/-- The machine's count is right, and at rest it has no calls in progress. -/
structure Outcome.Counted (base most : Nat) (o : Outcome) :
    Prop extends Machine.Tallies base most o.machine where
  rest : ∀ m, o.idle? = some m → m.frames = []

namespace Outcome.Counted

variable {base limit : Nat} {m : Machine} {o : Outcome}

theorem running (h : m.Tallies base limit) : (running m).Counted base limit :=
  ⟨h, fun _ hidle => absurd hidle (Option.some_ne_none _).symm⟩

theorem unwind (h : m.Tallies base limit) :
    m.unwind.Tallies base limit ∧ m.unwind.frames = [] := by
  obtain ⟨s, hs⟩ := m.unwind_eq
  have hdepth := h.depth
  have hbound := h.bound
  rw [hs]
  refine ⟨⟨⟨?_, h.limit⟩, ?_⟩, rfl⟩
  · show m.depth - m.frames.length = base + 0
    omega
  · show m.depth - m.frames.length ≤ limit
    omega

theorem failed (h : m.Tallies base limit) (e : RuntimeError) :
    (failed e m.unwind).Counted base limit := by
  obtain ⟨htallies, hframes⟩ := unwind h
  refine ⟨htallies, ?_⟩
  rintro m' hm'
  cases hm'
  exact hframes

theorem raise (h : m.Tallies base limit) (e : Fault) : (m.raise e).Counted base limit := by
  refine m.raise_cases e ⟨(unwind h).1, ?_⟩ (.failed h _)
  rintro m' hm'
  cases hm'

theorem deliver (h : m.Tallies base limit) (v : Value) : (m.deliver v).Counted base limit := by
  obtain ⟨s, frames, pending, depth, l⟩ := m
  cases frames with
  | nil =>
    refine ⟨h, ?_⟩
    rintro m' hm'
    cases hm'
    rfl
  | cons f rest => exact .running ⟨⟨h.depth, h.limit⟩, h.bound⟩

/-- A step starts at most one call, and only below the limit; it ends one call, or all of them with
a fault. -/
theorem stepped (h : m.Tallies base limit) (hstep : m.Stepped o) : o.Counted base limit := by
  have hlimit := h.limit
  have hdepth := h.depth
  have hbound := h.bound
  have hsame : ∀ s p, Machine.Tallies base limit ⟨s, m.frames, p, m.depth, m.limit⟩ :=
    fun _ _ => ⟨⟨hdepth, hlimit⟩, hbound⟩
  cases hstep with
  | answered => exact .deliver (hsame _ _) _
  | started _ hlt =>
    refine .running ⟨⟨?_, hlimit⟩, ?_⟩
    · simp only [List.length_cons]
      omega
    · simp only
      omega
  | again => exact .running (hsame _ _)
  | waiting | stuck => exact ⟨hsame _ _, fun _ hidle => absurd hidle (Option.some_ne_none _).symm⟩
  | refused => exact .raise (hsame _ _) _
  | next _ hframes | call _ hframes =>
    rw [hframes] at hdepth
    exact .running ⟨⟨hdepth, hlimit⟩, hbound⟩
  | failed _ hframes =>
    rw [hframes] at hdepth
    refine .raise ?_ _
    exact ⟨⟨hdepth, hlimit⟩, hbound⟩
  | left _ hframes =>
    rw [hframes, List.length_cons] at hdepth
    refine .deliver (m := ⟨_, _, none, m.depth - 1, m.limit⟩) ⟨⟨?_, hlimit⟩, ?_⟩ _
    · simp only
      omega
    · simp only
      omega
  | rested _ hframes =>
    refine ⟨h, ?_⟩
    rintro m' hm'
    cases hm'
    exact hframes

theorem resume (h : m.Tallies base limit) (a : Except Fault Value) :
    (m.resume a).Counted base limit := by
  cases a with
  | ok v => exact .deliver h v
  | error e => exact .raise h _

theorem conclude (h : m.Tallies base limit) (a : Except RuntimeError Value) :
    (m.conclude a).Counted base limit := by
  cases a with
  | ok v => exact .deliver h v
  | error e => exact .failed h _

theorem begun (h : m.Tallies base limit) (hbegun : m.Begun o) : o.Counted base limit := by
  have hsame : ∀ s p, Machine.Tallies base limit ⟨s, m.frames, p, m.depth, m.limit⟩ :=
    fun _ _ => ⟨⟨h.depth, h.limit⟩, h.bound⟩
  cases hbegun with
  | call => exact .running (hsame _ _)
  | answered => exact .deliver (hsame _ _) _
  | failed => exact .raise (hsame _ _) _

end Outcome.Counted

namespace Situation

/-- The machine's count is right, the calls that wait for functions of the embedding program
included. -/
def Counted (limit : Nat) (σ : Situation) : Prop :=
  σ.outcome.Counted (σ.below.flatMap Layer.frames).length limit

variable {host : Host} {limit : Nat} {σ σ' : Situation} {a : Act}

theorem counted_start (store : Store) (limit : Nat) : (start store limit).Counted limit := by
  refine ⟨⟨⟨rfl, rfl⟩, Nat.zero_le _⟩, ?_⟩
  rintro m hm
  cases hm
  rfl

theorem Counted.act (h : σ.Counted limit) (hact : σ.act host a = some σ') : σ'.Counted limit := by
  -- at rest, whatever the task came to
  have hrest : ∀ m, σ.outcome.idle? = some m →
      m.frames = [] ∧ m.Tallies (σ.below.flatMap Layer.frames).length limit := by
    intro m hidle
    refine ⟨h.rest m hidle, ?_⟩
    rw [← Outcome.machine_of_idle? hidle]
    exact h.toTallies
  cases acted_of_act hact with
  | @step m => exact .stepped h.toTallies (m.step_stepped host)
  | answer => exact .resume h.toTallies _
  | @begin _ m _ _ t hidle => exact .begun (hrest m hidle).2 (m.start_begun t)
  | change hidle =>
    obtain ⟨hframes, hm⟩ := hrest _ hidle
    refine ⟨⟨⟨hm.depth, hm.limit⟩, hm.bound⟩, ?_⟩
    rintro m' hm'
    cases hm'
    exact hframes
  | @takeOver m _ below =>
    have hdepth : m.depth = (below.flatMap Layer.frames).length + m.frames.length := h.depth
    refine ⟨⟨⟨?_, h.limit⟩, h.bound⟩, ?_⟩
    · show m.depth = (m.frames ++ below.flatMap Layer.frames).length + 0
      rw [List.length_append]
      omega
    · rintro m' hm'
      cases hm'
      rfl
  | @reply _ m _ layer below a hidle =>
    obtain ⟨hframes, hm⟩ := hrest m hidle
    refine .conclude (m := ⟨m.store, layer.frames, none, m.depth, m.limit⟩)
      ⟨⟨?_, hm.limit⟩, hm.bound⟩ _
    have hdepth := hm.depth
    rw [hframes, List.flatMap_cons, List.length_append, List.length_nil] at hdepth
    show m.depth = (below.flatMap Layer.frames).length + layer.frames.length
    omega

theorem Counted.depth_eq (h : σ.Counted limit) : σ.machine.depth = σ.live.length := by
  rw [live, List.length_append, Nat.add_comm]
  exact h.depth

/-- The machine is at rest, and gets a task that it sees through, after which the embedding program
is where it was. -/
def SeesThrough (host : Host) (σ : Situation) (t : Task) (σ' : Situation) : Prop :=
  ∃ acts, runAbove host σ.below.length (.begin t :: acts) σ = some σ' ∧ (σ'.outcome.idle?).isSome ∧
    σ'.below.length = σ.below.length

theorem Counted.live_of_idle (h : σ.Counted limit) (hidle : (σ.outcome.idle?).isSome) :
    σ.live = σ.below.flatMap Layer.frames := by
  obtain ⟨m, hm⟩ := Option.isSome_iff_exists.1 hidle
  exact Situation.live_of_idle hm (h.rest m hm)

end Situation

/-- A call of the value runs the function: the value is the function, or a type that the function
sets up objects of, or an object of a type that has the function for calls. -/
def Store.Enters (s : Store) (callee : Value) (id : ClosureId) : Prop :=
  s.target? callee = some id ∧ ∀ t, s.deref callee = .ok (.type t) → (s.type t).instantiable = true

/-- The two are the same, but for the object that a constructor is to set up. -/
def Store.Prepares (s t : Store) : Prop :=
  t = s ∨ ∃ type, t = (s.addObject ⟨type, .empty⟩).2

namespace Machine

variable (host : Host) {s : Store} (fs : List Frame) {c : Call} {id : ClosureId} (depth limit : Nat)

theorem step_eq_start (h : s.Enters c.callee id) :
    ∃ t this result, s.Prepares t ∧ step host ⟨s, fs, some c, depth, limit⟩ =
      start ⟨t, fs, none, depth, limit⟩ (s.closure id) this c.args result := by
  obtain ⟨htarget, htype⟩ := h
  unfold Store.target? at htarget
  show ∃ t this result, _ ∧ enter host ⟨s, fs, none, depth, limit⟩ c = _
  unfold enter
  split at htarget
  · rename_i id' hid
    cases htarget
    refine ⟨s, c.this, c.result, .inl rfl, ?_⟩
    simp only [hid]
  · rename_i type hid
    obtain ⟨f, hctor, hf⟩ := Option.bind_eq_some_iff.1 htarget
    obtain rfl := Value.eq_closure_of_closure? hf
    refine ⟨(s.addObject ⟨type, .empty⟩).2, some (.object s.objects.size),
      some (c.result.getD (.object s.objects.size)), .inr ⟨type, rfl⟩, ?_⟩
    simp only [hid, instantiate, htype type hid, Bool.not_true, Bool.false_eq_true, if_false, hctor]
    rfl
  · rename_i object hid
    obtain ⟨f, hinvoke, hf⟩ := Option.bind_eq_some_iff.1 htarget
    obtain rfl := Value.eq_closure_of_closure? hf
    refine ⟨s, some (.object object), c.result, .inl rfl, ?_⟩
    simp only [hid, hinvoke, callMember]
  · cases htarget

/-- At the limit a call of a function is refused before anything else is looked at, and never below
the limit. -/
theorem start_refused (m : Machine) (closure : Closure) (this : Option Value) (args : List Value)
    (result : Option Value) :
    (m.limit ≤ m.depth → m.start closure this args result = m.raise (.callDepthExceeded m.limit)) ∧
      (m.depth < m.limit → ∀ e m', m.start closure this args result = .failed e m' →
        e.fault ≠ .callDepthExceeded m.limit) := by
  obtain ⟨s, frames, pending, depth, limit⟩ := m
  unfold start
  dsimp only
  refine ⟨fun hle => if_pos hle, fun hlt e m' hfailed => ?_⟩
  rw [if_neg (Nat.not_le.2 hlt)] at hfailed
  split at hfailed
  · cases hfailed
    exact fun h => Fault.noConfusion h
  · split at hfailed
    · cases hfailed
    · cases hfailed

theorem step_refused_iff (h : s.Enters c.callee id) :
    (∃ line m', step host ⟨s, fs, some c, depth, limit⟩ =
      .failed ⟨.callDepthExceeded limit, line⟩ m') ↔ limit ≤ depth := by
  obtain ⟨t, this, result, _, hstep⟩ := step_eq_start host fs depth limit h
  obtain ⟨hat, hbelow⟩ :=
    start_refused ⟨t, fs, none, depth, limit⟩ (s.closure id) this c.args result
  rw [hstep]
  constructor
  · rintro ⟨line, m', hfailed⟩
    exact Nat.le_of_not_lt fun hlt => hbelow hlt _ _ hfailed rfl
  · intro hle
    exact ⟨_, _, hat hle⟩

end Machine

open Situation

/-- At every moment the machine's count of its calls is right and within the limit `n`. A call of a
function is refused for its depth exactly if `n` calls are in progress, and then nothing of the
function is executed. After every task the count is what it was before, whatever came of the task
and of the functions of the embedding program that it called. -/
theorem call_depth_exact (host : Host) (store : Store) (n : Nat) (acts : List Act) {σ : Situation}
    (hrun : run host acts (start store n) = some σ) :
    σ.machine.limit = n ∧ σ.machine.depth = σ.live.length ∧ σ.live.length ≤ n ∧
    (∀ m c id, σ.outcome = .running m → m.pending = some c → m.store.Enters c.callee id →
      ((∃ line m', m.step host = .failed ⟨.callDepthExceeded n, line⟩ m') ↔ σ.live.length = n) ∧
      (σ.live.length = n → ∃ s, m.store.Prepares s ∧
        m.step host = Machine.raise ⟨s, m.frames, none, m.depth, m.limit⟩ (.callDepthExceeded n))) ∧
    (∀ t σ', σ.SeesThrough host t σ' → σ'.machine.depth = σ.machine.depth) := by
  have hcounted : σ.Counted n :=
    runAbove_induction (P := Counted n) (fun h hact => h.act hact) (counted_start store n) hrun
  have hdepth := hcounted.depth_eq
  have hbound : σ.machine.depth ≤ n := hcounted.bound
  refine ⟨hcounted.limit, hdepth, by omega, ?_, ?_⟩
  · rintro m c id ho hpending henters
    have hm : σ.machine = m := congrArg Outcome.machine ho
    have hlimit : m.limit = n := hm ▸ hcounted.limit
    rw [hm] at hdepth hbound
    obtain ⟨s, fs, pending, depth, limit⟩ := m
    cases hpending
    cases hlimit
    have hcount : limit ≤ depth ↔ σ.live.length = limit := by
      have hdepth' : depth = σ.live.length := hdepth
      have hbound' : depth ≤ limit := hbound
      omega
    refine ⟨(Machine.step_refused_iff host fs depth limit henters).trans hcount, fun hfull => ?_⟩
    obtain ⟨t, this, result, hprepares, hstep⟩ := Machine.step_eq_start host fs depth limit henters
    refine ⟨t, hprepares, ?_⟩
    rw [hstep]
    exact (Machine.start_refused ⟨t, fs, none, depth, limit⟩ _ _ _ _).1 (hcount.2 hfull)
  · rintro t σ' ⟨acts', hrun', hidle', hlength⟩
    have hcounted' : σ'.Counted n :=
      runAbove_induction (P := Counted n) (fun h hact => h.act hact) hcounted hrun'
    have hidle : (σ.outcome.idle?).isSome := by
      simp only [runAbove, Situation.act] at hrun'
      cases hm : σ.outcome.idle? with
      | some m => rfl
      | none =>
        rw [hm] at hrun'
        cases hrun'
    rw [hcounted'.depth_eq, hdepth, hcounted'.live_of_idle hidle', hcounted.live_of_idle hidle,
      below_eq_of_runAbove hrun' hlength]

/-- With one call allowed, the function's own task fails, and the function replies all the same. -/
theorem call_depth_exact_nested :
    (∃ σ m, run noHost (.begin .asking :: Act.nested) (start .hosting 1) = some σ ∧
      σ.outcome = .running m ∧
      σ.live.length = 1 ∧ ∃ line m', m.step noHost = .failed ⟨.callDepthExceeded 1, line⟩ m') ∧
    ∃ σ, (start .hosting 1).SeesThrough noHost .asking σ ∧ σ.machine.depth = 0 := by
  constructor
  · obtain ⟨_, _, _, hcall, _⟩ :=
      call_depth_exact noHost .hosting 1 (.begin .asking :: Act.nested) rfl
    refine ⟨_, _, rfl, rfl, rfl, ?_⟩
    refine (hcall _ _ 1 rfl rfl ⟨rfl, ?_⟩).1.2 rfl
    intro t ht
    cases ht
  · obtain ⟨_, _, _, _, hafter⟩ := call_depth_exact noHost .hosting 1 [] rfl
    obtain ⟨σ, hσ⟩ : ∃ σ, (start .hosting 1).SeesThrough noHost .asking σ := by
      refine ⟨_, Act.nested ++ [.step, .reply (.ok .null), .step, .step], rfl, ?_⟩
      exact ⟨rfl, rfl⟩
    exact ⟨σ, hσ, hafter .asking σ hσ⟩

end Refscript
