import Refscript.Machine.Basic
import Refscript.Proofs.Machine.Instruction

/-!
# Refscript.Proofs.Machine.Run

Whole runs of a machine, with any embedding program and any outside world.

* `Outcome.Move` is one step of a machine or one answer to its request; `Outcome.Run` is any number
  of them.
* `enter_called` says what making a call can lead to, `step_executes` what executing an instruction
  can lead to.
* `Stable`: a property that only instructions can destroy (`Machine.step_turns`).
* `Kept`: a property that each kind of move keeps, and so every run (`Kept.run`).
* `Outcome.Run.intact`: a property of functions that passes on to the functions inside them holds of
  every function that a run creates or calls, and every call has the slots that its function asks
  for.
* `Outcome.Move.blames`: where a fault of the machine's own comes from.
-/

namespace Refscript

open Refscript.Action

variable {m m' : Machine} {r : RuntimeError}

/-- The embedding program may answer a call with the fault. -/
def Host.Raises (host : Host) (e : Fault) : Prop :=
  ∃ name s this args, host name s this args = .fault e

theorem Method.tame_apply (m : Method) (receiver : Value) (args : List Value) :
    Tame (m.apply receiver args) := by
  have hlist : ∀ (id : ListId) (change : Array Value → Array Value) (v : Value),
      Tame (do changing (·.modifyList id change); return v) := fun _ _ _ _ => .of_eq rfl rfl rfl
  unfold apply
  split
  case h_9 => exact hlist _ _ _
  case h_10 => exact Tame.look _
  case h_11 =>
    refine (Tame.look _).bind fun last => ?_
    split
    · exact hlist _ _ _
    · exact fun s => ⟨rfl, .refl s⟩
  case h_12 => exact hlist _ _ _
  case h_14 => exact Tame.reading fun s => .error rfl
  all_goals exact Tame.pure _

theorem Method.tame_run (m : Method) (this : Option Value) (args : List Value) :
    Tame (m.run this args) := by
  unfold run
  split
  · cases this with
    | some receiver => exact m.tame_apply receiver args
    | none => exact fun s => ⟨rfl, .refl s⟩
  · exact fun s => ⟨rfl, .refl s⟩

theorem LibraryFunction.harmless_apply (f : LibraryFunction) (s : Store) (args : List Value) :
    Harmless (f.apply s args) := by
  have hint : ∀ v, Harmless (toInt v) := by
    intro v
    unfold toInt
    split
    · exact .ok _
    · exact .ok _
    · split
      · exact .ok _
      · exact .error rfl
    · exact .ok _
    · exact .error rfl
  have hfloat : ∀ v, Harmless (toFloat v) := by
    intro v
    unfold toFloat
    split
    · exact .ok _
    · split
      · exact .ok _
      · exact .error rfl
    · exact .ok _
    · exact .error rfl
  have hsleep : ∀ v, Harmless (sleepRequest v) := by
    intro v
    unfold sleepRequest
    split
    · split
      · exact .error rfl
      · exact .ok _
    · exact .error rfl
  have hrandom : ∀ v w, Harmless (randomRequest v w) := by
    intro v w
    unfold randomRequest
    split
    · split
      · exact .ok _
      · exact .error rfl
    · exact .error rfl
  unfold apply
  split
  case h_2 => exact hsleep _
  case h_3 => exact hrandom _ _
  case h_4 => exact (hint _).map _
  case h_5 => exact (hfloat _).map _
  case h_13 => exact .error rfl
  all_goals exact .ok _

theorem LibraryFunction.harmless_run (f : LibraryFunction) (s : Store) (args : List Value) :
    Harmless (f.run s args) := by
  unfold run
  dsimp only
  split
  · split
    · exact f.harmless_apply s _
    · rename_i e he
      exact .error (s.harmless_derefAll args e he)
  · exact .error rfl

/-- A callback leaves the store still, and only the embedding program can make one raise a fault of
the machine's own. -/
theorem Callback.run_ensures (c : Callback) (host : Host) (this : Option Value) (args : List Value)
    (s : Store) : Ensures (c.run host this args) s (fun _ t => s.Still t)
      fun e t => (e.isMachine = false ∨ host.Raises e) ∧ s.Still t := by
  unfold run
  split
  · rename_i m _
    exact ((m.tame_run this args).bind fun v => Tame.pure _) s |>.imp (fun _ _ h => h) fun e t h =>
      ⟨.inl h.1, h.2⟩
  · rename_i f _
    exact Tame.reading (f.harmless_run · args) s |>.imp (fun _ _ h => h) fun e t h =>
      ⟨.inl h.1, h.2⟩
  · simp only [ensures_bind, ensures_look]
    split
    · exact .refl s
    · exact .of_eq rfl rfl rfl
    · rename_i e he
      exact ⟨.inr ⟨_, _, _, _, he⟩, .refl s⟩
    · exact .refl s

def Value.closure? : Value → Option ClosureId
  | closure id => some id
  | _ => none

theorem Value.eq_closure_of_closure? {v : Value} {id : ClosureId} (h : v.closure? = some id) :
    v = .closure id := by
  cases v <;> cases h
  rfl

/-- The function that a call of the value runs. -/
def Store.target? (s : Store) (callee : Value) : Option ClosureId :=
  match s.deref callee with
  | .ok (.closure id) => some id
  | .ok (.type id) => (s.type id).ctor.bind Value.closure?
  | .ok (.object id) => (s.typeOf id).invoke.bind Value.closure?
  | _ => none

namespace Machine

/-- What making the call `call` leads to, from store `s` with the calls `fs` in progress. -/
inductive Called (host : Host) (s : Store) (fs : List Frame) (call : Call) : Outcome → Prop where
  | value {t : Store} {v : Value} {depth limit : Nat} :
      s.Still t → Called host s fs call (deliver ⟨t, fs, none, depth, limit⟩ v)
  | started {t : Store} {id : ClosureId} {this result : Option Value} {a : ActivationId}
      {depth limit : Nat} : s.Still t → s.target? call.callee = some id → a = s.activations.size →
        t.activations.size = a + 1 →
      (t.locals a).size = (s.closure id).prototype.slots →
      Called host s fs call
        (.running ⟨t, ⟨s.closure id, this, a, [], 0, [], result⟩ :: fs, none, depth, limit⟩)
  | again {t : Store} {c : Call} {depth limit : Nat} :
      s.Still t → Called host s fs call (.running ⟨t, fs, some c, depth, limit⟩)
  | waiting {r : Request} {t : Store} {depth limit : Nat} :
      s.Still t → Called host s fs call (.waiting r ⟨t, fs, none, depth, limit⟩)
  | failed {e : Fault} {t : Store} {depth limit : Nat} :
      (e.isMachine = false ∨ host.Raises e) → s.Still t →
      Called host s fs call (raise ⟨t, fs, none, depth, limit⟩ e)
  | stuck {t : Store} {depth limit : Nat} :
      s.Still t → Called host s fs call (.stuck ⟨t, fs, none, depth, limit⟩)

variable {host : Host} {s : Store} {fs : List Frame} {call : Call} {depth limit : Nat}

theorem closure_mem (s : Store) (id : ClosureId) :
    s.closure id = default ∨ s.closure id ∈ s.closures.toList := by
  unfold Store.closure
  rw [Array.getD_eq_getD_getElem?]
  cases h : s.closures[id]? with
  | none => exact .inl rfl
  | some c => exact .inr (Array.mem_toList_iff.2 (Array.mem_of_getElem? h))

theorem bindArguments_spec (s : Store) (p : Prototype) (args : List Value)
    (harity : p.arity.accepts args.length = true) (hstart : p.startable = true) :
    s.Still (s.bindArguments p args).2 ∧ (s.bindArguments p args).2.activations = s.activations ∧
      (s.bindArguments p args).1.size = p.slots := by
  unfold Store.bindArguments
  have hreq : p.variadic = false → p.params ≤ p.slots := fun _ => Nat.le_max_right _ _
  split
  · rename_i hv
    simp only [Prototype.arity, hv, if_true, Arity.accepts, decide_eq_true_eq] at harity
    simp only [Prototype.startable, hv, Bool.not_true, Bool.false_or, Bool.and_eq_true,
      decide_eq_true_eq] at hstart
    refine ⟨.of_eq rfl rfl rfl, rfl, ?_⟩
    simp only [List.size_toArray, List.length_append, List.length_take, List.length_singleton,
      List.length_replicate]
    omega
  · rename_i hv
    simp only [Prototype.arity, hv, Bool.false_eq_true, if_false, Arity.accepts,
      Prototype.required, beq_iff_eq] at harity
    have := hreq (by simpa using hv)
    refine ⟨.refl s, rfl, ?_⟩
    simp only [List.size_toArray, List.length_append, List.length_replicate]
    omega

theorem start_called {r : Store} (hr : s.Still r) (hslots : r.activations = s.activations)
    {id : ClosureId} (hid : s.target? call.callee = some id) (this : Option Value)
    (args : List Value) (result : Option Value) :
    Called host s fs call (start ⟨r, fs, none, depth, limit⟩ (r.closure id) this args result) := by
  have hclosure : r.closure id = s.closure id := by
    rw [Store.closure, Store.closure, hr.closures_eq]
  rw [hclosure]
  unfold start
  dsimp only
  split
  · exact .failed (.inl rfl) hr
  · split
    · exact .failed (.inl rfl) hr
    · rename_i harity
      split
      · exact .stuck hr
      · rename_i hrest
        obtain ⟨hgrow, hsame, hsize⟩ :=
          bindArguments_spec r (s.closure id).prototype args (by simpa using harity)
          (by simpa using hrest)
        refine .started (hr.trans (hgrow.trans (Store.still_addActivation _ _))) hid ?_ ?_ ?_
        · simp [Store.addActivation, hsame, hslots]
        · simp [Store.addActivation]
        · simpa [Store.addActivation, Store.locals, Array.getD_eq_getD_getElem?] using hsize

theorem callMember_called {r : Store} (hr : s.Still r) (hslots : r.activations = s.activations)
    {f : Value} (hf : ∀ id, f = .closure id → s.target? call.callee = some id) (c : Call) :
    Called host s fs call (callMember ⟨r, fs, none, depth, limit⟩ f c) := by
  unfold callMember
  split
  · exact start_called hr hslots (hf _ rfl) _ _ _
  · exact .again hr

theorem instantiate_called {id : TypeId} (hid : s.deref call.callee = .ok (.type id)) (c : Call) :
    Called host s fs call (instantiate ⟨s, fs, none, depth, limit⟩ id c) := by
  unfold instantiate
  dsimp only
  split
  · exact .failed (.inl rfl) (.refl s)
  · have hstill : s.Still (s.addObject ⟨id, .empty⟩).2 := .of_eq rfl rfl rfl
    split
    · rename_i f hf
      refine callMember_called hstill rfl ?_ _
      rintro k rfl
      simp only [Store.target?, hid, hf]
      rfl
    · split
      · exact .value hstill
      · exact .failed (.inl rfl) hstill

theorem callNative_called (id : CallbackId) (c : Call) :
    Called host s fs call (callNative host ⟨s, fs, none, depth, limit⟩ id c) := by
  have h := (s.callback id).run_ensures host c.this c.args s
  unfold callNative
  dsimp only
  split
  · rename_i hrun
    exact .value (h.ok hrun)
  · rename_i hrun
    exact .waiting (h.ok hrun)
  · rename_i hrun
    exact .again (h.ok hrun)
  · rename_i hrun
    obtain ⟨he, ht⟩ := h.error hrun
    exact .failed he ht

theorem enter_called (c : Call) :
    Called host s fs c (enter host ⟨s, fs, none, depth, limit⟩ c) := by
  unfold enter
  split
  · rename_i e he
    exact .failed (.inl (s.harmless_deref c.callee e he)) (.refl s)
  · rename_i id hid
    exact start_called (.refl s) rfl (by rw [Store.target?, hid]) _ _ _
  · exact callNative_called _ _
  · rename_i id hid
    exact instantiate_called hid _
  · rename_i id hid
    split
    · rename_i f hf
      refine callMember_called (.refl s) rfl ?_ _
      rintro k rfl
      simp only [Store.target?, hid, hf]
      rfl
    · exact .failed (.inl rfl) (.refl s)
  · exact .failed (.inl rfl) (.refl s)

/-- What executing the word `w` at the innermost call `f` leads to. -/
inductive Executed (s : Store) (f : Frame) (rest : List Frame) (w : Word) (depth limit : Nat) :
    Outcome → Prop where
  | next {op : Opcode} {g : Frame} {t : Store} :
      w.op? = some op → Exec.operation { f with ip := f.ip + 1 } w op s = .ok (.next g) t →
      Exec.Moves f w op f.ip (.next g) → Exec.Ties f s w op g t →
      Executed s f rest w depth limit (.running ⟨t, g :: rest, none, depth, limit⟩)
  | call {op : Opcode} {c : Call} {g : Frame} {t : Store} :
      w.op? = some op → Exec.operation { f with ip := f.ip + 1 } w op s = .ok (.call c g) t →
      Exec.Moves f w op f.ip (.call c g) → Exec.Ties f s w op g t →
      Executed s f rest w depth limit (.running ⟨t, g :: rest, some c, depth, limit⟩)
  | failed {op : Opcode} {e : Fault} {t : Store} :
      w.op? = some op → Exec.Blames f s w op e → s.Still t →
      Executed s f rest w depth limit
        (raise ⟨t, { f with ip := f.ip + 1 } :: rest, none, depth, limit⟩ e)
  | undecoded {n : Nat} :
      w.op? = none → Executed s f rest w depth limit
        (raise ⟨s, { f with ip := f.ip + 1 } :: rest, none, depth, limit⟩ (.invalidInstruction n))

theorem execute_executed (f : Frame) (w : Word) (rest : List Frame) (s : Store)
    (depth limit : Nat) : Executed s f rest w depth limit (execute f w rest s depth limit) := by
  unfold execute
  dsimp only
  cases hop : w.op? with
  | none =>
    simp only [Exec.word, hop, Action.fail]
    exact .undecoded hop
  | some op =>
    -- the frame that executes is past the instruction, which changes nothing that the spec of an
    -- operation reads
    have h := Exec.operation_ensures (f := { f with ip := f.ip + 1 }) (s := s) (w := w) op rfl
    have hmoves : ∀ {eff}, Exec.Moves { f with ip := f.ip + 1 } w op f.ip eff →
        Exec.Moves f w op f.ip eff := by
      intro eff hm
      cases hm with
      | next hsame heff hpop hnext hmem =>
        exact .next ⟨hsame.1, hsame.2, hsame.3, hsame.4⟩ heff hpop hnext hmem
      | call hsame heff hpop hnext hmem =>
        exact .call ⟨hsame.1, hsame.2, hsame.3, hsame.4⟩ heff hpop hnext hmem
      | ret hsame hret hpos hip hlen =>
        exact .ret ⟨hsame.1, hsame.2, hsame.3, hsame.4⟩ hret hpos hip hlen
    have hties : ∀ {g t}, Exec.Ties { f with ip := f.ip + 1 } s w op g t →
        Exec.Ties f s w op g t := by
      intro g t ht
      cases ht with
      | still hcells ht => exact .still hcells ht
      | takes hop htakes ht => exact .takes hop (htakes.congr ⟨rfl, rfl⟩ ⟨rfl, rfl⟩ ⟨rfl, rfl⟩) ht
      | closes hop hcells ht => exact .closes hop hcells ht
    simp only [Exec.word, hop]
    split
    · rename_i g t hrun
      obtain ⟨hm, ht⟩ := h.ok hrun
      exact .next hop hrun (hmoves hm) (hties ht)
    · rename_i c g t hrun
      obtain ⟨hm, ht⟩ := h.ok hrun
      exact .call hop hrun (hmoves hm) (hties ht)
    · rename_i e t hrun
      obtain ⟨hb, ht⟩ := h.error hrun
      exact .failed hop ⟨hb.underflow, hb.invalid⟩ ht

/-- To show something of every step, show it of making a call, of executing an instruction, of
ending a call, and of a machine at rest. -/
theorem step_cases {P : Outcome → Prop} (host : Host) (m : Machine)
    (hcall : ∀ c, m.pending = some c → ∀ o, Called host m.store m.frames c o → P o)
    (hexec : ∀ f rest w, m.pending = none → m.frames = f :: rest →
      f.prototype.code[f.ip]? = some w → ∀ o, Executed m.store f rest w m.depth m.limit o → P o)
    (hleave : ∀ f rest, m.pending = none → m.frames = f :: rest → f.prototype.code[f.ip]? = none →
      ∀ v depth limit, P (deliver ⟨(f.closeFrom 0 m.store).2, rest, none, depth, limit⟩ v))
    (hrest : m.pending = none → m.frames = [] → P (.returned .null m)) : P (m.step host) := by
  obtain ⟨s, frames, pending, depth, limit⟩ := m
  cases pending with
  | some c => exact hcall c rfl _ (enter_called c)
  | none =>
    cases frames with
    | nil => exact hrest rfl rfl
    | cons f rest =>
      simp only [step]
      split
      · rename_i w hw
        exact hexec f rest w rfl rfl hw _ (execute_executed f w rest s depth limit)
      · rename_i hnone
        exact hleave f rest rfl rfl hnone _ _ _

end Machine

namespace Outcome

/-- One move: a step of a machine, or an answer to its request. The outside world raises no fault of
the machine's own, and its functions are of the narrow kind of `Host`; what is said of runs is not
said of functions that take the machine over (`Situation`). -/
inductive Move (host : Host) : Outcome → Outcome → Prop where
  | step (m : Machine) : Move host (.running m) (m.step host)
  | answer (r : Request) (m : Machine) {a : Except Fault Value} :
      Harmless a → Move host (.waiting r m) (m.resume a)

/-- Any number of moves. -/
inductive Run (host : Host) (o : Outcome) : Outcome → Prop where
  | refl : Run host o o
  | move {o₁ o₂ : Outcome} : Run host o o₁ → Move host o₁ o₂ → Run host o o₂

theorem Run.trans {host : Host} {o₁ o₂ o₃ : Outcome} (h : Run host o₁ o₂) (h' : Run host o₂ o₃) :
    Run host o₁ o₃ := by
  induction h' with
  | refl => exact h
  | move _ hm ih => exact ih.move hm

theorem run_reaches (host : Host) (n : Nat) (m : Machine) :
    Run host (.running m) (m.run host n) := by
  induction n generalizing m with
  | zero => exact .refl
  | succ n ih =>
    unfold Machine.run
    have hstep : Run host (.running m) (m.step host) := .move .refl (.step m)
    split
    · rename_i m' hm
      rw [hm] at hstep
      exact hstep.trans (ih m')
    · exact hstep

/-- The machine as the outcome leaves it. -/
def machine : Outcome → Machine
  | running m | waiting _ m | returned _ m | failed _ m | stuck m => m

end Outcome

/-- A property of a store and the calls in progress over it that nothing but an instruction can
destroy. -/
structure Stable (P : Store → List Frame → Prop) : Prop where
  still {s t : Store} {fs : List Frame} : P s fs → s.Still t → P t fs
  push {s : Store} {f : Frame} {rest : List Frame} (v : Value) : P s (f :: rest) →
    P s (f.push v :: rest)
  start {s t : Store} {fs : List Frame} {id : ClosureId} {this result : Option Value}
    {a : ActivationId} : P s fs → s.Still t → a = s.activations.size → t.activations.size = a + 1 →
    (t.locals a).size = (s.closure id).prototype.slots →
      P t (⟨s.closure id, this, a, [], 0, [], result⟩ :: fs)
  pop {s : Store} {f : Frame} {rest : List Frame} : P s (f :: rest) → P (f.closeFrom 0 s).2 rest

/-- The call executes its next instruction. -/
structure Exec.Runs (f : Frame) (s : Store) (w : Word) (op : Opcode) (eff : Effect) (t : Store) :
    Prop where
  word : f.prototype.code[f.ip]? = some w
  op? : w.op? = some op
  run : Exec.operation { f with ip := f.ip + 1 } w op s = .ok eff t
  moves : Exec.Moves f w op f.ip eff
  ties : Exec.Ties f s w op (Exec.after eff) t

/-- A property that no kind of move destroys. -/
structure Kept (P : Store → List Frame → Prop) : Prop extends Stable P where
  execute {s t : Store} {f : Frame} {rest : List Frame} {w : Word} {op : Opcode} {eff : Effect} :
    P s (f :: rest) → Exec.Runs f s w op eff t → P t (Exec.after eff :: rest)

/-- A fault makes the machine fail, or leaves it no way to go on. -/
theorem Machine.raise_cases {P : Outcome → Prop} (m : Machine) (e : Fault)
    (hstuck : P (.stuck m.unwind))
    (hfailed : P (.failed ⟨e, m.frames.head?.map Frame.line⟩ m.unwind)) : P (m.raise e) := by
  cases e with
  | capacityOverflow => exact hstuck
  | _ => exact hfailed

theorem Machine.raise_congr {m m' : Machine} (hunwind : m.unwind = m'.unwind)
    (hline : m.frames.head?.map Frame.line = m'.frames.head?.map Frame.line) (e : Fault) :
    m.raise e = m'.raise e := by
  unfold raise
  rw [hunwind, hline]

theorem Machine.raise_ne_running (m m' : Machine) (e : Fault) : m.raise e ≠ .running m' := by
  refine m.raise_cases (P := (· ≠ .running m')) e ?_ ?_
  · exact fun h => Outcome.noConfusion h
  · exact fun h => Outcome.noConfusion h

theorem Machine.machine_raise (m : Machine) (e : Fault) : (m.raise e).machine = m.unwind :=
  m.raise_cases (P := fun o => o.machine = m.unwind) e rfl rfl

theorem Machine.frames_raise (m : Machine) (e : Fault) : (m.raise e).machine.frames = [] := by
  rw [m.machine_raise]
  have hfold : ∀ (fs : List Frame) (m : Machine), m.frames = fs →
      (fs.foldl (fun m _ => m.popFrame) m).frames = [] := by
    intro fs
    induction fs with
    | nil => exact fun m h => h
    | cons f fs ih =>
      rintro ⟨s, frames, pending, depth, limit⟩ rfl
      exact ih _ rfl
  exact hfold m.frames m rfl

namespace Stable

variable {P : Store → List Frame → Prop} {host : Host}

theorem deliver (hP : Stable P) (h : P m.store m.frames) (v : Value) :
    P (m.deliver v).machine.store (m.deliver v).machine.frames := by
  obtain ⟨s, frames, pending, depth, limit⟩ := m
  cases frames with
  | nil => exact h
  | cons f rest => exact hP.push v h

theorem raise_amid (hP : Stable P) {s : Store} {f : Frame} {rest : List Frame}
    {pending : Option Call} {n depth limit : Nat} (h : P s (f :: rest)) (e : Fault) :
    P (Machine.raise ⟨s, { f with ip := n } :: rest, pending, depth, limit⟩ e).machine.store
      (Machine.raise ⟨s, { f with ip := n } :: rest, pending, depth, limit⟩ e).machine.frames := by
  have hpop : ∀ m : Machine, P m.store m.frames → P m.popFrame.store m.popFrame.frames := by
    intro m h
    obtain ⟨s, frames, pending, depth, limit⟩ := m
    cases frames with
    | nil => exact h
    | cons f rest => exact hP.pop h
  have hfold : ∀ (fs : List Frame) (m : Machine), P m.store m.frames →
      P (fs.foldl (fun m _ => m.popFrame) m).store (fs.foldl (fun m _ => m.popFrame) m).frames := by
    intro fs
    induction fs with
    | nil => exact fun m h => h
    | cons f fs ih => exact fun m h => ih _ (hpop m h)
  rw [Machine.machine_raise]
  exact hfold rest ⟨(f.closeFrom 0 s).2, rest, pending, depth - 1, limit⟩ (hP.pop h)

theorem raise (hP : Stable P) (h : P m.store m.frames) (e : Fault) :
    P (m.raise e).machine.store (m.raise e).machine.frames := by
  obtain ⟨s, frames, pending, depth, limit⟩ := m
  cases frames with
  | nil =>
    rw [Machine.machine_raise]
    exact h
  | cons f rest => exact hP.raise_amid h e

theorem called (hP : Stable P) {s : Store} {fs : List Frame} {call : Call} {o : Outcome}
    (h : P s fs) (hcall : Machine.Called host s fs call o) :
    P o.machine.store o.machine.frames := by
  cases hcall with
  | value ht => exact hP.deliver (hP.still h ht) _
  | started ht _ ha hsize hlen => exact hP.start h ht ha hsize hlen
  | again ht | waiting ht | stuck ht => exact hP.still h ht
  | failed _ ht => exact hP.raise (hP.still h ht) _

theorem resume (hP : Stable P) (h : P m.store m.frames) (a : Except Fault Value) :
    P (m.resume a).machine.store (m.resume a).machine.frames := by
  unfold Machine.resume
  split
  · exact hP.deliver h _
  · exact hP.raise h _

end Stable

/-- What a step comes to: an instruction is executed, or all that only instructions destroy is kept.
Then there was no instruction to execute, or it failed. -/
inductive Machine.Turns (m : Machine) (o : Outcome) : Prop where
  | executes {f : Frame} {rest : List Frame} {w : Word} {op : Opcode} {eff : Effect} :
      m.pending = none → m.frames = f :: rest → Exec.Runs f m.store w op eff o.machine.store →
      o.machine.frames = Exec.after eff :: rest → Turns m o
  | keeps :
      (∀ f rest w, m.pending = none → m.frames = f :: rest → f.prototype.code[f.ip]? = some w →
      o.machine.frames = []) →
      (∀ P, Stable P → P m.store m.frames → P o.machine.store o.machine.frames) → Turns m o

theorem Machine.step_turns (host : Host) (m : Machine) : m.Turns (m.step host) := by
  refine step_cases (P := m.Turns) host m ?_ ?_ ?_ ?_
  · intro c hc o hcall
    refine .keeps (fun f rest w hp => ?_) fun P hP h => hP.called h hcall
    cases hp.symm.trans hc
  · intro f rest w hp hfs hw o hexec
    cases hexec with
    | next hop hrun hm ht | call hop hrun hm ht =>
      exact .executes hp hfs ⟨hw, hop, hrun, hm, ht⟩ rfl
    | failed _ _ ht =>
      exact .keeps (fun _ _ _ _ _ _ => frames_raise _ _) fun P hP h =>
        hP.raise_amid (hP.still (hfs ▸ h) ht) _
    | undecoded _ =>
      exact .keeps (fun _ _ _ _ _ _ => frames_raise _ _) fun P hP h => hP.raise_amid (hfs ▸ h) _
  · intro f rest _ hfs hnone v depth limit
    refine .keeps (fun f' rest' w _ hfs' hw => ?_) fun P hP h => hP.deliver ?_ v
    · cases hfs.symm.trans hfs'
      cases hnone.symm.trans hw
    · rw [hfs] at h
      exact hP.pop h
  · intro _ hnil
    exact .keeps (fun _ _ _ _ _ _ => hnil) fun P _ h => h

variable {P : Store → List Frame → Prop} {host : Host} {o o' : Outcome}

theorem Stable.run (hP : Stable P) (h : P o.machine.store o.machine.frames)
    (hr : Outcome.Run host o o')
    (hexec : ∀ {m : Machine} {f : Frame} {rest : List Frame} {w : Word} {op : Opcode}
        {eff : Effect} {t : Store},
      Outcome.Run host o (.running m) → Outcome.Run host (m.step host) o' → m.pending = none →
      m.frames = f :: rest →
      Exec.Runs f m.store w op eff t → P m.store (f :: rest) → P t (Exec.after eff :: rest)) :
    P o'.machine.store o'.machine.frames := by
  induction hr with
  | refl => exact h
  | move hr hm ih =>
    have h := ih fun hr hr' => hexec hr (hr'.move hm)
    cases hm with
    | answer r m _ => exact hP.resume h _
    | step m =>
      cases m.step_turns host with
      | executes hp hfs hruns hafter =>
        rw [hafter]
        exact hexec hr .refl hp hfs hruns (hfs ▸ h)
      | keeps _ hkeeps => exact hkeeps P hP h

theorem Kept.run (hP : Kept P) (h : P o.machine.store o.machine.frames)
    (hr : Outcome.Run host o o') : P o'.machine.store o'.machine.frames :=
  hP.toStable.run h hr fun _ _ _ _ hruns h => hP.execute h hruns

theorem Kept.move (hP : Kept P) (h : P o.machine.store o.machine.frames)
    (hm : Outcome.Move host o o') : P o'.machine.store o'.machine.frames :=
  hP.run h (.move .refl hm)

/-- The property passes from a function to the functions that its calls create. -/
def Hereditary (Good : Closure → Prop) : Prop :=
  ∀ {c : Closure}, Good c → ∀ q ∈ c.prototype.nested, ∀ cells : Array CellId,
    cells.size = q.outers.length → Good ⟨q, cells⟩

/-- All functions of a store and all calls over it have the property, calls of the empty function
apart, and each call has the slots its function asks for. -/
structure Intact (Good : Closure → Prop) (s : Store) (fs : List Frame) : Prop where
  closures : ∀ c ∈ s.closures.toList, Good c
  frames : ∀ f ∈ fs, f.closure = default ∨ Good f.closure
  slots : ∀ f ∈ fs, f.activation < s.activations.size ∧ (s.locals f.activation).size =
    f.prototype.slots

namespace Intact

variable {Good : Closure → Prop} {s t : Store} {fs rest : List Frame} {f g : Frame}

theorem grows {new : Closure → Prop} (h : Intact Good s fs) (ht : s.Grows new t)
    (hnew : ∀ c, new c → Good c) : Intact Good t fs := by
  refine ⟨fun c hc => ?_, h.frames, fun f hf => ?_⟩
  · rcases ht.mem_closures hc with hc | hc
    · exact h.closures c hc
    · exact hnew c hc
  · obtain ⟨ha, hlen⟩ := h.slots f hf
    obtain ⟨ha', hlen'⟩ := ht.slots _ ha
    exact ⟨ha', hlen'.trans hlen⟩

theorem tame (h : Intact Good s fs) (ht : s.Grows (fun _ => False) t) : Intact Good t fs :=
  h.grows ht fun _ hc => hc.elim

theorem tail (h : Intact Good s (f :: rest)) : Intact Good s rest :=
  ⟨h.closures, fun g hg => h.frames g (List.mem_cons_of_mem _ hg),
    fun g hg => h.slots g (List.mem_cons_of_mem _ hg)⟩

theorem sameCall (h : Intact Good s (f :: rest)) (hfg : f.SameCall g) :
    Intact Good s (g :: rest) := by
  have hf := h.slots f List.mem_cons_self
  refine ⟨h.closures, ?_, ?_⟩
  · rintro k hk
    rcases List.mem_cons.1 hk with rfl | hk
    · rw [hfg.closure]
      exact h.frames f List.mem_cons_self
    · exact h.frames k (List.mem_cons_of_mem _ hk)
  · rintro k hk
    rcases List.mem_cons.1 hk with rfl | hk
    · rw [hfg.activation, Frame.prototype, hfg.closure]
      exact hf
    · exact h.slots k (List.mem_cons_of_mem _ hk)

theorem push (h : Intact Good s (f :: rest)) (v : Value) : Intact Good s (f.push v :: rest) :=
  h.sameCall ⟨rfl, rfl, rfl, rfl⟩

/-- What an instruction creates has the property if its own function has. -/
theorem created (h : Intact Good s (f :: rest)) (hered : Hereditary Good)
    (ht : s.Grows f.MayCreate t) : Intact Good t (f :: rest) := by
  refine h.grows ht fun c hc => ?_
  rcases h.frames f List.mem_cons_self with hf | hf
  · -- there are no functions inside the empty one
    have hnested := hc.1
    rw [Frame.prototype, hf] at hnested
    cases hnested
  · exact hered hf c.prototype hc.1 c.captures hc.2

theorem kept (hered : Hereditary Good) : Kept (Intact Good) where
  still h ht := h.tame ht.toGrows
  push v h := h.push v
  start {s t fs id this result a} h ht ha hsize hlen := by
    have h' := h.tame ht.toGrows
    have hlt : a < t.activations.size := Nat.lt_of_lt_of_eq (Nat.lt_succ_self a) hsize.symm
    refine ⟨h'.closures, ?_, ?_⟩
    · intro g hg
      rcases List.mem_cons.1 hg with rfl | hg
      · exact (Machine.closure_mem s id).imp_right (h.closures _)
      · exact h'.frames g hg
    · intro g hg
      rcases List.mem_cons.1 hg with rfl | hg
      · exact ⟨hlt, hlen⟩
      · exact h'.slots g hg
  execute h hruns := (h.created hered hruns.ties.grows).sameCall hruns.moves.sameCall
  pop {s f rest} h := h.tail.tame (f.closeFrom_spec 0 s).2

end Intact

namespace Outcome

def Intact (Good : Closure → Prop) (o : Outcome) : Prop :=
  Refscript.Intact Good o.machine.store o.machine.frames

variable {Good : Closure → Prop} {host : Host}

theorem intact_idle (hidle : m.frames = []) (h : ∀ c ∈ m.store.closures.toList, Good c) :
    (running m).Intact Good := by
  refine ⟨h, ?_, ?_⟩
  · intro f hf
    simp only [machine, hidle] at hf
    cases hf
  · intro f hf
    simp only [machine, hidle] at hf
    cases hf

theorem Run.intact (hered : Hereditary Good) (h : o.Intact Good) (hr : Run host o o') :
    o'.Intact Good :=
  (Intact.kept hered).run h hr

theorem raise_eq_failed {e : Fault} (h : m.raise e = .failed r m') : r.fault = e := by
  cases e <;> cases h <;> rfl

theorem deliver_ne_failed {v : Value} : m.deliver v ≠ .failed r m' := by
  obtain ⟨s, frames, pending, depth, limit⟩ := m
  cases frames with
  | nil | cons f rest => exact (nomatch ·)

/-- A fault of the machine's own is raised by the embedding program or by an instruction: by one
that cannot be read, or by one that has a reason to. -/
theorem Move.blames (hm : Move host o (.failed r m')) (hmachine : r.fault.isMachine = true)
    (hhost : ¬host.Raises r.fault) :
    ∃ m f rest w, o = .running m ∧ m.pending = none ∧ m.frames = f :: rest ∧
      f.prototype.code[f.ip]? = some w ∧ ((w.op? = none ∧ ∃ n, r.fault = .invalidInstruction n) ∨
        ∃ op, w.op? = some op ∧ Exec.Blames f m.store w op r.fault) := by
  generalize ho' : Outcome.failed r m' = o' at hm
  cases hm with
  | step m =>
    revert ho'
    refine Machine.step_cases (P := fun o' => Outcome.failed r m' = o' → _) host m ?_ ?_ ?_ ?_
    · intro c _ o' hcall ho'
      cases hcall with
      | value => exact absurd ho'.symm deliver_ne_failed
      | failed he =>
        rw [raise_eq_failed ho'.symm] at hmachine hhost
        rcases he with he | he
        · rw [he] at hmachine
          cases hmachine
        · exact absurd he hhost
      | started | again | waiting | stuck => cases ho'
    · intro f rest w hp hfs hw o' hexec ho'
      cases hexec with
      | next | call => cases ho'
      | @failed op e t hop hb =>
        rw [raise_eq_failed ho'.symm]
        exact ⟨m, f, rest, w, rfl, hp, hfs, hw, .inr ⟨op, hop, hb⟩⟩
      | @undecoded n hop =>
        rw [raise_eq_failed ho'.symm]
        exact ⟨m, f, rest, w, rfl, hp, hfs, hw, .inl ⟨hop, n, rfl⟩⟩
    · intro f rest _ _ _ v depth limit ho'
      exact absurd ho'.symm deliver_ne_failed
    · exact fun _ _ ho' => by cases ho'
  | @answer _ m a ha =>
    unfold Machine.resume at ho'
    split at ho'
    · exact absurd ho'.symm deliver_ne_failed
    · rename_i e
      rw [raise_eq_failed ho'.symm, ha e rfl] at hmachine
      cases hmachine

end Outcome
end Refscript
