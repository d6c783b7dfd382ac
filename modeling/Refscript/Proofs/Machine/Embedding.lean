import Refscript.Proofs.Machine.Run
import Refscript.Shell

/-!
# Refscript.Proofs.Machine.Embedding

A machine in the hands of an embedding program. The program gives the machine tasks, lets it take
steps and answers its requests. A function of the program that a script calls may take the machine
over until it replies: it can give the machine tasks of its own, as many as it likes, and go on
whatever they come to. Their calls come on top of those that wait for the function.

* `Situation`: the innermost task, with the calls that wait below it.
* `Act`, `Situation.act`, `Situation.run`: what the program can do next, and where a sequence of
  acts leads. `Situation.Acted` says what an act does, by cases.
* `Machine.Stepped`: what one step of a machine does to its calls, said once for all instructions
  and callees.
* `Situation.below_runAbove`: as long as a function has not replied, the calls that wait for it stay
  as they are.
-/

namespace Refscript

open Refscript.Action

/-- Something to do for a machine at rest. -/
inductive Task where
  | program (p : Prototype) (args : List Value)
  | call (c : Call)
  | method (receiver : Value) (name : String) (args : List Value)
  | infixOp (op : String) (left right : Value)
  | prefixOp (op : String) (operand : Value)

def Task.start (m : Machine) : Task → Outcome
  | program p args => m.runPrototype p args
  | call c => m.call c
  | method receiver name args => m.callMethod receiver name args
  | infixOp op left right => m.applyInfix op left right
  | prefixOp op operand => m.applyPrefix op operand

/-- The error with a line, unless it has one already. -/
def RuntimeError.atLine (e : RuntimeError) (line : Nat) : RuntimeError :=
  ⟨e.fault, e.line.or (some line)⟩

/-- The machine, if it has nothing to do. -/
def Outcome.idle? : Outcome → Option Machine
  | returned _ m | failed _ m => some m
  | running _ | waiting _ _ | stuck _ => none

theorem Outcome.machine_of_idle? {o : Outcome} {m : Machine} (h : o.idle? = some m) :
    o.machine = m := by
  cases o with
  | returned | failed => exact Option.some.inj h
  | running | waiting | stuck => cases h

namespace Machine

/-- Ends all calls in progress with an error. Each of them in turn, the innermost first, adds the
line it has reached unless the error has one. -/
def failWith (m : Machine) (e : RuntimeError) : Outcome :=
  .failed (m.frames.foldl (fun e f => e.atLine f.line) e) m.unwind

/-- Goes on after a function of the embedding program has returned a value or an error. -/
def conclude (m : Machine) : Except RuntimeError Value → Outcome
  | .ok v => m.deliver v
  | .error e => m.failWith e

/-- Whether the next step calls a function of the embedding program. -/
def callsHost (m : Machine) : Bool :=
  match m.pending.map fun c => m.store.deref c.callee with
  | some (.ok (.callback id)) =>
    match (m.store.callback id).native with
    | .host => true
    | _ => false
  | _ => false

/-- The instruction that the next step executes, if it executes one. -/
def fetches? (m : Machine) : Option Nat :=
  match m.pending, m.frames with
  | none, f :: _ => if f.ip < f.prototype.code.size then some f.ip else none
  | _, _ => none

end Machine

/-- Calls in progress, the innermost first, with the instruction that each of them is executing; it
has none before its first one. -/
structure Layer where
  frames : List Frame
  marks : List (Option Nat)
  /-- What the innermost call is given in place of the value it waits for, if anything. -/
  result : Option Value

namespace Layer

/-- Notes that the innermost call executes an instruction. -/
def mark : Option Nat → List (Option Nat) → List (Option Nat)
  | some i, _ :: marks => some i :: marks
  | _, marks => marks

/-- The marks when there are `n` calls: a new call has executed nothing, and calls that have ended
are left out. -/
def fit (n : Nat) (marks : List (Option Nat)) : List (Option Nat) :=
  if marks.length < n then none :: marks else marks.drop (marks.length - n)

end Layer

/-- How far the tasks of a machine are. -/
structure Situation where
  /-- What the innermost task has come to. A machine that has had none is at rest. -/
  outcome : Outcome
  /-- The instructions that the calls of this task are executing. -/
  marks : List (Option Nat)
  /-- The calls that wait for functions of the embedding program, those of the innermost such
  function first. -/
  below : List Layer

/-- What an embedding program can do next. -/
inductive Act where
  /-- It lets the machine take a step. -/
  | step
  /-- It answers a request of the machine. -/
  | answer (a : Except Fault Value)
  /-- It gives the machine a task. -/
  | begin (t : Task)
  /-- It changes what it shares with the machine, itself or by means of another machine. -/
  | change (s : Store)
  /-- Its function that the machine is about to call takes the machine over. -/
  | takeOver
  /-- Its function that has taken the machine over returns a value or an error. -/
  | reply (a : Except RuntimeError Value)

namespace Situation

/-- A machine that has done nothing yet. -/
def start (store : Store) (limit : Nat) : Situation :=
  ⟨.returned .null (.idle store limit), [], []⟩

def machine (σ : Situation) : Machine := σ.outcome.machine

/-- All calls in progress, the innermost first. -/
def live (σ : Situation) : List Frame :=
  σ.machine.frames ++ σ.below.flatMap Layer.frames

/-- The innermost task has come to something. -/
def goTo (o : Outcome) (marks : List (Option Nat)) (below : List Layer) : Situation :=
  ⟨o, Layer.fit o.machine.frames.length marks, below⟩

/-- The situation after an act, if the act is possible. -/
def act (host : Host) (σ : Situation) : Act → Option Situation
  | .step =>
    match σ.outcome with
    | .running m => some (goTo (m.step host) (Layer.mark m.fetches? σ.marks) σ.below)
    | _ => none
  | .answer a =>
    match σ.outcome with
    | .waiting _ m => some (goTo (m.resume a) σ.marks σ.below)
    | _ => none
  | .begin t => σ.outcome.idle?.map fun m => goTo (t.start m) σ.marks σ.below
  | .change s =>
    σ.outcome.idle?.map fun m => goTo (.returned .null { m with store := s }) σ.marks σ.below
  | .takeOver =>
    match σ.outcome with
    | .running m =>
      if m.callsHost then
        some ⟨.returned .null ⟨m.store, [], none, m.depth, m.limit⟩, [],
          ⟨m.frames, σ.marks, m.pending.bind Call.result⟩ :: σ.below⟩
      else none
    | _ => none
  | .reply a =>
    match σ.outcome.idle?, σ.below with
    | some m, layer :: below =>
      some (goTo (Machine.conclude ⟨m.store, layer.frames, none, m.depth, m.limit⟩
        (a.map layer.result.getD)) layer.marks below)
    | _, _ => none

/-- The situation after a sequence of acts that leaves at least `n` functions of the embedding
program without a reply. -/
def runAbove (host : Host) (n : Nat) : List Act → Situation → Option Situation
  | [], σ => some σ
  | a :: acts, σ =>
    match σ.act host a with
    | some σ' => if n ≤ σ'.below.length then runAbove host n acts σ' else none
    | none => none

/-- The situation after a sequence of acts. -/
def run (host : Host) (acts : List Act) (σ : Situation) : Option Situation :=
  runAbove host 0 acts σ

variable {host : Host} {σ σ' : Situation} {a : Act} {acts : List Act}

/-- What an act does, by cases. -/
inductive Acted (host : Host) : Situation → Act → Situation → Prop where
  | step {m : Machine} {marks : List (Option Nat)} {below : List Layer} :
      Acted host ⟨.running m, marks, below⟩ .step
        (goTo (m.step host) (Layer.mark m.fetches? marks) below)
  | answer {r : Request} {m : Machine} {marks : List (Option Nat)} {below : List Layer}
      {a : Except Fault Value} :
      Acted host ⟨.waiting r m, marks, below⟩ (.answer a) (goTo (m.resume a) marks below)
  | begin {o : Outcome} {m : Machine} {marks : List (Option Nat)} {below : List Layer} {t : Task} :
      o.idle? = some m → Acted host ⟨o, marks, below⟩ (.begin t) (goTo (t.start m) marks below)
  | change {o : Outcome} {m : Machine} {marks : List (Option Nat)}
      {below : List Layer} {s : Store} : o.idle? = some m → Acted host ⟨o, marks, below⟩ (.change s)
        (goTo (.returned .null { m with store := s }) marks below)
  | takeOver {m : Machine} {marks : List (Option Nat)} {below : List Layer} :
      m.callsHost = true →
      Acted host ⟨.running m, marks, below⟩ .takeOver
        ⟨.returned .null ⟨m.store, [], none, m.depth, m.limit⟩, [],
          ⟨m.frames, marks, m.pending.bind Call.result⟩ :: below⟩
  | reply {o : Outcome} {m : Machine} {marks : List (Option Nat)} {layer : Layer}
      {below : List Layer} {a : Except RuntimeError Value} : o.idle? = some m →
      Acted host ⟨o, marks, layer :: below⟩ (.reply a)
        (goTo (Machine.conclude ⟨m.store, layer.frames, none, m.depth, m.limit⟩
          (a.map layer.result.getD)) layer.marks below)

theorem acted_of_act (h : σ.act host a = some σ') : Acted host σ a σ' := by
  obtain ⟨o, marks, below⟩ := σ
  cases a with
  | step =>
    cases o with
    | running m =>
      cases h
      exact .step
    | waiting | returned | failed | stuck => cases h
  | answer a =>
    cases o with
    | waiting r m =>
      cases h
      exact .answer
    | running | returned | failed | stuck => cases h
  | begin t =>
    obtain ⟨m, hm, rfl⟩ := Option.map_eq_some_iff.1 h
    exact .begin hm
  | change s =>
    obtain ⟨m, hm, rfl⟩ := Option.map_eq_some_iff.1 h
    exact .change hm
  | takeOver =>
    cases o with
    | running m =>
      simp only [act] at h
      split at h
      · rename_i hcalls
        cases h
        exact .takeOver hcalls
      · cases h
    | waiting | returned | failed | stuck => cases h
  | reply a =>
    simp only [act] at h
    split at h
    · rename_i hidle
      cases h
      exact .reply hidle
    · cases h

theorem live_of_idle {m : Machine} (hidle : σ.outcome.idle? = some m) (hframes : m.frames = []) :
    σ.live = σ.below.flatMap Layer.frames := by
  rw [live, machine, Outcome.machine_of_idle? hidle, hframes, List.nil_append]

theorem runAbove_induction {P : Situation → Prop}
    (hact : ∀ {σ σ' a}, P σ → σ.act host a = some σ' → P σ') {n : Nat} (h : P σ)
    (hrun : runAbove host n acts σ = some σ') : P σ' := by
  induction acts generalizing σ with
  | nil =>
    cases hrun
    exact h
  | cons a acts ih =>
    simp only [runAbove] at hrun
    split at hrun
    · rename_i σ₁ hσ₁
      split at hrun
      · exact ih (hact h hσ₁) hrun
      · cases hrun
    · cases hrun

/-- An act leaves the calls that wait as they are, adds to them, or lets the innermost ones go
on. -/
theorem act_below (h : σ.act host a = some σ') :
    σ'.below = σ.below ∨ (∃ layer, σ'.below = layer :: σ.below) ∨ ∃ layer,
      σ.below = layer :: σ'.below := by
  cases acted_of_act h with
  | step | answer | begin | change => exact .inl rfl
  | takeOver => exact .inr (.inl ⟨_, rfl⟩)
  | reply => exact .inr (.inr ⟨_, rfl⟩)

/-- As long as the functions of the embedding program that wait at the start do not reply, the calls
that wait for them stay as they are. -/
theorem below_runAbove (top bottom : List Layer) (hbelow : σ.below = top ++ bottom)
    (hrun : runAbove host bottom.length acts σ = some σ') : ∃ top', σ'.below = top' ++ bottom := by
  induction acts generalizing σ top with
  | nil =>
    cases hrun
    exact ⟨top, hbelow⟩
  | cons a acts ih =>
    simp only [runAbove] at hrun
    split at hrun
    · rename_i σ₁ hσ₁
      split at hrun
      · rename_i hlength
        rcases act_below hσ₁ with h | ⟨layer, h⟩ | ⟨layer, h⟩
        · exact ih top (h.trans hbelow) hrun
        · exact ih (layer :: top) (h.trans (congrArg (layer :: ·) hbelow)) hrun
        · cases top with
          | nil =>
            -- the reply would be that of a function that waited at the start
            have := congrArg List.length (hbelow.symm.trans h)
            simp only [List.nil_append, List.length_cons] at this
            omega
          | cons layer' top =>
            rw [hbelow] at h
            injection h with _ h
            exact ih top h.symm hrun
      · cases hrun
    · cases hrun

theorem below_eq_of_runAbove (hrun : runAbove host σ.below.length acts σ = some σ')
    (hlength : σ'.below.length = σ.below.length) : σ'.below = σ.below := by
  obtain ⟨top, htop⟩ := below_runAbove [] σ.below rfl hrun
  have htop' : top.length = 0 := by
    have := congrArg List.length htop
    rw [List.length_append] at this
    omega
  rw [htop, List.eq_nil_of_length_eq_zero htop', List.nil_append]

end Situation

namespace Exec

/-- The instructions that may have a call made. -/
def mayCall : Opcode → Bool
  | .invoke | .invokeMethod | .prefixOp | .infixOp => true
  | _ => false

/-- The action never has a call made. -/
def Resumes (x : Action Effect) : Prop :=
  ∀ s, Ensures x s (fun eff _ => ∃ g, eff = .next g) fun _ _ => True

namespace Resumes

theorem next (g : Frame) : Resumes (pure (.next g)) :=
  fun _ => ⟨g, rfl⟩

theorem fail (e : Fault) : Resumes (Action.fail e) :=
  fun _ => trivial

theorem bind {α : Type} {x : Action α} {k : α → Action Effect} (h : ∀ a, Resumes (k a)) :
    Resumes (x >>= k) := by
  intro s
  rw [ensures_bind]
  unfold Ensures
  split
  · exact h _ _
  · trivial

end Resumes

theorem resumes_keepIf (f : Frame) (cond : Bool) (target : Nat) :
    Resumes (keepIf f cond target) := by
  refine .bind fun _ => .bind fun v => ?_
  split
  · exact .next _
  · exact .bind fun _ => .next _

theorem resumes_operation (f : Frame) (w : Word) {op : Opcode} (hop : mayCall op = false) :
    Resumes (operation f w op) := by
  cases op with
  | invoke | invokeMethod | prefixOp | infixOp => cases hop
  | jump | pushNull | pushTrue | pushFalse | smallInt | smallFloat | this => exact .next _
  | pop | dup | dup2 | closeOuters | jumpTrue | jumpFalse | loadLocal | tuple | closure
      | makeType | not | deref
  | ret => exact .bind fun _ => .next _
  | loadOuter | loadGlobal | list | ref => exact .bind fun _ => .bind fun _ => .next _
  | storeLocal | storeOuter | storeGlobal | loadIndex | loadField | eq | neq =>
    exact .bind fun _ => .bind fun _ => .bind fun _ => .next _
  | storeIndex | storeField =>
    exact .bind fun _ => .bind fun _ => .bind fun _ => .bind fun _ => .bind fun _ => .next _
  | and | or => exact resumes_keepIf f _ _
  | initLocal =>
    refine .bind fun v => .bind fun inside => ?_
    split
    · exact .bind fun _ => .next _
    · exact .fail _
  | const =>
    simp only [operation]
    split
    · exact .next _
    · exact .fail _
  | matchOn =>
    refine .bind fun r => ?_
    dsimp only
    split
    · exact .next _
    · exact .fail _
  | storeDeref =>
    refine .bind fun r => .bind fun r' => ?_
    dsimp only
    split
    · exact .bind fun _ => .next _
    · exact fun _ => trivial

theorem ip_of_call {f g : Frame} {s t : Store} {w : Word} {op : Opcode} {c : Call}
    (hrun : operation { f with ip := f.ip + 1 } w op s = .ok (.call c g) t)
    (hmoves : Moves f w op f.ip (.call c g)) : g.ip = f.ip + 1 := by
  have hcalls : mayCall op = true := by
    cases hop : mayCall op with
    | true => rfl
    | false =>
      obtain ⟨k, hk⟩ := (resumes_operation { f with ip := f.ip + 1 } w hop s).ok hrun
      cases hk
  cases hmoves with
  | @call _ _ popped pushed targets _ _ _ hnext hmem =>
    cases op with
    | invoke | invokeMethod | prefixOp | infixOp =>
      cases hnext
      exact congrArg Prod.fst (List.mem_singleton.1 hmem)
    | _ => cases hcalls

end Exec

namespace Machine

/-- What a step does to the calls in progress. -/
inductive Stepped (m : Machine) : Outcome → Prop where
  /-- A callback gives a value, or an object is made. -/
  | answered {c : Call} {s : Store} {v : Value} :
      m.pending = some c → Stepped m (deliver ⟨s, m.frames, none, m.depth, m.limit⟩ v)
  | started {c : Call} {s : Store} {f : Frame} :
      m.pending = some c → m.depth < m.limit →
        Stepped m (.running ⟨s, f :: m.frames, none, m.depth + 1, m.limit⟩)
  /-- A callback has another call made in its place. -/
  | again {c c' : Call} {s : Store} :
      m.pending = some c → Stepped m (.running ⟨s, m.frames, some c', m.depth, m.limit⟩)
  | waiting {c : Call} {r : Request} {s : Store} :
      m.pending = some c → Stepped m (.waiting r ⟨s, m.frames, none, m.depth, m.limit⟩)
  | refused {c : Call} {s : Store} {e : Fault} :
      m.pending = some c → Stepped m (raise ⟨s, m.frames, none, m.depth, m.limit⟩ e)
  | stuck {c : Call} {s : Store} :
      m.pending = some c → Stepped m (.stuck ⟨s, m.frames, none, m.depth, m.limit⟩)
  /-- The innermost call executes an instruction, after which it goes on as `g`. -/
  | next {f g : Frame} {rest : List Frame} {s : Store} :
      m.pending = none → m.frames = f :: rest → f.ip < f.prototype.code.size →
      Stepped m (.running ⟨s, g :: rest, none, m.depth, m.limit⟩)
  /-- The innermost call executes an instruction that has a call made. -/
  | call {f g : Frame} {rest : List Frame} {c : Call} {s : Store} :
      m.pending = none → m.frames = f :: rest → f.ip < f.prototype.code.size → g.ip = f.ip + 1 →
      Stepped m (.running ⟨s, g :: rest, some c, m.depth, m.limit⟩)
  | failed {f : Frame} {rest : List Frame} {s : Store} {e : Fault} :
      m.pending = none → m.frames = f :: rest → f.ip < f.prototype.code.size →
      Stepped m (raise ⟨s, { f with ip := f.ip + 1 } :: rest, none, m.depth, m.limit⟩ e)
  /-- The innermost call has no instruction left. -/
  | left {f : Frame} {rest : List Frame} {s : Store} {v : Value} :
      m.pending = none → m.frames = f :: rest → f.prototype.code.size ≤ f.ip →
      Stepped m (deliver ⟨s, rest, none, m.depth - 1, m.limit⟩ v)
  | rested : m.pending = none → m.frames = [] → Stepped m (.returned .null m)

section

variable {s : Store} {fs : List Frame} {call : Call} {depth limit : Nat}

theorem start_stepped (r : Store) (closure : Closure) (this : Option Value) (args : List Value)
    (result : Option Value) :
    Stepped ⟨s, fs, some call, depth, limit⟩
      (start ⟨r, fs, none, depth, limit⟩ closure this args result) := by
  unfold start
  dsimp only
  split
  · exact .refused rfl
  · rename_i hdepth
    split
    · exact .refused rfl
    · split
      · exact .stuck rfl
      · exact .started rfl (Nat.lt_of_not_le hdepth)

theorem callMember_stepped (r : Store) (v : Value) (c : Call) :
    Stepped ⟨s, fs, some call, depth, limit⟩ (callMember ⟨r, fs, none, depth, limit⟩ v c) := by
  unfold callMember
  split
  · exact start_stepped _ _ _ _ _
  · exact .again rfl

theorem instantiate_stepped (id : TypeId) (c : Call) :
    Stepped ⟨s, fs, some call, depth, limit⟩ (instantiate ⟨s, fs, none, depth, limit⟩ id c) := by
  unfold instantiate
  dsimp only
  split
  · exact .refused rfl
  · split
    · exact callMember_stepped _ _ _
    · split
      · exact .answered rfl
      · exact .refused rfl

theorem callNative_stepped (host : Host) (id : CallbackId) (c : Call) :
    Stepped ⟨s, fs, some call, depth, limit⟩
      (callNative host ⟨s, fs, none, depth, limit⟩ id c) := by
  unfold callNative
  dsimp only
  split
  · exact .answered rfl
  · exact .waiting rfl
  · exact .again rfl
  · exact .refused rfl

theorem enter_stepped (host : Host) (c : Call) :
    Stepped ⟨s, fs, some call, depth, limit⟩ (enter host ⟨s, fs, none, depth, limit⟩ c) := by
  unfold enter
  split
  · exact .refused rfl
  · exact start_stepped _ _ _ _ _
  · exact callNative_stepped host _ _
  · exact instantiate_stepped _ _
  · split
    · exact callMember_stepped _ _ _
    · exact .refused rfl
  · exact .refused rfl

end

theorem step_stepped (host : Host) (m : Machine) : Stepped m (m.step host) := by
  obtain ⟨s, frames, pending, depth, limit⟩ := m
  cases pending with
  | some c => exact enter_stepped host c
  | none =>
    cases frames with
    | nil => exact .rested rfl rfl
    | cons f rest =>
      simp only [step]
      split
      · rename_i w hw
        have hlt : f.ip < f.prototype.code.size := (Array.getElem?_eq_some_iff.1 hw).1
        have hexec := execute_executed f w rest s depth limit
        generalize execute f w rest s depth limit = o at hexec ⊢
        cases hexec with
        | next => exact .next rfl rfl hlt
        | call _ hrun hmoves => exact .call rfl rfl hlt (Exec.ip_of_call hrun hmoves)
        | failed | undecoded => exact .failed rfl rfl hlt
      · rename_i hnone
        exact .left rfl rfl (Array.getElem?_eq_none_iff.1 hnone)

/-- What giving a machine a task leads to at once. -/
inductive Begun (m : Machine) : Outcome → Prop where
  | call {c : Call} {s : Store} : Begun m (.running ⟨s, m.frames, some c, m.depth, m.limit⟩)
  | answered {s : Store} {v : Value} :
      Begun m (deliver ⟨s, m.frames, m.pending, m.depth, m.limit⟩ v)
  | failed {s : Store} {e : Fault} : Begun m (raise ⟨s, m.frames, m.pending, m.depth, m.limit⟩ e)

theorem begun_afterApplied (m : Machine) (s : Store) (a : Applied) :
    Begun m ({ m with store := s }.afterApplied a) := by
  cases a with
  | value v => exact .answered
  | call c => exact .call

theorem start_begun (m : Machine) (t : Task) : Begun m (t.start m) := by
  cases t with
  | program p args | call c => exact .call
  | method receiver name args =>
    unfold Task.start callMethod
    dsimp only
    split
    · exact .call
    · exact .failed
  | infixOp op left right =>
    unfold Task.start applyInfix
    dsimp only
    split
    · exact begun_afterApplied m _ _
    · exact .failed
  | prefixOp op operand =>
    unfold Task.start applyPrefix
    dsimp only
    split
    · exact begun_afterApplied m m.store _
    · exact .failed

theorem unwind_eq (m : Machine) :
    ∃ s, m.unwind = ⟨s, [], m.pending, m.depth - m.frames.length, m.limit⟩ := by
  obtain ⟨s, frames, pending, depth, limit⟩ := m
  induction frames generalizing s depth with
  | nil => exact ⟨s, rfl⟩
  | cons f rest ih =>
    obtain ⟨s', h⟩ := ih (f.closeFrom 0 s).2 (depth - 1)
    refine ⟨s', Eq.trans h ?_⟩
    simp only [List.length_cons, Machine.mk.injEq, true_and, and_true]
    omega

end Machine

/-- Holds a function of the embedding program. -/
def Store.hosting : Store :=
  { Store.empty with callbacks := #[⟨"again", .host⟩] }

/-- Calls what it is given. -/
def Prototype.asking : Prototype :=
  { (default : Prototype) with
    code := #[(Insn.wide .loadLocal 0).pack, (Insn.wide .invoke 0).pack, (Insn.simple .ret).pack]
    params := 1
    maxStack := 1
    lines := .ofList [3, 4, 5] }

/-- Has the function called. -/
def Task.asking : Task := .program .asking [.callback 0]

/-- The function is called, takes the machine over and has itself called again. -/
def Act.nested : List Act := [.step, .step, .step, .takeOver, .begin .asking]

end Refscript
