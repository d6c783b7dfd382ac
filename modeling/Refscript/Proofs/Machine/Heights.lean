import Refscript.Proofs.Code.HeightSearch
import Refscript.Proofs.Machine.Run

/-!
# Refscript.Proofs.Machine.Heights

The static check of stack heights is right about every run: a call of a checked function has,
whenever it is about to execute an instruction, as many values on its stack as the check recorded
for that offset.

`Outcome.Balanced` is the invariant. A call that goes on has a height that a path through its code
leads to, or has just been ended by `ret`; a call that waits for the result of another one has a
value less. It says nothing about calls of unchecked functions, so they may take part in the run.

`recorded_height` puts this together with what the check records, and concludes that checked
functions never find their stack too short.
-/

namespace Refscript

open StackCheck

variable {f : Frame} {o o' : Outcome} {w : Word} {s : Store}

namespace Frame

/-- The call has a height that a path through its code leads to. -/
def Settled (f : Frame) : Prop :=
  checkOne f.prototype = .ok () → Reached f.prototype f.ip f.stack.length

/-- The call will have such a height once it is given the result that it waits for. -/
def Suspended (f : Frame) : Prop :=
  checkOne f.prototype = .ok () → Reached f.prototype f.ip (f.stack.length + 1)

/-- The call has been ended by `ret`. -/
structure Returned (f : Frame) : Prop where
  ip : f.ip = f.prototype.code.size
  length : f.stack.length = 1
  le_maxStack : checkOne f.prototype = .ok () → 1 ≤ f.prototype.maxStack

theorem Suspended.push (h : f.Suspended) (v : Value) : (f.push v).Settled := h

/-- Where a path through the code has come, executing an instruction follows a path. -/
theorem follow_of_settled (h : f.Settled) (hw : f.prototype.code[f.ip]? = some w)
    (hcheck : checkOne f.prototype = .ok ()) :
    ∃ op popped pushed targets, w.op? = some op ∧ effect? op w = some (popped, pushed) ∧
      popped ≤ f.stack.length ∧
      successors? f.prototype op w f.ip (f.stack.length - popped + pushed) = some targets ∧
      ∀ t ∈ targets, Reached f.prototype t.1 t.2 := by
  have hr := h hcheck
  obtain ⟨hlt, _⟩ := Array.getElem?_eq_some_iff.1 hw
  obtain ⟨targets, hfol⟩ := (checkOne_ok_iff.1 hcheck).1.follows hr hlt
  obtain ⟨op, popped, pushed, hop, heff, hpop, _, hs⟩ := (follow_ok_iff hw).1 hfol
  exact ⟨op, popped, pushed, targets, hop, heff, hpop, hs, fun t ht => .next hr hlt hfol ht⟩

theorem reached_of_moves {op : Opcode} {popped pushed : Nat} {targets : List (Nat × Nat)}
    {t : Nat × Nat} (h : f.Settled) (hw : f.prototype.code[f.ip]? = some w) (hop : w.op? = some op)
    (heff : effect? op w = some (popped, pushed))
    (hs : successors? f.prototype op w f.ip (f.stack.length - popped + pushed) = some targets)
    (ht : t ∈ targets) (hcheck : checkOne f.prototype = .ok ()) : Reached f.prototype t.1 t.2 := by
  obtain ⟨op', popped', pushed', targets', hop', heff', _, hs', hall⟩ :=
    follow_of_settled h hw hcheck
  rw [hop] at hop'
  cases hop'
  rw [heff] at heff'
  cases heff'
  rw [hs] at hs'
  cases hs'
  exact hall t ht

end Frame

/-- The innermost call goes on, those around it wait. -/
def Frame.Stacked : List Frame → Prop
  | [] => True
  | f :: rest => (f.Settled ∨ f.Returned) ∧ ∀ g ∈ rest, g.Suspended

namespace Outcome

def Balanced : Outcome → Prop
  | running ⟨_, frames, none, _, _⟩ => Frame.Stacked frames
  | running ⟨_, frames, some _, _, _⟩ => ∀ g ∈ frames, g.Suspended
  | waiting _ m => m.pending = none ∧ ∀ g ∈ m.frames, g.Suspended
  | _ => True

/-- The next step executes `ret`. -/
def Returning : Outcome → Prop
  | running m =>
    m.pending = none ∧ ∃ f rest w, m.frames = f :: rest ∧ f.prototype.code[f.ip]? = some w ∧
      w.op? = some .ret
  | _ => False

variable {host : Host}

/-- What the innermost call is like right after a move from `o`. -/
def Arrives (o : Outcome) : Outcome → Prop
  | running ⟨_, f :: rest, none, _, _⟩ =>
    (o.Returning → f.Returned) ∧ (¬o.Returning → f.Settled) ∧ ∀ g ∈ rest, g.Suspended
  | o' => o'.Balanced

theorem Arrives.balanced (h : o.Arrives o') : o'.Balanced := by
  unfold Arrives at h
  split at h
  · by_cases hret : o.Returning
    · exact ⟨.inr (h.1 hret), h.2.2⟩
    · exact ⟨.inl (h.2.1 hret), h.2.2⟩
  · exact h

theorem arrives_deliver {m : Machine} (hret : ¬o.Returning) (hpending : m.pending = none)
    (h : ∀ g ∈ m.frames, g.Suspended) (v : Value) : o.Arrives (m.deliver v) := by
  obtain ⟨s, frames, pending, depth, limit⟩ := m
  cases hpending
  cases frames with
  | nil => exact trivial
  | cons f rest =>
    exact ⟨fun hr => absurd hr hret, fun _ => (h f List.mem_cons_self).push v,
      fun g hg => h g (List.mem_cons_of_mem _ hg)⟩

theorem arrives_raise (m : Machine) (e : Fault) : o.Arrives (m.raise e) :=
  m.raise_cases (P := o.Arrives) e trivial trivial

theorem arrives_called {fs : List Frame} {call : Call} (hret : ¬o.Returning)
    (h : ∀ g ∈ fs, g.Suspended) (hcall : Machine.Called host s fs call o') : o.Arrives o' := by
  cases hcall with
  | value => exact arrives_deliver hret rfl h _
  | started => exact ⟨fun hr => absurd hr hret, fun _ _ => .start, h⟩
  | again =>
    cases fs with
    | nil => exact h
    | cons f rest => exact h
  | waiting => exact ⟨rfl, h⟩
  | failed => exact arrives_raise _ _
  | stuck => exact trivial

theorem arrives_executed {rest : List Frame} {depth limit : Nat}
    (ho : o = .running ⟨s, f :: rest, none, depth, limit⟩) (hw : f.prototype.code[f.ip]? = some w)
    (h : f.Settled) (hrest : ∀ g ∈ rest, g.Suspended)
    (hexec : Machine.Executed s f rest w depth limit o') : o.Arrives o' := by
  subst ho
  have hret : Returning (.running ⟨s, f :: rest, none, depth, limit⟩) ↔ w.op? = some .ret := by
    constructor
    · rintro ⟨_, f', rest', w', hfs, hw', hop⟩
      cases hfs
      rw [hw] at hw'
      cases hw'
      exact hop
    · exact fun hop => ⟨rfl, f, rest, w, rfl, hw, hop⟩
  cases hexec with
  | @next op g t hop _ hm =>
    have hsame := hm.sameCall
    change f.SameCall g at hsame
    have hproto : g.prototype = f.prototype := congrArg Closure.prototype hsame.closure
    cases hm with
    | @next g popped pushed targets _ heff hpop hs hmem =>
      refine ⟨fun hr => ?_, fun _ hcheck => ?_, hrest⟩
      · rw [hret, hop] at hr
        cases hr
        cases hs
        cases hmem
      · rw [hproto] at hcheck ⊢
        exact Frame.reached_of_moves h hw hop heff hs hmem hcheck
    | ret _ hopret hpos hip hlen =>
      refine ⟨fun _ => ⟨by rw [hip, hproto], hlen, fun hcheck => ?_⟩,
        fun hr => absurd (hret.2 (hopret ▸ hop)) hr, hrest⟩
      rw [hproto] at hcheck ⊢
      exact Nat.le_trans hpos (h hcheck).le_maxStack
  | @call op c g t hop _ hm =>
    have hproto : g.prototype = f.prototype := congrArg Closure.prototype hm.sameCall.closure
    cases hm with
    | @call _ _ popped pushed targets _ heff hpop hs hmem =>
      intro k hk
      rcases List.mem_cons.1 hk with rfl | hk
      · intro hcheck
        rw [hproto] at hcheck ⊢
        exact Frame.reached_of_moves h hw hop heff hs hmem hcheck
      · exact hrest k hk
  | failed | undecoded => exact arrives_raise _ _

theorem settled_of_stacked {rest : List Frame} (h : Frame.Stacked (f :: rest))
    (hw : f.prototype.code[f.ip]? = some w) : f.Settled := by
  rcases h.1 with h | ⟨hip, _, _⟩
  · exact h
  · obtain ⟨hlt, _⟩ := Array.getElem?_eq_some_iff.1 hw
    omega

theorem Move.arrives (h : o.Balanced) (hm : Move host o o') : o.Arrives o' := by
  cases hm with
  | step m =>
    refine Machine.step_cases (P := Arrives (.running m)) host m ?_ ?_ ?_ ?_
    · intro c hp o' hcall
      obtain ⟨s, frames, pending, depth, limit⟩ := m
      cases hp
      exact arrives_called (fun hr => nomatch hr.1) h hcall
    · intro f rest w hp hfs hw o' hexec
      obtain ⟨s, frames, pending, depth, limit⟩ := m
      cases hp
      cases hfs
      exact arrives_executed rfl hw (settled_of_stacked h hw) h.2 hexec
    · intro f rest hp hfs hnone v depth' limit'
      obtain ⟨s, frames, pending, depth, limit⟩ := m
      cases hp
      cases hfs
      refine arrives_deliver ?_ rfl h.2 v
      rintro ⟨_, f', rest', w, hfs, hw, _⟩
      cases hfs
      rw [hnone] at hw
      cases hw
    · exact fun _ _ => trivial
  | @answer r m a _ =>
    unfold Machine.resume
    split
    · exact arrives_deliver id h.1 h.2 _
    · exact arrives_raise _ _

theorem Run.balanced (h : o.Balanced) (hr : Run host o o') : o'.Balanced := by
  induction hr with
  | refl => exact h
  | move _ hm ih => exact (hm.arrives ih).balanced

end Outcome

/-- The function passes the check, with all functions inside it. -/
def Closure.Checked (c : Closure) : Prop :=
  c.prototype.checkHeights = .ok ()

theorem hereditary_checked : Hereditary Closure.Checked := by
  intro c hc q hq cells _
  exact ((check_ok_iff _).1 hc).2 q hq

/-- A call of a checked function never finds its stack too short. -/
theorem Frame.Settled.not_blames {op : Opcode} (h : f.Settled)
    (hcheck : checkOne f.prototype = .ok ()) (hw : f.prototype.code[f.ip]? = some w)
    (hop : w.op? = some op) : ¬Exec.Blames f s w op .stackUnderflow := by
  intro hb
  obtain ⟨op', popped, pushed, _, hop', heff, hpop, _⟩ := follow_of_settled h hw hcheck
  rw [hop] at hop'
  cases hop'
  have := hb.underflow rfl heff
  omega

/-- Whatever runs beside it, a call of a checked function has at every instruction the height that
the check recorded there; after `ret` it is at the exit with its result alone. It never exceeds the
maximum and ends with at most one value. So if all functions are checked, no stack is ever too
short. The functions of the host are of the narrow kind of `Host`. -/
theorem recorded_height (host : Host) {m₀ : Machine} (hidle : m₀.frames = []) :
    (∀ {o : Outcome} {m : Machine} {f : Frame} {rest : List Frame},
      Outcome.Run host (.running m₀) o → Outcome.Move host o (.running m) → m.pending = none →
      m.frames = f :: rest →
      f.prototype.checkHeights = .ok () → ∃ hs, heights f.prototype = .ok hs ∧
        (o.Returning → f.ip = f.prototype.code.size ∧ f.stack.length = 1) ∧
        (¬o.Returning → hs[f.ip]? = some (some f.stack.length)) ∧
        f.stack.length ≤ f.prototype.maxStack ∧
        (f.prototype.code[f.ip]? = none → f.stack.length ≤ 1)) ∧
    ((∀ c ∈ m₀.store.closures.toList, c.prototype.checkHeights = .ok ()) →
      ¬host.Raises .stackUnderflow →
      ∀ {e : RuntimeError} {m : Machine}, Outcome.Run host (.running m₀) (.failed e m) →
        e.fault ≠ .stackUnderflow) := by
  have hstart : (Outcome.running m₀).Balanced := by
    obtain ⟨s, frames, pending, depth, limit⟩ := m₀
    cases hidle
    cases pending with
    | none => exact trivial
    | some c => exact fun g hg => by cases hg
  refine ⟨?_, ?_⟩
  · intro o m f rest hr hm hp hfs hcheck
    have hone := ((check_ok_iff _).1 hcheck).1
    obtain ⟨hc, hend⟩ := checkOne_ok_iff.1 hone
    obtain ⟨hs, hhs⟩ := heights_ok_iff.2 hc
    have harr := hm.arrives (hr.balanced hstart)
    obtain ⟨s, frames, pending, depth, limit⟩ := m
    cases hp
    cases hfs
    obtain ⟨hret, hsettled, _⟩ := harr
    refine ⟨hs, hhs, fun h => ⟨(hret h).ip, (hret h).length⟩,
      fun h => (getElem?_heights_iff hhs _ _).2 (hsettled h hone), ?_, ?_⟩
    · by_cases h : o.Returning
      · rw [(hret h).length]
        exact (hret h).le_maxStack hone
      · exact (hsettled h hone).le_maxStack
    · intro hnone
      by_cases h : o.Returning
      · exact Nat.le_of_eq (hret h).length
      · have hr := hsettled h hone
        have hle := hc.inside hr
        have hge := Array.getElem?_eq_none_iff.1 hnone
        exact hend _ (Nat.le_antisymm hle hge ▸ hr)
  · intro hclosures hhost e m hr hfault
    cases hr with
    | @move o _ hr hm =>
      obtain ⟨m', f, rest, w, rfl, hp, hfs, hw, hblame⟩ :=
        hm.blames (by rw [hfault]; rfl) (by rw [hfault]; exact hhost)
      have hintact : Outcome.Intact Closure.Checked (.running m') :=
        hr.intact hereditary_checked (Outcome.intact_idle hidle hclosures)
      have hbal := hr.balanced hstart
      obtain ⟨s, frames, pending, depth, limit⟩ := m'
      cases hp
      cases hfs
      have hone : checkOne f.prototype = .ok () := by
        rcases hintact.frames f List.mem_cons_self with hempty | hchecked
        · -- the empty function has no instruction to execute
          rw [Frame.prototype, hempty] at hw
          cases hw
        · exact ((check_ok_iff _).1 hchecked).1
      rw [hfault] at hblame
      rcases hblame with ⟨_, n, hn⟩ | ⟨op, hop, hb⟩
      · cases hn
      · exact (Outcome.settled_of_stacked hbal hw).not_blames hone hw hop hb

/-- A function put together by hand, which returns `true`. -/
def Prototype.returningTrue : Prototype :=
  { (default : Prototype) with
    code := #[(Insn.simple .pushTrue).pack, (Insn.simple .ret).pack]
    maxStack := 1 }

/-- A machine that is to call it. -/
def Machine.callingTrue : Machine :=
  ⟨{ Store.empty with closures := #[⟨.returningTrue, #[]⟩] }, [],
    some ⟨.closure 0, none, [], none⟩, 0, 1⟩

/-- After its first instruction the call has the height that the check recorded at offset 1, and no
run of the machine finds a stack too short. -/
theorem recorded_height_returningTrue :
    Machine.callingTrue.frames = [] ∧ Prototype.returningTrue.checkHeights = .ok () ∧
    (∃ hs, heights .returningTrue = .ok hs ∧ hs[1]? = some (some 1)) ∧
      ¬noHost.Raises .stackUnderflow ∧
    ∀ {e : RuntimeError} {m : Machine}, Outcome.Run noHost (.running .callingTrue) (.failed e m) →
      e.fault ≠ .stackUnderflow := by
  have hcheck : Prototype.returningTrue.checkHeights = .ok () := by cbv
  have hhost : ¬noHost.Raises .stackUnderflow := by
    rintro ⟨_, _, _, _, h⟩
    cases h
  refine ⟨rfl, hcheck, ?_, hhost, (recorded_height noHost rfl).2 ?_ hhost⟩
  · have hentered : Outcome.Run noHost (.running .callingTrue) (Machine.callingTrue.step noHost) :=
      .move .refl (.step _)
    obtain ⟨hs, hhs, _, hheight, _⟩ :=
      (recorded_height noHost rfl).1 hentered (.step _) rfl rfl hcheck
    refine ⟨hs, hhs, hheight ?_⟩
    rintro ⟨_, f, rest, w, hfs, hw, hop⟩
    cases hfs
    cases hw
    cases hop
  · intro c hc
    rw [List.mem_singleton.1 hc]
    exact hcheck

end Refscript
