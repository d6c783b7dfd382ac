import Refscript.Proofs.Machine.Evaluation
import Refscript.Proofs.Machine.Lockstep

/-!
# Refscript.Proofs.Machine.Detours

Operands in variables. A call that evaluates some operands one after the other and then duplicates
them does the same as one that takes each of them into a slot of its own, which no other code knows,
and then reads all of these slots twice.

* `Transfer.run_eq_code`: values are moved between the stack and the slots of a call as variables
  are set and read.
* `Outcome.afterVia`: runs in which a call moves values so on the way.
* `Outcome.follows_intoSlots`: such a run goes the same way as the one that duplicates, move by
  move.
-/

namespace Refscript

/-- What a call does with one of its slots: it takes the top of its stack into it, or puts its value
on top. -/
inductive Transfer where
  | keep (slot : Nat)
  | fetch (slot : Nat)

namespace Transfer

def run (f : Frame) : Transfer → Action Frame
  | keep slot => do
    let (v, f) ← Exec.pop f
    if ← Action.look fun s => decide (slot < (s.locals f.activation).size) then
      Store.put (.slot f.activation slot) v
      return f
    else Action.fail (.invalidInstruction (Insn.wide .initLocal slot).pack.bits.toNat)
  | fetch slot => do
    let v ← Action.reading (f.localAt · slot)
    return f.push v

/-- The instructions that variables are set and read with. -/
def code : Transfer → List Insn
  | keep slot => [.wide .initLocal slot, .simple .pop]
  | fetch slot => [.wide .loadLocal slot]

theorem run_eq_code (x : Transfer) (hfits : ∀ i ∈ x.code, i.fits = true) (f : Frame) :
    x.run f = x.code.foldlM (fun f i => Exec.after <$> Exec.operation f i.pack i.op) f := by
  cases x with
  | keep slot =>
    have hc : (Insn.wide .initLocal slot).pack.c = slot :=
      Insn.c_pack rfl (hfits _ List.mem_cons_self)
    have hinit : Exec.operation f (Insn.wide .initLocal slot).pack (Insn.wide .initLocal slot).op =
      (do
        let v ← Action.ofExcept f.top
        if ← Action.look fun s =>
          decide ((Insn.wide .initLocal slot).pack.c < (s.locals f.activation).size) then
          Store.put (.slot f.activation (Insn.wide .initLocal slot).pack.c) v
          return .next f
        else Action.fail (.invalidInstruction (Insn.wide .initLocal slot).pack.bits.toNat)) := rfl
    rw [hc] at hinit
    obtain ⟨closure, this, activation, stack, ip, openCells, result⟩ := f
    cases stack with
    | nil =>
      rw [code, List.foldlM_cons, hinit]
      rfl
    | cons v stack =>
      refine funext fun s => ?_
      rw [code, List.foldlM_cons, hinit]
      simp only [run, Exec.pop, Frame.pop, Frame.top, Action.ofExcept, Action.look, bind,
        EStateM.bind, Functor.map, EStateM.map]
      by_cases hslot : slot < (s.locals activation).size
      · simp only [hslot]
        rfl
      · simp only [hslot]
        rfl
  | fetch slot =>
    have hc : (Insn.wide .loadLocal slot).pack.c = slot :=
      Insn.c_pack rfl (hfits _ List.mem_cons_self)
    have hload : Exec.operation f (Insn.wide .loadLocal slot).pack (Insn.wide .loadLocal slot).op =
        (do Exec.pushed f (← Action.reading (f.localAt · (Insn.wide .loadLocal slot).pack.c))) :=
          rfl
    rw [code, List.foldlM_cons, hload, hc]
    simp [run, Exec.pushed, Exec.after]

end Transfer

/-- Transfers that a call makes before the instruction at `site`, or in its place. -/
structure Detour where
  site : Nat
  transfers : List Transfer
  skips : Bool

/-- A step in which the innermost call makes the detour. -/
def Detour.step (host : Host) (d : Detour) : Machine → Outcome
  | ⟨s, f :: rest, pending, depth, limit⟩ =>
    match d.transfers.foldlM Transfer.run f s with
    | .ok g s =>
      if d.skips then .running ⟨s, { g with ip := g.ip + 1 } :: rest, pending, depth, limit⟩
      else Machine.step host ⟨s, g :: rest, pending, depth, limit⟩
    | .error e s => Machine.raise ⟨s, f :: rest, pending, depth, limit⟩ e
  | m => m.step host

/-- The configuration after a number of moves, when the call with the activation makes the detours
one after the other, each as it comes to its site. -/
def Outcome.afterVia {ω : Type} (t : Terminal (StateM ω)) (host : Host) (A : ActivationId) :
    List Detour → Nat → Outcome × ω → Outcome × ω
  | [], n, c => after t host n c
  | _ :: _, 0, c => c
  | d :: ds, n + 1, (o, w) =>
    if o.stands A d.site then afterVia t host A ds n (d.step host o.machine, w)
    else afterVia t host A (d :: ds) n (move t host (o, w))

/-- The values of the slots from `x` on are put on the stack. -/
def Transfer.fetches (x count : Nat) : List Transfer :=
  (List.range count).map fun k => .fetch (x + k)

/-- The values that a call has on top of its stack at the sites and at `last` are taken into slots
from `x + n` on. In place of the instruction at `last`, all slots from `x` on are then read
twice. -/
def Detour.intoSlots (x last : Nat) : Nat → List Nat → List Detour
  | n, [] =>
    [⟨last, .keep (x + n) :: (Transfer.fetches x (n + 1) ++ Transfer.fetches x (n + 1)), true⟩]
  | n, site :: sites => ⟨site, [.keep (x + n)], false⟩ :: intoSlots x last (n + 1) sites

section Transfers

open Store

variable {A : ActivationId} {s : Store} {f : Frame}

theorem getElem?_locals_spare_add (us : List Value) (h : A < s.activations.size) (k : Nat) :
    ((s.spare A us.toArray).locals A)[(s.locals A).size + k]? = us[k]? := by
  rw [locals_spare (.inr h), if_pos rfl, Array.getElem?_append_right (Nat.le_add_right _ _),
    Nat.add_sub_cancel_left, List.getElem?_toArray]

theorem setLocal_spare_add (us : List Value) (h : A < s.activations.size) (k : Nat) (v : Value) :
    (s.spare A us.toArray).setLocal A ((s.locals A).size + k) v =
      s.spare A (us.set k v).toArray := by
  have hmodify : (s.activations.modify A (· ++ us.toArray)).modify A
    (·.setIfInBounds ((s.locals A).size + k) v) =
      s.activations.modify A (· ++ (us.set k v).toArray) := by
    refine Array.ext_getElem? fun b => ?_
    simp only [Array.getElem?_modify]
    by_cases hb : A = b
    · subst hb
      have hlocals : s.activations[A]? = some (s.locals A) := by simp [locals, h]
      rw [if_pos rfl, if_pos rfl, if_pos rfl, hlocals]
      simp only [Option.map_some]
      rw [Array.setIfInBounds_append_right (Nat.le_add_right _ _), Nat.add_sub_cancel_left,
        List.setIfInBounds_toArray]
    · rw [if_neg hb, if_neg hb, if_neg hb]
  exact congrArg (fun slots => { s with activations := slots }) hmodify

namespace Transfer

variable {v : Value} {st : List Value}

theorem run_keep (ks : List Value) (r : Value) (rest : List Value)
    (h : f.activation < s.activations.size) (hstack : f.stack = v :: st) :
    (keep ((s.locals f.activation).size + ks.length)).run f
      (s.spare f.activation (ks ++ r :: rest).toArray) =
      .ok { f with stack := st } (s.spare f.activation (ks ++ v :: rest).toArray) := by
  have hroom : (s.locals f.activation).size + ks.length <
      ((s.spare f.activation (ks ++ r :: rest).toArray).locals f.activation).size := by
    rw [locals_spare (.inr h), if_pos rfl]
    simp
  have hput := setLocal_spare_add (ks ++ r :: rest) h ks.length v
  rw [List.set_append_right _ _ (Nat.le_refl _), Nat.sub_self, List.set_cons_zero] at hput
  simp only [run, Exec.pop, Frame.pop, hstack, Action.ofExcept, Action.look, bind, EStateM.bind,
    hroom, decide_true, if_true, put, hput, pure, EStateM.pure]

theorem foldlM_fetches (us : List Value) (h : f.activation < s.activations.size) {n : Nat}
    (hn : n ≤ us.length) :
    (fetches (s.locals f.activation).size n).foldlM run f (s.spare f.activation us.toArray) =
      .ok { f with stack := (us.take n).reverse ++ f.stack } (s.spare f.activation us.toArray) := by
  induction n with
  | zero => rfl
  | succ n ih =>
    have hget := getElem?_locals_spare_add us h n
    rw [List.getElem?_eq_getElem hn] at hget
    rw [fetches, List.range_succ, List.map_append, List.foldlM_append, ← fetches]
    simp only [bind, EStateM.bind, ih (Nat.le_of_succ_le hn), List.map_cons, List.map_nil,
      List.foldlM_cons,
      List.foldlM_nil, run, Action.reading, Frame.localAt, hget, Frame.push, pure, EStateM.pure]
    rw [List.take_succ_eq_append_getElem hn, List.reverse_append]
    rfl

end Transfer

end Transfers

namespace Prototype

variable {P : Prototype} {last : Nat}

/-- The code from `i` up to `j` leaves one value, above what was on the stack before. -/
def Leaves (P : Prototype) (i j : Nat) : Prop :=
  i < j ∧ ∃ K : P.Piece, K.start = i ∧ K.stop = j ∧ K.height i = 0 ∧ K.height j = 1

/-- The code of the operands that follow the one that ends at the given place: each of them ends at
the next site, the last one at `last`. -/
inductive Ahead (P : Prototype) (last : Nat) : Nat → List Nat → Prop where
  | done : Ahead P last last []
  | more {i j : Nat} {sites : List Nat} : P.Leaves i j → Ahead P last j sites →
      Ahead P last i (i :: sites)

theorem Ahead.le {i : Nat} {sites : List Nat} (h : P.Ahead last i sites) : i ≤ last := by
  induction h with
  | done => exact Nat.le_refl _
  | more hleaves _ ih => exact Nat.le_trans (Nat.le_of_lt hleaves.1) ih

/-- The instruction at `site` duplicates the topmost values. -/
structure Duplicates (P : Prototype) (site count : Nat) : Prop where
  inside : site < P.code.size
  step {host : Host} {s : Store} {f : Frame} {around : List Frame} {depth limit : Nat}
    {vs base : List Value} :
    f.prototype = P → f.ip = site → f.stack = vs ++ base → vs.length = count →
    Machine.step host ⟨s, f :: around, none, depth, limit⟩ =
      .running ⟨s, { f with ip := f.ip + 1, stack := vs ++ (vs ++ base) } :: around,
        none, depth, limit⟩

end Prototype

namespace Outcome

/-- What holds in the course of a run of compiled functions, once the call has begun. -/
structure Sound (b : Nat) (A : ActivationId) (o : Outcome) : Prop where
  intact : o.Intact Closure.Compiled
  owned : Owned b o.machine.store o.machine.frames
  linked : o.machine.store.Linked
  begun : A < o.machine.store.activations.size

/-- The calls are the same, except that some of the operands `us` are not on the stack of the call,
which has not come past `last`. -/
inductive Aside (A : ActivationId) (last : Nat) (us : List Value) :
    List Frame → List Frame → Prop where
  | none {fs : List Frame} : Aside A last us fs fs
  | some (above : List Frame) {around : List Frame} {f : Frame} {kept base : List Value} :
      f.activation = A → f.ip ≤ last → kept <+: us →
      Aside A last us (above ++ f.onto (kept.reverse ++ base) :: around)
        (above ++ f.onto base :: around)

/-- The second outcome is the first one with the operands `us` in further slots of the call; as long
as the call has not come past `last`, some of them may be there in place of the stack. -/
structure Follows (A : ActivationId) (last : Nat) (us : List Value) (o o' : Outcome) : Prop where
  aside : Aside A last us o.machine.frames o'.machine.frames
  eq : o' = (o.spare A us.toArray).map ({ · with frames := o'.machine.frames })

variable {P : Prototype} {K : P.Piece} {A : ActivationId} {around : List Frame}
  {base base' us ks rest : List Value} {last b k count : Nat} {sites : List Nat} {o o₁ : Outcome}
  {ω : Type} {t : Terminal (StateM ω)} {host : Host}

theorem Sound.lends (h : o.Sound b A) (xs : Array Value) : o.machine.store.Lends A xs :=
  ⟨.inr h.begun, h.linked⟩

theorem Sound.move (hhost : host.Blind) (h : o.Sound b A) (w : ω) :
    (move t host (o, w)).1.Sound b A where
  intact := (Intact.kept hereditary_compiled).after t host h.intact w 1
  owned := (Owned.kept b).after t host h.owned w 1
  linked := (move_inStep t hhost h.intact (h.lends #[]) w).1.lends.linked
  begun := (kept_begun A).after t host h.begun w 1

theorem machine_spare (o : Outcome) (xs : Array Value) :
    (o.spare A xs).machine = o.machine.spare A xs := by
  cases o <;> rfl

theorem follows_spare (o : Outcome) (us : List Value) :
    Follows A last us o (o.spare A us.toArray) := by
  refine ⟨?_, ?_⟩
  · rw [machine_spare]
    exact .none
  · rw [machine_spare]
    cases o <;> rfl

theorem Evaluating.follows (h : Evaluating K A around (ks.reverse ++ base) base o o₁)
    (hks : ks <+: us) (hstop : K.stop ≤ last) : Follows A last us o (o₁.spare A us.toArray) := by
  cases h with
  | on hf => exact ⟨.some [] hf.activation (Nat.le_trans hf.stop hstop) hks, rfl⟩
  | calling above hf _ => exact ⟨.some above hf.activation (Nat.le_trans hf.stop hstop) hks, rfl⟩
  | waiting hf | stuck hf => exact ⟨.some _ hf.activation (Nat.le_trans hf.stop hstop) hks, rfl⟩
  | ending | ended => exact follows_spare _ _

theorem stands_spare (o : Outcome) (xs : Array Value) :
    (o.spare A xs).stands A k = o.stands A k := by
  cases o with
  | running m =>
    obtain ⟨s, frames, pending, depth, limit⟩ := m
    cases frames <;> cases pending <;> rfl
  | _ => rfl

theorem Evaluating.stands_eq (h : Evaluating K A around base base' o o₁) :
    o₁.stands A k = o.stands A k := by
  cases h with
  | @calling _ above _ pending => cases above <;> cases pending <;> rfl
  | _ => rfl

theorem afterVia_of_not {d : Detour} {ds : List Detour} (h : o.stands A d.site = false) (n : Nat)
    (w : ω) : afterVia t host A (d :: ds) (n + 1) (o, w) =
      afterVia t host A (d :: ds) n (Outcome.move t host (o, w)) := by
  rw [afterVia, h]
  rfl

theorem afterVia_of_stands {d : Detour} {ds : List Detour} (h : o.stands A d.site = true) (n : Nat)
    (w : ω) : afterVia t host A (d :: ds) (n + 1) (o, w) =
      afterVia t host A ds n (d.step host o.machine, w) := by
  rw [afterVia, h]
  rfl

theorem intoSlots_cons {i : Nat} (h : P.Ahead last i sites) (x n : Nat) :
    ∃ d ds, Detour.intoSlots x last n sites = d :: ds ∧ d.site = i := by
  cases h with
  | done | more => exact ⟨_, _, rfl, rfl⟩

section Steps

variable {s : Store} {f : Frame} {depth limit : Nat} {v r : Value}

theorem step_keep (hact : f.activation = A) (hbegun : A < s.activations.size)
    (hstack : f.stack = v :: base) :
    Detour.step host ⟨k, [.keep ((s.locals A).size + ks.length)], false⟩
        ⟨s.spare A (ks ++ r :: rest).toArray, f :: around, none, depth, limit⟩ =
      Machine.step host
        ⟨s.spare A (ks ++ v :: rest).toArray, { f with stack := base } :: around, none,
          depth, limit⟩ := by
  subst hact
  have hkeep := Transfer.run_keep ks r rest hbegun hstack
  simp only [Detour.step, List.foldlM_cons, List.foldlM_nil, bind, EStateM.bind, hkeep,
    pure, EStateM.pure]
  rfl

theorem step_fetch (hact : f.activation = A) (hbegun : A < s.activations.size)
    (hstack : f.stack = v :: base) : Detour.step host ⟨k, .keep ((s.locals A).size + ks.length) ::
      (Transfer.fetches (s.locals A).size (ks.length + 1) ++
          Transfer.fetches (s.locals A).size (ks.length + 1)), true⟩
        ⟨s.spare A (ks ++ [r]).toArray, f :: around, none, depth, limit⟩ =
      .running ⟨s.spare A (ks ++ [v]).toArray,
        { f with ip := f.ip + 1, stack := (ks ++ [v]).reverse ++ ((ks ++ [v]).reverse ++ base) } ::
        around, none, depth, limit⟩ := by
  subst hact
  have hkeep := Transfer.run_keep ks r [] hbegun hstack
  have hfetches : ∀ st,
    (Transfer.fetches (s.locals f.activation).size (ks.length + 1)).foldlM Transfer.run
      { f with stack := st } (s.spare f.activation (ks ++ [v]).toArray) =
        .ok { f with stack := (ks ++ [v]).reverse ++ st }
          (s.spare f.activation (ks ++ [v]).toArray) := by
    intro st
    have hfold :=
      Transfer.foldlM_fetches (f := { f with stack := st }) (ks ++ [v]) hbegun (Nat.le_refl _)
    rwa [List.take_length, List.length_append, List.length_singleton] at hfold
  simp only [Detour.step, List.foldlM_cons, List.foldlM_append, bind, EStateM.bind, hkeep, hfetches]
  rfl

end Steps

theorem Evaluating.value (h : Evaluating K A around base base' o o₁) (ho : o.Sound b A)
    (hone : K.height K.stop = 1) (hstop : K.stop < P.code.size)
    (hstands : o.stands A K.stop = true) :
    ∃ (s : Store) (f : Frame) (v : Value) (depth limit : Nat), f.prototype = P ∧ f.activation = A ∧
      f.ip = K.stop ∧ (s.locals A).size = P.slots ∧
      o = running ⟨s, { f with stack := v :: base } :: around, none, depth, limit⟩ ∧
      o₁ = running ⟨s, { f with stack := v :: base' } :: around, none, depth, limit⟩ := by
  obtain ⟨s, f, depth, limit, hf, hip, rfl, rfl⟩ := h.stands ho.owned hstop hstands
  obtain ⟨v, hv⟩ : ∃ v, f.stack = [v] := List.length_eq_one_iff.1 (hf.height.trans (hip ▸ hone))
  have hslots := (ho.intact.slots (f.onto base) List.mem_cons_self).2
  refine ⟨s, f, v, depth, limit, hf.prototype, hf.activation, hip, ?_, ?_, ?_⟩
  · rw [← hf.activation, ← hf.prototype]
    exact hslots
  · rw [Frame.onto, hv]
    rfl
  · rw [Frame.onto, hv]
    rfl

theorem Evaluating.move (hhost : host.Blind) (h : Evaluating K A around base base' o o₁)
    (ho : o.Sound b A) (ho₁ : o₁.Intact Closure.Compiled) (hnot : o.stands A K.stop = false)
    (xs : Array Value) (w : ω) : Evaluating K A around base base' (Outcome.move t host (o, w)).1
      (Outcome.move t host (o₁, w)).1 ∧ Outcome.move t host (o₁.spare A xs, w) =
        ((Outcome.move t host (o₁, w)).1.spare A xs, (Outcome.move t host (o, w)).2) := by
  obtain ⟨hmove, hworld⟩ := evaluating_move t host h ho.owned ho.begun hnot w
  have hstore : o₁.machine.store = o.machine.store := by cases h <;> rfl
  obtain ⟨hspare, hsame⟩ := move_inStep t hhost ho₁ (hstore ▸ ho.lends xs) w
  exact ⟨hmove, Prod.ext hspare.eq (hsame.trans hworld)⟩

/-- The end of an operand that is followed by another one: with its value in a slot, the call goes
on as if the value had not been on its stack. -/
theorem Evaluating.keep {K' : P.Piece} (h : Evaluating K A around (ks.reverse ++ base) base o o₁)
    (ho : o.Sound b A) (ho₁ : o₁.Intact Closure.Compiled) (hone : K.height K.stop = 1)
    (hstop : K.stop < P.code.size) (hstands : o.stands A K.stop = true) (hstart : K'.start = K.stop)
    (hzero : K'.height K'.start = 0) (hlt : K'.start < K'.stop) (r : Value) (rest : List Value)
    (w : ω) : ∃ v o₂, Evaluating K' A around ((ks ++ [v]).reverse ++ base) base o o₂ ∧
      o₂.Intact Closure.Compiled ∧ o.stands A K'.stop = false ∧
      (Detour.step host ⟨K.stop, [.keep (P.slots + ks.length)], false⟩
        (o₁.spare A (ks ++ r :: rest).toArray).machine,
        w) = Outcome.move t host (o₂.spare A (ks ++ v :: rest).toArray, w) := by
  obtain ⟨s, f, v, depth, limit, hproto, hact, hip, hslots, rfl, rfl⟩ :=
    h.value ho hone hstop hstands
  have hamid : Frame.Amid K' A 0 { f with stack := [] } := by
    refine ⟨hproto, hact, Nat.le_of_eq (hstart.trans hip.symm), ?_, ?_⟩
    · rw [hip, ← hstart]
      exact Nat.le_of_lt hlt
    · rw [hip, ← hstart, hzero]
      rfl
  have hrev : (ks ++ [v]).reverse ++ base = v :: (ks.reverse ++ base) := by simp
  refine ⟨v, running ⟨s, { f with stack := base } :: around, none, depth, limit⟩, ?_, ?_, ?_, ?_⟩
  · rw [hrev]
    exact .on hamid
  · exact Refscript.Intact.sameCall ho₁ ⟨rfl, rfl, rfl, rfl⟩
  · have hne : f.ip ≠ K'.stop := by omega
    simp [Outcome.stands, hne]
  · rw [← hslots]
    exact congrArg (·, w) (step_keep (f := { f with stack := v :: base }) hact ho.begun rfl)

/-- The end of the last operand: with all values in slots and each slot read twice, the call has on
its stack what it has when it duplicates them. -/
theorem Evaluating.fetch (hdup : P.Duplicates K.stop (ks.length + 1))
    (h : Evaluating K A around (ks.reverse ++ base) base o o₁) (ho : o.Sound b A)
    (hone : K.height K.stop = 1) (hstands : o.stands A K.stop = true) (r : Value) (w : ω) :
    ∃ v, (Detour.step host ⟨K.stop, .keep (P.slots + ks.length) ::
        (Transfer.fetches P.slots (ks.length + 1) ++ Transfer.fetches P.slots (ks.length + 1)),
        true⟩ (o₁.spare A (ks ++ [r]).toArray).machine, w) =
      ((Outcome.move t host (o, w)).1.spare A (ks ++ [v]).toArray,
        (Outcome.move t host (o, w)).2) := by
  obtain ⟨s, f, v, depth, limit, hproto, hact, hip, hslots, rfl, rfl⟩ :=
    h.value ho hone hdup.inside hstands
  have hrev : v :: (ks.reverse ++ base) = (ks ++ [v]).reverse ++ base := by simp
  have hmove : Outcome.move t host
        (running ⟨s, { f with stack := v :: (ks.reverse ++ base) } :: around, none, depth, limit⟩,
          w) =
      (running ⟨s,
        { f with ip := f.ip + 1, stack := (ks ++ [v]).reverse ++ ((ks ++ [v]).reverse ++ base) } ::
        around, none, depth, limit⟩, w) :=
    congrArg (·, w) (hdup.step hproto hip hrev (by simp))
  refine ⟨v, ?_⟩
  rw [hmove, ← hslots]
  exact congrArg (·, w) (step_fetch (f := { f with stack := v :: base }) hact ho.begun rfl)

/-- The moves of a run whose operands are taken into slots. The induction is over the number of
moves. What carries it is a third run, without the further slots: it is the original one, but for
the values in slots, which are missing on the stack. -/
theorem follows_ahead (hhost : host.Blind) (hdup : P.Duplicates last count) (n : Nat) (w : ω)
    (hone : K.height K.stop = 1) (hahead : P.Ahead last K.stop sites)
    (hrest : rest.length = sites.length + 1) (hcount : (ks ++ rest).length = count)
    (h : Evaluating K A around (ks.reverse ++ base) base o o₁) (ho : o.Sound b A)
    (ho₁ : o₁.Intact Closure.Compiled) : ∃ us o', us.length = count ∧
      afterVia t host A (Detour.intoSlots P.slots last ks.length sites) n
        (o₁.spare A (ks ++ rest).toArray, w) = (o', (after t host n (o, w)).2) ∧
      Follows A last us (after t host n (o, w)).1 o' := by
  have hstop := Nat.lt_of_le_of_lt hahead.le hdup.inside
  induction n generalizing K sites ks rest o o₁ w with
  | zero =>
    obtain ⟨d, ds, hds, _⟩ := intoSlots_cons hahead P.slots ks.length
    rw [hds]
    exact ⟨_, _, hcount, rfl, h.follows (List.prefix_append ks rest) hahead.le⟩
  | succ n ih =>
    rw [after]
    by_cases hstands : o.stands A K.stop = true
    · obtain ⟨r, rest, rfl⟩ := List.exists_cons_of_length_eq_add_one hrest
      have hthere : (o₁.spare A (ks ++ r :: rest).toArray).stands A K.stop = true := by
        rw [stands_spare, h.stands_eq, hstands]
      have hnext := ho.move (t := t) hhost w
      cases hahead with
      | done =>
        -- the last operand; from here on the stacks are the same
        cases List.length_eq_zero_iff.1 (Nat.succ.inj hrest)
        rw [List.length_append, List.length_singleton] at hcount
        subst hcount
        obtain ⟨v, hstep⟩ := h.fetch hdup ho hone hstands r w
        obtain ⟨hsame, hworld⟩ :=
          after_inStep t hhost hnext.intact (hnext.lends (ks ++ [v]).toArray)
          (Outcome.move t host (o, w)).2 n
        rw [Detour.intoSlots, afterVia_of_stands hthere, hstep, afterVia]
        exact ⟨ks ++ [v], _, by simp, Prod.ext hsame.eq hworld, follows_spare _ _⟩
      | more hleaves hahead =>
        -- the first instruction of the next operand is executed in the same move
        obtain ⟨hlt, K', hstart, rfl, hzero, hone'⟩ := hleaves
        rw [← hstart] at hlt hzero
        obtain ⟨v, o₂, h', ho₂, hnot, hstep⟩ :=
          h.keep ho ho₁ hone hstop hstands hstart hzero hlt r rest w
        obtain ⟨hmove, hspare⟩ := h'.move hhost ho ho₂ hnot (ks ++ v :: rest).toArray w
        rw [Detour.intoSlots, afterVia_of_stands hthere, hstep, hspare]
        have hlength : (ks ++ [v]).length = ks.length + 1 := by simp
        have happend : ks ++ v :: rest = (ks ++ [v]) ++ rest := by simp
        rw [← hlength, happend]
        exact ih _ hone' hahead (Nat.succ.inj hrest) (by simpa using hcount) hmove hnext
          ((Intact.kept hereditary_compiled).after t host ho₂ w 1)
            (Nat.lt_of_le_of_lt hahead.le hdup.inside)
    · rw [Bool.not_eq_true] at hstands
      obtain ⟨hmove, hspare⟩ := h.move hhost ho ho₁ hstands (ks ++ rest).toArray w
      obtain ⟨d, ds, hds, hsite⟩ := intoSlots_cons hahead P.slots ks.length
      have hnot : (o₁.spare A (ks ++ rest).toArray).stands A d.site = false := by
        rw [hsite, stands_spare, h.stands_eq, hstands]
      rw [hds, afterVia_of_not hnot, hspare, ← hds]
      exact ih _ hone hahead hrest hcount hmove (ho.move hhost w)
        ((Intact.kept hereditary_compiled).after t host ho₁ w 1) hstop

/-- The innermost call, with the activation, is one of the function, and it has come to the
instruction at `k`. -/
def ComesTo (P : Prototype) (A : ActivationId) (k : Nat) (o : Outcome) : Prop :=
  ∃ s f around depth limit, o = running ⟨s, f :: around, none, depth, limit⟩ ∧ f.prototype = P ∧
    f.activation = A ∧ f.ip = k

/-- A call that comes to some operands and takes them into slots goes the same way as one that
duplicates them. -/
theorem follows_intoSlots (hhost : host.Blind) {i j : Nat} (hfirst : P.Leaves i j)
    (hahead : P.Ahead last j sites) (hdup : P.Duplicates last (sites.length + 1)) (ho : o.Sound b A)
    (hcomes : o.ComesTo P A i) (n : Nat) (w : ω) : ∃ us o', us.length = sites.length + 1 ∧
      afterVia t host A (Detour.intoSlots P.slots last 0 sites) n
        (o.spare A (Array.replicate (sites.length + 1) .null), w) =
          (o', (after t host n (o, w)).2) ∧
      Follows A last us (after t host n (o, w)).1 o' := by
  obtain ⟨hlt, K, hstart, rfl, hzero, hone⟩ := hfirst
  obtain ⟨s, f, around, depth, limit, rfl, hproto, rfl, hip⟩ := hcomes
  have hamid : Frame.Amid K f.activation 0 { f with stack := [] } :=
    ⟨hproto, rfl, Nat.le_of_eq (hstart.trans hip.symm),
      hip ▸ Nat.le_of_lt hlt, by rw [hip, hzero]; rfl⟩
  have hsame : Evaluating K f.activation around ([].reverse ++ f.stack) f.stack
      (running ⟨s, f :: around, none, depth, limit⟩)
        (running ⟨s, f :: around, none, depth, limit⟩) := .on hamid
  have hnulls : (List.replicate (sites.length + 1) Value.null).length = sites.length + 1 :=
    List.length_replicate
  have hfollows :=
    follows_ahead (t := t) hhost hdup n w hone hahead hnulls (by simp) hsame ho ho.intact
  rwa [List.nil_append, List.length_nil, List.toArray_replicate] at hfollows

theorem Run.sound {m₀ : Machine} (hhost : host.Blind) (hidle : m₀.frames = [])
    (hclosures : ∀ c ∈ m₀.store.closures.toList, c.Compiled) (hlinked : m₀.store.Linked)
    (hr : Run host (.running m₀) o) (hcomes : o.ComesTo P A k) : o.Sound m₀.store.cells.size A := by
  have hintact := hr.intact hereditary_compiled (intact_idle hidle hclosures)
  refine ⟨hintact, hr.owned hidle, hr.linked hhost hidle hclosures hlinked, ?_⟩
  obtain ⟨s, f, around, depth, limit, rfl, _, rfl, _⟩ := hcomes
  exact (hintact.slots f List.mem_cons_self).1

end Outcome

end Refscript
