import Refscript.Proofs.Machine.Operands
import Refscript.Proofs.Semantics.Branching
import Refscript.Recording

/-!
# Refscript.Proofs.Semantics.Refinement

Evaluating a program and running its code come to the same (`evaluation_iff_run`): the same values
or faults, with the same store and the same world, and neither comes to an end without the other.

One direction is the simulation of the evaluation by the machine. The other one is that the machine
is deterministic and that an exhausted evaluation keeps it going for as many moves as the bound
says: if the run has ended after `k` moves, the evaluation with bound `k` is not exhausted, and it
can only have come to the same end.
-/

namespace Refscript

open Lower Marking Scene

variable {ω : Type}

namespace Scene

variable {S : Scene ω} {n : Nat} {s : Store × ω}

/-- The run has come to its end with a value. -/
def finished (S : Scene ω) (v : Value) (s : Store × ω) : Outcome × ω :=
  (.returned v ⟨s.1, [], none, S.depth - 1, S.limit⟩, s.2)

theorem after_end (stack : List Value) (s : Store × ω) :
    S.after 1 (S.point S.code.code.size stack s) = S.finished (stack.headD .null) s := by
  have hword : S.closure.prototype.code[S.code.code.size]? = none := Array.getElem?_size
  have hstep : Machine.step S.host ⟨s.1, [S.frame S.code.code.size stack], none, S.depth, S.limit⟩ =
      Machine.leave ⟨s.1, [S.frame S.code.code.size stack], none, S.depth, S.limit⟩
        (S.frame S.code.code.size stack) := by
    simp only [Machine.step, frame, Frame.prototype, hword]
  exact congrArg (·, s.2) hstep

theorem Realizes.returning {x : Eval ω Value} {c : Outcome × ω}
    (hx : S.Realizes n c (x s) S.finished) : S.Realizes n c (x.returning s) S.finished := by
  intro hlists
  have hx := hx hlists
  unfold Eval.returning
  match x s, hx with
  | .ok v t, h => exact h
  | .error (.ret v) t, ⟨k, hk⟩ => exact ⟨k + 1, after_trans hk (after_end [v] t)⟩
  | .error (.fault e) t, h => exact h
  | .error .stuck t, h => exact h
  | .error .exhausted t, h => exact h

end Scene

theorem Eval.returning_ne_ret (x : Eval ω Value) (s t : Store × ω) (v : Value) :
    x.returning s ≠ .error (.ret v) t := by
  unfold Eval.returning
  split
  · nofun
  · rename_i hne
    exact hne v t

theorem Machine.evaluate_ne_ret (m : Machine) (t : Terminal (StateM ω)) (host : Host) (fuel : Nat)
    (p : Prototype) (items : List Node) (w : ω) (v : Value) (s : Store × ω) :
    m.evaluate t host fuel p items w ≠ .error (.ret v) s := by
  unfold evaluate
  dsimp only
  split
  · nofun
  · split
    · nofun
    · exact Eval.returning_ne_ret _ _ _ _

section Program

variable {items : List Node} {p : Prototype} {s : State}

theorem finishes_of_packedFrom (hp : p.PackedFrom s.builder) :
    Builder.Finishes [] ⟨0, 0⟩ s.builder p := by
  obtain ⟨rfl, hfits⟩ := hp
  exact finishes_build fun k i hi => hfits i (Array.mem_toList_iff.2 (Array.mem_of_getElem? hi))

/-- What is emitted for the items of a program is all of its code, and the code takes no
arguments. -/
theorem code_of_emits {A : Shape} {h : Nat} (hitems : Emits bare (nodes items) 0 h A)
    (hrun : nodes items .start = .ok () s) (hp : p.PackedFrom s.builder) :
    A p 0 p.code.size ∧ p.params = 0 ∧ p.variadic = false := by
  obtain ⟨_, s', hrun', hs⟩ := hitems .start ⟨.new _ _, rfl⟩ ⟨rfl, rfl, rfl⟩ rfl
  cases hrun.symm.trans hrun'
  have hsize : p.code.size = s.builder.position := by
    rw [hp.1]
    exact Array.size_map
  have hsignature : (p.params, p.variadic) = (0, false) := by
    rw [hp.1]
    exact hs.holds.2.1
  cases Prod.mk.inj hsignature
  rw [hsize]
  exact ⟨hs.code p (finishes_of_packedFrom hp), Prod.mk.inj hsignature⟩

/-- The code of a program evaluates it, from the first instruction to the last, and takes no
arguments. -/
theorem Scene.code_program (S : Scene ω) (hplain : ∀ n ∈ items, n.plain = true)
    (hm : MarksBlock true items) (hrun : nodes items .start = .ok () s)
    (hp : S.code.PackedFrom s.builder) :
    S.Gives (true && !items.isEmpty) (S.block items) S.code 0 S.code.code.size ∧ S.code.params = 0 ∧
      S.code.variadic = false :=
  code_of_emits (performs_block (fun n hn => performs_node n (hplain n hn)) hm 0) hrun hp

theorem Scene.Gives.finished {S : Scene ω}
    (h : S.Gives (true && !items.isEmpty) (S.block items) S.code 0 S.code.code.size)
    (t : Store × ω) : S.Realizes S.fuel (S.point 0 [] t) (S.block items t) S.finished := by
  refine (h rfl [] t).trail fun v u hv => ⟨1, (after_end _ u).trans ?_⟩
  cases items with
  | nil =>
    cases hv
    rfl
  | cons n items => rfl

end Program

section Start

variable (m : Machine) (t : Terminal (StateM ω)) (host : Host) (fuel : Nat) (p : Prototype)

/-- The call of a program's code on an idle machine. -/
def Machine.scene : Scene ω :=
  ⟨⟨t, host, m.depth + 1, m.limit, fuel⟩, ⟨p, #[]⟩, m.store.activations.size⟩

variable {m p}

theorem Machine.runPrototype_eq (houters : p.outers = []) (args : List Value) :
    m.runPrototype p args = .running { m with
      store := (m.store.addClosure ⟨p, #[]⟩).2
      pending := some ⟨.closure m.store.closures.size, none, args, none⟩ } := by
  rw [runPrototype, houters]
  rfl

theorem Store.closure_addClosure (s : Store) (c : Closure) :
    (s.addClosure c).2.closure s.closures.size = c := by
  simp [addClosure, closure]

theorem Machine.after_runPrototype (houters : p.outers = []) (hidle : m.frames = []) (w : ω) :
    Outcome.after t host 1 (m.runPrototype p [], w) =
      (Machine.start ⟨(m.store.addClosure ⟨p, #[]⟩).2, [], none, m.depth, m.limit⟩ ⟨p, #[]⟩ none []
        none, w) := by
  rw [runPrototype_eq houters]
  obtain ⟨store, frames, pending, depth, limit⟩ := m
  subst hidle
  simp only [Outcome.after, Outcome.move, step, enter,
    Store.deref_of_plain _ (v := .closure store.closures.size) (by simp), Store.closure_addClosure]

theorem Machine.start_program (hparams : p.params = 0) (hvariadic : p.variadic = false) (s : Store)
    (depth limit : Nat) :
    Machine.start ⟨s, [], none, depth, limit⟩ ⟨p, #[]⟩ none [] none =
      if limit ≤ depth then .failed ⟨.callDepthExceeded limit, none⟩ ⟨s, [], none, depth, limit⟩
      else if !p.startable then .stuck ⟨s, [], none, depth, limit⟩
      else .running ⟨(s.addActivation (Array.replicate p.slots .null)).2,
        [⟨⟨p, #[]⟩, none, s.activations.size, [], 0, [], none⟩], none, depth + 1, limit⟩ := by
  have harity : p.arity.accepts ([] : List Value).length = true := by
    simp [Prototype.arity, Prototype.required, hparams, hvariadic, Arity.accepts]
  have hbind : s.bindArguments p [] = (Array.replicate p.slots .null, s) := by
    simp [Store.bindArguments, hvariadic]
  simp only [start, harity, hbind, Bool.not_true, Bool.false_eq_true, if_false]
  rfl

variable {items : List Node}

/-- The run of a program's code carries out the evaluation of the program. -/
theorem Machine.realizes_evaluate (hplain : ∀ n ∈ items, n.plain = true)
    (hm : MarksBlock true items) {b : State} (hrun : nodes items .start = .ok () b)
    (hp : p.PackedFrom b.builder) (houters : p.outers = []) (hidle : m.frames = []) (w : ω) :
    (m.scene t host fuel p).Realizes fuel (m.runPrototype p [], w)
      (m.evaluate t host fuel p items w) (m.scene t host fuel p).finished := by
  obtain ⟨hgives, hparams, hvariadic⟩ := (m.scene t host fuel p).code_program hplain hm hrun hp
  have hmove := after_runPrototype (m := m) t host houters hidle w
  rw [start_program (p := p) hparams hvariadic] at hmove
  unfold evaluate
  dsimp only
  split
  · rename_i hdeep
    rw [if_pos hdeep] at hmove
    exact fun _ => ⟨1, _, _, hmove, rfl, rfl⟩
  · rename_i hdeep
    rw [if_neg hdeep] at hmove
    split
    · rename_i hunfit
      rw [if_pos hunfit] at hmove
      exact fun _ => ⟨1, _, hmove, rfl⟩
    · rename_i hfit
      rw [if_neg hfit] at hmove
      have hrest := (hgives.finished
        (((m.store.addClosure ⟨p, #[]⟩).2.addActivation (Array.replicate p.slots .null)).2,
          w)).returning
      exact Realizes.steps (k := 1) hmove hrest

end Start

section

variable {t : Terminal (StateM ω)} {host : Host} {tree : List Node} {l : Lowered} {m : Machine}

variable (t host) in
theorem realizes_lowered (hplain : ∀ n ∈ (normalize tree).value, n.plain = true)
    (hl : lower (normalize tree).value = .ok l) (hclean : errorCount l.diagnostics = 0)
    (hidle : m.frames = []) (w : ω) (fuel : Nat) :
    (m.scene t host fuel l.prototype).Realizes fuel (m.runPrototype l.prototype [], w)
      (m.evaluate t host fuel l.prototype (normalize tree).value w)
        (m.scene t host fuel l.prototype).finished := by
  have hm := marks_normalize tree
  obtain ⟨p, s, hrun, houters, hgood⟩ := yields_program hm
  have hlower : lower (normalize tree).value = .ok ⟨p, s.diagnostics⟩ := by
    rw [lower, EStateM.run, hrun]
  cases hl.symm.trans hlower
  obtain ⟨_, b, hnodes, hpacked⟩ := hgood (sizesFit_of_errorCount hclean)
  exact Machine.realizes_evaluate t host fuel hplain hm hnodes hpacked houters hidle w

/-- A run that has ended after `k` moves has come to what the evaluation with the bound `k`
gives. -/
theorem evaluate_of_ended {p : Prototype} {items : List Node} {w : ω} {c : Outcome × ω} {k : Nat}
    (h : (m.scene t host k p).Realizes k c (m.evaluate t host k p items w)
      (m.scene t host k p).finished)
    (hlists : ∀ n, (Outcome.after t host n c).1.machine.store.appendsLists = true)
    (hend : (Outcome.after t host k c).1.ended = true) :
    m.evaluate t host k p items w = (Outcome.after t host k c).1.result
      (Outcome.after t host k c).2 := by
  -- there is one end, and the evaluation says which
  have hsame : ∀ j d, Outcome.after t host j c = d → d.1.ended = true →
    Outcome.after t host k c = d :=
    fun j d hj hd => (Outcome.after_unique hend (hj ▸ hd)).trans hj
  have hret := m.evaluate_ne_ret t host k p items w
  match m.evaluate t host k p items w, h hlists, hret with
  | .ok v s, ⟨j, hj⟩, _ => rw [hsame j _ hj rfl]; rfl
  | .error (.ret v) s, _, hret => exact absurd rfl (hret v s)
  | .error (.fault e) s, ⟨j, r, m', hj, hr, hs⟩, _ => rw [hsame j _ hj rfl, Outcome.result, hr, hs]
  | .error .stuck s, ⟨j, m', hj, hs⟩, _ => rw [hsame j _ hj rfl, Outcome.result, hs]
  | .error .exhausted s, hrunning, _ => cases hend.symm.trans hrunning

end

/-- Evaluating a program all of whose names are global and running what it is compiled to come to
the same: to the same value, to the same fault, or to where the machine cannot go on, with the same
store and the same world. This is so on every idle machine and against every terminal and host, as
long as the method `append` of lists is the provided one throughout the run. The functions of the
host are of the narrow kind of `Host`. -/
theorem evaluation_iff_run (t : Terminal (StateM ω)) (host : Host) {tree : List Node} {l : Lowered}
    (hplain : ∀ n ∈ (normalize tree).value, n.plain = true)
    (hl : lower (normalize tree).value = .ok l) (hclean : errorCount l.diagnostics = 0)
    {m : Machine} (hidle : m.frames = []) (w : ω)
    (hlists : ∀ k, (Outcome.after t host k
      (m.runPrototype l.prototype [], w)).1.machine.store.appendsLists = true) :
    (∀ v s w',
      (∃ fuel, m.evaluate t host fuel l.prototype (normalize tree).value w = .ok v (s, w')) ↔
      ∃ n, (Machine.drive t host false n (m.runPrototype l.prototype [])).run w =
        (.returned v ⟨s, [], none, m.depth, m.limit⟩, w')) ∧
    (∀ e s w', (∃ fuel, m.evaluate t host fuel l.prototype (normalize tree).value w =
        .error (.fault e) (s, w')) ↔
      ∃ n r m', (Machine.drive t host false n (m.runPrototype l.prototype [])).run w =
        (.failed r m', w') ∧ r.fault = e ∧ m'.store = s) ∧
    ∀ s w', (∃ fuel, m.evaluate t host fuel l.prototype (normalize tree).value w =
        .error .stuck (s, w')) ↔
      ∃ n m', (Machine.drive t host false n (m.runPrototype l.prototype [])).run w =
        (.stuck m', w') ∧ m'.store = s := by
  have hrealizes := realizes_lowered t host hplain hl hclean hidle w
  -- the evaluation that is long enough for a run that has ended
  have hevaluate : ∀ {n o w'}, o.ended = true →
      (Machine.drive t host false n (m.runPrototype l.prototype [])).run w = (o, w') →
      ∃ fuel, m.evaluate t host fuel l.prototype (normalize tree).value w = o.result w' := by
    intro n o w' hend hn
    obtain ⟨k, hk⟩ := (Outcome.exists_drive_iff _ _ hend).1 ⟨n, hn⟩
    refine ⟨k, (evaluate_of_ended (hrealizes k) hlists (by rw [hk]; exact hend)).trans ?_⟩
    rw [hk]
  refine ⟨fun v s w' => ?_, fun e s w' => ?_, fun s w' => ?_⟩
  · constructor
    · rintro ⟨fuel, hfuel⟩
      have h := hrealizes fuel hlists
      rw [hfuel] at h
      exact (Outcome.exists_drive_iff _ _ rfl).2 h
    · rintro ⟨n, hn⟩
      exact hevaluate rfl hn
  · constructor
    · rintro ⟨fuel, hfuel⟩
      have h := hrealizes fuel hlists
      rw [hfuel] at h
      obtain ⟨k, r, m', hk, hfault, hstore⟩ := h
      obtain ⟨n, hn⟩ := (Outcome.exists_drive_iff _ _ rfl).2 ⟨k, hk⟩
      exact ⟨n, r, m', hn, hfault, hstore⟩
    · rintro ⟨n, r, m', hn, rfl, rfl⟩
      exact hevaluate rfl hn
  · constructor
    · rintro ⟨fuel, hfuel⟩
      have h := hrealizes fuel hlists
      rw [hfuel] at h
      obtain ⟨k, m', hk, hstore⟩ := h
      obtain ⟨n, hn⟩ := (Outcome.exists_drive_iff _ _ rfl).2 ⟨k, hk⟩
      exact ⟨n, m', hn, hstore⟩
    · rintro ⟨n, m', hn, rfl⟩
      exact hevaluate rfl hn

/-- A program that counts, with a list of what each turn of the loop comes to as its value. -/
def counting : List Node :=
  (parse "i = 0 while i < 3 { i = i + 1 match i { 1: true, 3: false } } el 0").items

/-- A machine that runs nothing yet. -/
def Machine.fresh : Machine := ⟨.initial, [], none, 0, 8⟩

/-- The program compiles, and its run ends within 65 steps in the list of what the cases say. -/
def countingEnds : Bool :=
  match lower (normalize counting).value with
  | .ok l =>
    let after k :=
      Outcome.after Recording.terminal noHost k (Machine.fresh.runPrototype l.prototype [], .blank)
    errorCount l.diagnostics == 0 &&
      ((List.range 66).all fun k => (after k).1.machine.store.appendsLists) &&
      match after 65 with
      | (.returned (.list id) ⟨s, [], none, 0, 8⟩, _) =>
        match Array.toList (Store.listItems s id) with
        | [Value.bool true, Value.null, Value.bool false] => true
        | _ => false
      | _ => false
  | .error _ => false

/-- The evaluation of the program comes to the list of what the cases say, with null where there is
none, because the run does. -/
theorem evaluation_iff_run_counting :
    (∀ n ∈ (normalize counting).value, n.plain = true) ∧ Machine.fresh.frames = [] ∧
    ∃ l, lower (normalize counting).value = .ok l ∧ errorCount l.diagnostics = 0 ∧
      (∀ k, (Outcome.after Recording.terminal noHost k
        (Machine.fresh.runPrototype l.prototype [], .blank)).1.machine.store.appendsLists = true) ∧
      ∃ fuel id s w, Machine.fresh.evaluate Recording.terminal noHost fuel l.prototype
        (normalize counting).value .blank = .ok (.list id) (s, w) ∧ (s.listItems id).toList =
          [.bool true, .null, .bool false] := by
  have hplain : (normalize counting).value.all Node.plain = true := by decide +kernel
  have hrun : countingEnds = true := by decide +kernel
  rw [List.all_eq_true] at hplain
  unfold countingEnds at hrun
  split at hrun
  · rename_i l hl
    simp only [Bool.and_eq_true, List.all_eq_true, List.mem_range, beq_iff_eq] at hrun
    obtain ⟨⟨hclean, hlists⟩, hend⟩ := hrun
    split at hend
    · rename_i id s w hafter
      split at hend
      · rename_i hitems
        have hall : ∀ k, (Outcome.after Recording.terminal noHost k
            (Machine.fresh.runPrototype l.prototype [], .blank)).1.machine.store.appendsLists =
            true := by
          intro k
          by_cases hk : k < 66
          · exact hlists k hk
          · rw [Outcome.after_eq_of_le (k := 65) (by rw [hafter]; rfl) (by omega)]
            exact hlists 65 (by omega)
        have hiff :=
          (evaluation_iff_run Recording.terminal noHost hplain hl hclean rfl .blank hall).1
          (.list id) s w
        obtain ⟨fuel, hfuel⟩ := hiff.2 ((Outcome.exists_drive_iff _ _ rfl).2 ⟨65, hafter⟩)
        exact ⟨hplain, rfl, l, hl, hclean, hall, fuel, id, s, w, hfuel, hitems⟩
      · cases hend
    · cases hend
  · cases hrun

end Refscript
