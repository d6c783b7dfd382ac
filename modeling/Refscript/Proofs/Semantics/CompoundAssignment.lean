import Refscript.Proofs.Code.Compiled
import Refscript.Proofs.Machine.Definition
import Refscript.Proofs.Machine.Detours

/-!
# Refscript.Proofs.Semantics.CompoundAssignment

A compound assignment is a plain one whose operands are evaluated once. `x op= e` has the code of
`x = x op e`. The code of `t[k] op= e` evaluates `t` and `k`, duplicates both values and goes on as
`a[b] = a[b] op e` does once it has loaded `a` and `b` twice; so do those of `t.f op= e` and
`deref t op= e`.
-/

namespace Refscript

open Lower (Laid)

/-- The place with other operands. -/
def Expr.onOperands : Expr Node → List Node → Expr Node
  | .index _ _, [t, k] => .index t k
  | .field _ name, [t] => .field t name
  | .deref _, [x] => .deref x
  | e, _ => e

/-- The assignment of `e op value` to `e`. -/
def plainAssign (pos : Position) (required : Bool) (op : Operator) (e : Expr Node) (value : Node) :
    Node :=
  ⟨pos, required, .assign ⟨pos, true, e⟩ ⟨pos, true, .infixOp (.operator op) ⟨pos, true, e⟩ value⟩⟩

namespace Lower

open Builder (Finishes)
open Marking

/-- Reads the place whose operands are on the stack. -/
def readPlace : Expr Node → LowerM Unit
  | .index _ _ => build .loadIndex
  | .field _ name => build (.loadField name)
  | .deref _ => build .deref
  | _ => return

/-- Writes the value on top to the place whose operands are below it. -/
def writePlace : Expr Node → LowerM Unit
  | .index _ _ => build .storeIndex
  | .field _ name => build (.storeField name)
  | .deref _ => build .storeDeref
  | _ => return

/-- What assignments of `e op value` to `e` do once the operands of `e` are on the stack twice. -/
def update (op : Operator) (e : Expr Node) (value : Node) (required : Bool) : LowerM Unit := do
  readPlace e
  node value
  build (.infixOp op.symbol)
  writePlace e
  discard required

/-- The instruction that duplicates the operands of a place. -/
def duplicate : Expr Node → Opcode
  | .index _ _ => .dup2
  | _ => .dup

theorem setLine_twice (line : Nat) (x : LowerM Unit) :
    (do build (.setLine line); build (.setLine line); x) = (do build (.setLine line); x) :=
  rfl

theorem discard_true : discard true = pure () :=
  rfl

section Plain

variable {pos : Position} {r : Bool} {op : Operator} {e : Expr Node} {value : Node}

/-- A plain assignment has its operands evaluated twice. -/
theorem node_plainAssign (he : operands e ≠ []) :
    node (plainAssign pos r op e value) = (do
      build (.setLine pos.line)
      nodes (operands e)
      build (.setLine pos.line)
      nodes (operands e)
      update op e value r) := by
  cases e with
  | index | field | deref =>
    simp only [plainAssign, node, expr, operands, nodes, update, readPlace, writePlace, bind_assoc,
      pure_bind, discard_true, setLine_twice]
  | _ => exact absurd rfl he

theorem node_onOperands {xs : List Node} (he : operands e ≠ [])
    (hxs : xs.length = (operands e).length) :
    node (plainAssign pos r op (e.onOperands xs) value) = (do
      build (.setLine pos.line)
      nodes xs
      build (.setLine pos.line)
      nodes xs
      update op e value r) := by
  cases e with
  | index t k =>
    obtain ⟨a, b, rfl⟩ := List.length_eq_two.1 hxs
    exact node_plainAssign (List.cons_ne_nil _ _)
  | field t name | deref x =>
    obtain ⟨a, rfl⟩ := List.length_eq_one_iff.1 hxs
    exact node_plainAssign (List.cons_ne_nil _ _)
  | _ => exact absurd rfl he

/-- A compound assignment has its operands evaluated once, and duplicates them. -/
theorem expr_compoundAssign {p : Position} {q : Bool} (he : operands e ≠ []) :
    expr pos r (.compoundAssign op ⟨p, q, e⟩ value) = (do
      nodes (operands e)
      build (.emitUnit (operands e).length (2 * (operands e).length) (.simple (duplicate e)))
      update op e value r) := by
  cases e with
  | index | field | deref =>
    simp only [expr, operands, nodes, update, readPlace, writePlace, bind_assoc, pure_bind]
    rfl
  | _ => exact absurd rfl he

theorem node_compoundAssign_name {p : Position} {q : Bool} {name : String} :
    node ⟨pos, r, .compoundAssign op ⟨p, q, .identifier name⟩ value⟩ =
      node (plainAssign pos r op (.identifier name) value) := by
  simp only [plainAssign, node, expr, bind_assoc, pure_bind, discard_true, setLine_twice, if_true]

end Plain

/-- The function has the code of the step from `i` up to `j`. -/
def Placed (x : LowerM Unit) : Shape := fun P i j =>
  ∃ s t : State, s.Sane ∧ x s = .ok () t ∧ Finishes [] s.builder.mark t.builder P ∧
    s.builder.position = i ∧ t.builder.position = j

theorem threads_placed {I J : Invariant} {x : LowerM Unit} {h h' : Nat} {A : Shape}
    (hx : Threads I J x h h' A) : Threads I J x h h' (Placed x) := by
  intro s hs hI hh
  obtain ⟨_, t, hrun, ht⟩ := hx s hs hI hh
  exact ⟨(), t, hrun, { ht with code := fun P hP => ⟨s, t, hs, hrun, hP, rfl, rfl⟩ }⟩

/-- The code of operands, one after the other: each of them ends at the next site, and the last one
at `last`. -/
inductive OperandCode (P : Prototype) (last : Nat) : List Node → Nat → List Nat → Prop where
  | one {n : Node} {i : Nat} : Laid n P i last → OperandCode P last [n] i []
  | more {n : Node} {ns : List Node} {i j : Nat} {sites : List Nat} : Laid n P i j →
      OperandCode P last ns j sites → OperandCode P last (n :: ns) i (j :: sites)

/-- The code of a compound assignment to a place with operands: these are evaluated, duplicated and
used. -/
structure CompoundCode (P : Prototype) (op : Operator) (e : Expr Node) (value : Node)
    (required : Bool) (i : Nat) (sites : List Nat) (last j : Nat) : Prop where
  operands : OperandCode P last (operands e) i sites
  duplicate : P.Carries last (.simple (duplicate e))
  update : Placed (update op e value required) P (last + 1) j

section Laid

variable {pos : Position} {r : Bool} {op : Operator} {target value : Node} {P : Prototype}
  {i j : Nat}

theorem Laid.leaves {n : Node} (hm : Marks true n) (h : Laid n P i j) : P.Leaves i j := by
  obtain ⟨s, t, hs, hrun, hfinish, rfl, rfl⟩ := h
  obtain ⟨_, t', hrun', ht⟩ :=
    (realizes_node n true hm 0).balances s.builder.height s hs trivial rfl
  rw [hrun] at hrun'
  cases hrun'
  have hcode : Balanced 0 1 P s.builder.position t.builder.position := ht.code P hfinish
  obtain ⟨K, hstart, hstop, hzero, hone⟩ := hcode.piece
  refine ⟨Nat.lt_of_le_of_ne ht.leads.keeps.size fun heq => ?_, K, hstart, hstop, hzero, hone⟩
  rw [heq, hone] at hzero
  cases hzero

theorem OperandCode.ahead {ns : List Node} {last : Nat} {sites : List Nat}
    (h : OperandCode P last ns i sites) (hm : ∀ n ∈ ns, Marks true n) :
    sites.length + 1 = ns.length ∧ ∃ j, P.Leaves i j ∧ P.Ahead last j sites := by
  induction h with
  | one hlaid => exact ⟨rfl, last, hlaid.leaves (hm _ List.mem_cons_self), .done⟩
  | more hlaid _ ih =>
    obtain ⟨hlength, j, hleaves, hahead⟩ := ih fun n hn => hm n (List.mem_cons_of_mem _ hn)
    exact ⟨congrArg (· + 1) hlength, _, hlaid.leaves (hm _ List.mem_cons_self),
      .more hleaves hahead⟩

theorem emits_operands {ns : List Node} (hns : ns ≠ []) (hm : ∀ n ∈ ns, Marks true n) (h : Nat) :
    Emits anything (nodes ns) h (h + ns.length) fun P i j => ∃ sites,
      OperandCode P j ns i sites := by
  induction ns generalizing h with
  | nil => exact absurd rfl hns
  | cons n ns ih =>
    have hlaid := threads_laid (realizes_node n true (hm n List.mem_cons_self) h).balances.emits
    cases ns with
    | nil =>
      refine (hlaid.seq emits_pure).imp ?_
      rintro P i _ ⟨j, hn, rfl⟩
      exact ⟨[], .one hn⟩
    | cons m ns =>
      have hrest := ih (List.cons_ne_nil _ _) (fun k hk => hm k (List.mem_cons_of_mem _ hk)) (h + 1)
      rw [Nat.add_assoc, Nat.add_comm 1] at hrest
      refine (hlaid.seq hrest).imp ?_
      rintro P i _ ⟨j, hn, sites, hcode⟩
      exact ⟨j :: sites, .more hn hcode⟩

theorem balances_update {e : Expr Node} (he : operands e ≠ []) (hv : Marks true value) (h : Nat) :
    Balances (Lower.update op e value r) (h + 2 * (operands e).length) (h + r.toNat) := by
  have hv := realizes_node value true hv
  cases e with
  | index t k =>
    exact (realizes_loadIndex.seq ((hv (h + 3)).seq ((realizes_binary op.symbol).seq
      (realizes_storeIndex.seq (realizes_discard r))))).balances
  | field t name =>
    exact ((realizes_loadField name).seq ((hv (h + 2)).seq ((realizes_binary op.symbol).seq
      ((realizes_storeField name).seq (realizes_discard r))))).balances
  | deref x =>
    exact (realizes_deref.seq ((hv (h + 2)).seq ((realizes_binary op.symbol).seq
      (realizes_storeDeref.seq (realizes_discard r))))).balances
  | _ => exact absurd rfl he

theorem Laid.compoundCode (hops : operands target.expr ≠ []) (hm : MarksTarget target)
    (hv : Marks true value) (h : Laid ⟨pos, r, .compoundAssign op target value⟩ P i j) :
    ∃ sites last, CompoundCode P op target.expr value r i sites last j := by
  obtain ⟨p, q, e⟩ := target
  have hemits : ∀ h, Emits anything (expr pos r (.compoundAssign op ⟨p, q, e⟩ value))
    h (h + r.toNat) fun P i j => ∃ sites last, CompoundCode P op e value r i sites last j := by
    intro h
    have hdup :=
      emits_insn (I := anything) (Nat.le_add_left (operands e).length h) (2 * (operands e).length)
      (.simple (duplicate e))
    rw [Nat.add_sub_cancel] at hdup
    rw [expr_compoundAssign hops]
    refine ((emits_operands hops hm.operands h).seq
      (hdup.seq (threads_placed (balances_update hops hv h).emits))).imp ?_
    rintro P i j ⟨last, ⟨sites, hoperands⟩, _, ⟨rfl, hcarries, _⟩, hupdate⟩
    exact ⟨sites, last, hoperands, hcarries, hupdate⟩
  obtain ⟨_, hcode⟩ := h.shape hemits
  exact hcode

end Laid

end Lower

section Duplicates

variable {P : Prototype} {site : Nat}

theorem duplicates_dup (h : P.Carries site (.simple .dup)) : P.Duplicates site 1 := by
  refine ⟨(Array.getElem?_eq_some_iff.1 h.word).1, ?_⟩
  rintro host s f around depth limit vs base rfl rfl hstack hlength
  obtain ⟨v, rfl⟩ := List.length_eq_one_iff.1 hlength
  have hop : (Insn.simple .dup).op = .dup := rfl
  simp only [Machine.step, h.word, Machine.execute, Exec.word, Insn.op?_pack, hop, Exec.operation,
    Frame.top, hstack]
  rfl

theorem duplicates_dup2 (h : P.Carries site (.simple .dup2)) : P.Duplicates site 2 := by
  refine ⟨(Array.getElem?_eq_some_iff.1 h.word).1, ?_⟩
  rintro host s f around depth limit vs base rfl rfl hstack hlength
  obtain ⟨v, u, rfl⟩ := List.length_eq_two.1 hlength
  have hop : (Insn.simple .dup2).op = .dup2 := rfl
  simp only [Machine.step, h.word, Machine.execute, Exec.word, Insn.op?_pack, hop, Exec.operation,
    Frame.popN, hstack]
  rfl

theorem duplicates_operands {e : Expr Node} (he : operands e ≠ [])
    (h : P.Carries site (.simple (Lower.duplicate e))) : P.Duplicates site (operands e).length := by
  cases e with
  | index t k => exact duplicates_dup2 h
  | field t name | deref x => exact duplicates_dup h
  | _ => exact absurd rfl he

end Duplicates

open Outcome (Run)

/-- A compound assignment is the plain assignment with its operands evaluated once. One to a
variable has the code of the plain one. One to a place has code that evaluates the operands of the
place, duplicates them and goes on as the plain assignment does once it has loaded the variables for
the operands twice. Whenever a call of the function comes to this code, it may as well take each
operand into a slot of its own as soon as that is evaluated, and read these slots twice in place of
duplicating, as variables are set and read: after every number of moves, the two runs have the same
outcome, the same world and, but for the slots, the same store. -/
theorem compound_assignment_as_plain {ω : Type} {source : String} {p : Prototype}
    (h : compile source = .ok p) {pos : Position} {required : Bool} {op : Operator}
    {target value : Node}
    (hy : OccursIn ⟨pos, required, .compoundAssign op target value⟩ (readProgram source).items) :
    (∃ P i j, Prototype.Inside P p ∧ Laid ⟨pos, required, .compoundAssign op target value⟩ P i j) ∧
    (∀ name, target.expr = .identifier name →
      Lower.node ⟨pos, required, .compoundAssign op target value⟩ =
        Lower.node (plainAssign pos required op (.identifier name) value)) ∧
    (operands target.expr ≠ [] →
      (∀ xs, xs.length = (operands target.expr).length →
        Lower.node (plainAssign pos required op (target.expr.onOperands xs) value) = (do
          Lower.build (.setLine pos.line)
          Lower.nodes xs
          Lower.build (.setLine pos.line)
          Lower.nodes xs
          Lower.update op target.expr value required)) ∧
      ∀ P i j, Laid ⟨pos, required, .compoundAssign op target value⟩ P i j → ∃ sites last,
        Lower.CompoundCode P op target.expr value required i sites last j ∧
        (∀ d ∈ Detour.intoSlots P.slots last 0 sites, ∀ x ∈ d.transfers,
          (∀ i ∈ x.code, i.fits = true) →
          ∀ f, x.run f = x.code.foldlM (fun f i => Exec.after <$> Exec.operation f i.pack i.op) f) ∧
        ∀ (t : Terminal (StateM ω)) (host : Host) (m₀ : Machine) (o : Outcome) (A : ActivationId),
          host.Blind → m₀.frames = [] → (∀ c ∈ m₀.store.closures.toList, c.Compiled) →
            m₀.store.Linked →
          Run host (.running m₀) o → o.ComesTo P A i → ∀ (n : Nat) (w : ω),
          ∃ us o', us.length = (operands target.expr).length ∧
            Outcome.afterVia t host A (Detour.intoSlots P.slots last 0 sites) n
              (o.spare A (Array.replicate (operands target.expr).length .null), w) =
              (o', (Outcome.after t host n (o, w)).2) ∧
            Outcome.Follows A last us (Outcome.after t host n (o, w)).1 o') := by
  obtain ⟨⟨_, htarget, hvalue⟩, _, P, i, j, hinside, hlaid⟩ := laid_of_compile h hy rfl
  refine ⟨⟨P, i, j, hinside, hlaid⟩, fun name hname => ?_,
    fun hops => ⟨fun xs => Lower.node_onOperands hops, ?_⟩⟩
  · obtain ⟨_, _, e⟩ := target
    cases hname
    exact Lower.node_compoundAssign_name
  · intro P i j hlaid
    obtain ⟨sites, last, hcode⟩ := hlaid.compoundCode hops htarget hvalue
    refine ⟨sites, last, hcode, fun _ _ x _ hfits f => x.run_eq_code hfits f, ?_⟩
    intro t host m₀ o A hhost hidle hclosures hlinked hr hcomes n w
    obtain ⟨hlength, j, hleaves, hahead⟩ := hcode.operands.ahead htarget.operands
    have hdup := duplicates_operands hops hcode.duplicate
    rw [← hlength] at hdup ⊢
    exact Outcome.follows_intoSlots hhost hleaves hahead hdup
      (hr.sound hhost hidle hclosures hlinked hcomes) hcomes n w

/-- An element is updated. -/
def updating : String :=
  "x[y] += 2"

/-- The program adds something to an element, and does nothing else. -/
def updatesElement : List Node → Bool
  | [⟨_, _, .compoundAssign .plus ⟨_, _, .index _ _⟩ _⟩] => true
  | _ => false

theorem eq_of_updatesElement {items : List Node} (h : updatesElement items = true) :
    ∃ pos required p r t k value,
    items = [⟨pos, required, .compoundAssign .plus ⟨p, r, .index t k⟩ value⟩] := by
  unfold updatesElement at h
  split at h
  · exact ⟨_, _, _, _, _, _, _, rfl⟩
  · cases h

/-- A machine that is to call the function, and whose global variables `x` and `y` are the list
`[5]` and zero. -/
def Machine.updating (P : Prototype) : Machine :=
  ⟨{ Store.initial with
      closures := #[⟨P, #[]⟩]
      lists := #[#[.int 5]]
      globals := (Table.empty.insert "x" (.list 0)).insert "y" (.int 0) },
    [], some ⟨.closure 0, none, [], none⟩, 0, 8⟩

theorem compound_assignment_as_plain_element :
    ∃ p pos required target value, compile updating = .ok p ∧
      OccursIn ⟨pos, required, .compoundAssign .plus target value⟩ (readProgram updating).items ∧
      operands target.expr ≠ [] ∧ ∃ o sites, Run noHost (.running (.updating p)) o ∧
        o.ComesTo p 1 0 ∧
      ∀ (t : Terminal (StateM Unit)) (n : Nat), ∃ us o', us.length = 2 ∧
        Outcome.afterVia t noHost 1 (Detour.intoSlots p.slots 2 0 sites) n
          (o.spare 1 #[.null, .null], ()) = (o', ()) ∧
        Outcome.Follows 1 2 us (Outcome.after t noHost n (o, ())).1 o' := by
  have hp : compile updating = .ok (.ofText updating) := compile_eq_ofText (by decide +kernel)
  have hupdates : updatesElement (readProgram updating).items = true := by decide +kernel
  obtain ⟨pos, required, p, r, t, k, value, hitems⟩ := eq_of_updatesElement hupdates
  have hy : OccursIn ⟨pos, required, .compoundAssign .plus ⟨p, r, .index t k⟩ value⟩
    (readProgram updating).items :=
    ⟨_, by rw [hitems]; exact List.mem_cons_self, .self⟩
  have hops : operands (.index t k) ≠ [] := List.cons_ne_nil _ _
  obtain ⟨⟨P, i, j, hinside, hlaid⟩, _, hplace⟩ := compound_assignment_as_plain (ω := Unit) hp hy
  obtain ⟨sites, last, hcode, _, hruns⟩ := (hplace hops).2 P i j hlaid
  -- the only function has its only `dup2` at 2, so that the operands begin at 0
  have hP : P = .ofText updating := by
    have hnested : (Prototype.ofText updating).nested.isEmpty = true := by decide +kernel
    cases hinside with
    | self => rfl
    | nested hq _ =>
      rw [List.isEmpty_iff.1 hnested] at hq
      cases hq
  subst hP
  have hlast : last = 2 := by
    have honly : (List.range (Prototype.ofText updating).code.size).all (fun k =>
        (Prototype.ofText updating).code[k]? != some (Insn.simple .dup2).pack || k == 2) =
        true := by decide +kernel
    have hword := hcode.duplicate.word
    have hmem := List.mem_range.2 (Array.getElem?_eq_some_iff.1 hword).1
    have := List.all_eq_true.1 honly last hmem
    simpa [Lower.duplicate, hword] using this
  subst hlast
  have hi : i = 0 := by
    obtain ⟨⟨_, htarget, _⟩, _⟩ := laid_of_compile hp hy rfl
    obtain ⟨hlength, j, hleaves, hahead⟩ := hcode.operands.ahead htarget.operands
    cases hahead with
    | done => cases hlength
    | more hleaves' hahead =>
      have hfirst := hleaves.1
      have hsecond := hleaves'.1
      have hle := hahead.le
      omega
  subst hi
  have hcomes : (Machine.step noHost (.updating (.ofText updating))).ComesTo
      (.ofText updating) 1 0 := by
    have harity : (Prototype.ofText updating).arity.accepts 0 = true := by decide +kernel
    have hslots : (Prototype.ofText updating).startable = true := by decide +kernel
    have hvariadic : (Prototype.ofText updating).variadic = false := by decide +kernel
    generalize Prototype.ofText updating = P at harity hslots hvariadic
    have hstart : Machine.step noHost (.updating P) =
        Machine.start { Machine.updating P with pending := none } ⟨P, #[]⟩ none [] none := rfl
    rw [hstart, Machine.start]
    simp only [Machine.updating, List.length_nil, harity, hslots, Store.bindArguments, hvariadic]
    exact ⟨_, _, _, _, _, rfl, rfl, rfl, rfl⟩
  have hclosures : ∀ c ∈ [(⟨.ofText updating, #[]⟩ : Closure)], c.Compiled := by
    intro c hc
    rw [List.mem_singleton.1 hc]
    exact ⟨⟨updating, _, hp, .self⟩, by rw [(good_of_compile hp).1]; rfl⟩
  have hlinked : (Machine.updating (.ofText updating)).store.Linked := Store.linked_initial
  have hr : Run noHost (.running (.updating (.ofText updating))) _ := .move .refl (.step _)
  refine ⟨_, pos, required, _, value, hp, hy, hops, _, sites, hr, hcomes, fun t n => ?_⟩
  exact hruns t noHost (.updating (.ofText updating)) _ 1 (fun _ _ _ _ _ _ _ => rfl) rfl hclosures
    hlinked hr hcomes n ()

end Refscript
