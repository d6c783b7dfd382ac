import Refscript.Proofs.Code.Placement
import Refscript.Proofs.Code.Tracking

/-!
# Refscript.Proofs.Code.Lowering

What the constructs of a program are lowered to. `Realizes x h h' p xs bs` is all that is known of a
step of lowering: it keeps count of the stack, it follows the plan `p`, and it lays the code of the
parts `xs` and of the bodies `bs`.

There is one lemma for each construct, from the same for its parts; `realizes_node` puts them
together by induction over parts, and the last section says what that means for whole programs.
-/

namespace Refscript
namespace Lower

open Marking StackCheck

variable {items : List Node} {c target : Node} {e : Expr Node} {f : Function Node}

/-- The step `x` goes from height `h` to height `h'`, whatever is on the stack below, and adds the
code that the plan says, with the code of the parts in it. -/
structure Realizes (x : LowerM Unit) (h h' : Nat) (p : Plan) (xs bs : List Node) : Prop where
  balances : Balances x h h'
  tracks : Tracks x h h' p
  lays : Lays xs bs x h h'

namespace Realizes

variable {x y z w : LowerM Unit} {h h' k : Nat} {p q u v : Plan}
  {xs ys zs us bs cs ds es : List Node}

theorem plain (hb : Balances x h h') (ht : Tracks x h h' p) : Realizes x h h' p [] [] :=
  ⟨hb, ht, lays_none hb⟩

theorem seq (hx : Realizes x h k p xs bs) (hy : Realizes y k h' q ys cs) :
    Realizes (x >>= fun _ => y) h h' (p ++ q) (xs ++ ys) (bs ++ cs) :=
  ⟨hx.balances.seq hy.balances, hx.tracks.seq hy.tracks, hx.lays.seq hy.lays⟩

theorem emit (hx : Realizes x h k p xs bs) (hy : Realizes y k h' q [] []) :
    Realizes (x >>= fun _ => y) h h' (p ++ q) xs bs :=
  ⟨hx.balances.seq hy.balances, hx.tracks.seq hy.tracks, hx.lays.emit hy.balances⟩

theorem setLine (hx : Realizes x h h' p xs bs) (line : Nat) :
    Realizes (do build (.setLine line); x) h h' p xs bs :=
  ⟨(balances_setLine line).seq hx.balances, hx.tracks.setLine line,
    hx.lays.after (balances_setLine line)⟩

theorem report (hx : Realizes x h h' p xs bs) (pos : Position) (problem : Problem) :
    Realizes (do report pos problem; x) h h' p xs bs :=
  ⟨(balances_report pos problem).seq hx.balances, hx.tracks.report pos problem,
    hx.lays.after (balances_report pos problem)⟩

theorem junction (op : Opcode) (hop : landing h op = some k) (hx : Realizes x h (h + 1) p xs bs)
    (hy : Realizes y h k q ys cs) :
    Realizes (junction x op y) h k (p ++ .step ++ q) (xs ++ ys) (bs ++ cs) :=
  ⟨fun base => (threads_junction op (hx.balances base) (hy.balances base)).imp fun _ _ _ =>
    Balanced.junction hop, tracks_junction op (Option.isSome_of_eq_some hop) hx.tracks hy.tracks,
    hx.lays.junction op hy.lays⟩

theorem either (op : Opcode) (hop : landing h op = some h) (hx : Realizes x h (h + 1) p xs bs)
    (hy : Realizes y h k q ys cs) (hz : Realizes z h k u zs ds) :
    Realizes (either x op y z) h k (p ++ .step ++ q ++ .step ++ u) (xs ++ ys ++ zs)
      (bs ++ cs ++ ds) :=
  ⟨fun base =>
    (threads_either op (hx.balances base) (hy.balances base) (hz.balances base)).imp fun _ _ _ =>
      Balanced.either hop,
    tracks_either op (Option.isSome_of_eq_some hop) hx.tracks hy.tracks hz.tracks,
    hx.lays.either op hy.lays hz.lays⟩

theorem looping (hx : Realizes x h (h + 1) p xs bs) (hy : Realizes y h h q ys cs) :
    Realizes (looping x y) h h (.loop (p ++ .step ++ q ++ .step)) (xs ++ ys) (bs ++ cs) :=
  ⟨fun base => (threads_looping (hx.balances base) (hy.balances base)).imp fun _ _ _ =>
    Balanced.looping, tracks_looping hx.tracks hy.tracks, hx.lays.looping hy.lays⟩

theorem loopingElse (hx : ∀ h, Realizes x h (h + 1) p xs bs) (hw : Realizes w h k q us es)
    (hy : Realizes y k k u ys cs) (hz : Realizes z h k v zs ds) :
    Realizes (loopingElse x w y z) h k
      (p ++ .step ++ q ++ .step ++ .loop (p ++ .step ++ u ++ .step) ++ .step ++ v)
      (xs ++ us ++ xs ++ ys ++ zs) (bs ++ es ++ bs ++ cs ++ ds) :=
  ⟨fun base => (threads_loopingElse ((hx h).balances base) (hw.balances base) ((hx k).balances base)
      (hy.balances base) (hz.balances base)).imp fun _ _ _ => Balanced.loopingElse,
    tracks_loopingElse (fun h => (hx h).tracks) hw.tracks hy.tracks hz.tracks,
    (hx h).lays.loopingElse hw.lays (hx k).lays hy.lays hz.lays⟩

theorem ret (required : Bool) (hx : Realizes x h (h + 1) p xs bs) :
    Realizes (do x; build .ret; if required
      then build (.setHeight ((← get).builder.height + 1)) else return)
      h (h + required.toNat) (p ++ .step) xs bs := by
  refine ⟨fun base => ?_, tracks_ret required hx.tracks, hx.lays.ret required⟩
  rw [← Nat.add_assoc]
  exact (threads_ret required (hx.balances base)).imp fun _ _ _ => Balanced.ret _

theorem scope (hx : Realizes x h k p xs bs) :
    Realizes (do build .startScope; x; build .endScope) h k (.block p) xs bs :=
  ⟨fun base =>
    (threads_scope (fun _ _ => trivial) (fun _ _ _ _ _ => trivial) (hx.balances base)).imp
    fun _ _ _ =>
      Balanced.scope,
    tracks_scope hx.tracks, hx.lays.scope⟩

theorem bound (name : String) (pos : Position) (hy : Realizes y h (h + 1) p xs bs) :
    Realizes (do
      let slot ← declareLocal name pos
      y
      match slot with
      | some slot => build (.initLocal slot)
      | none => pure ()) h (h + 1) (.bound name p) xs bs :=
  ⟨hy.balances.bound name pos, tracks_bound name pos hy.tracks, hy.lays.bound name pos⟩

theorem definition (name : String) (pos : Position) (hy : Realizes y h (h + 1) p xs bs) :
    Realizes (do let slot ← declareBinding name pos; y; bindName name slot) h (h + 1)
      (.definition name p) xs bs :=
  ⟨hy.balances.definition name pos, tracks_definition name pos hy.tracks,
    hy.lays.definition name pos⟩

end Realizes

section Instructions

variable {h popped pushed : Nat}

theorem realizes_pure : Realizes (pure ()) h h .skip [] [] :=
  .plain balances_pure tracks_pure

theorem realizes_insn {insn : Insn} (hname : insn.nameless = true) (hop : straight insn.op = true)
    (hadmits : ∀ P : Prototype, P.Admits insn)
    (heff : insn.fits = true → effect? insn.op insn.pack = some (popped, pushed)) :
    Realizes (build (.emitUnit popped pushed insn)) (h + popped) (h + pushed) .step [] [] :=
  .plain (balances_insn hop hadmits heff) (tracks_insn hname hop)

theorem realizes_pooled {f : Nat → Insn} (c : Constant) (hname : ∀ n, (f n).nameless = true)
    (hop : ∀ n, straight (f n).op = true)
    (hadmits : ∀ (P : Prototype) (n : Nat), P.constants[n]? = some c → P.Admits (f n))
    (heff : ∀ n, (f n).fits = true → effect? (f n).op (f n).pack = some (popped, pushed)) :
    Realizes (build (do Build.emitUnit popped pushed (f (← Build.constant c)))) (h + popped)
      (h + pushed) .step [] [] :=
  .plain (balances_pooled c hop hadmits heff) (tracks_pooled c hname hop)

theorem realizes_simple (op : Opcode) (hname : (Insn.simple op).nameless = true)
    (hop : straight op = true) (hadmits : ∀ P : Prototype, P.Admits (.simple op))
    (heff : ∀ w, effect? op w = some (popped, pushed)) :
    Realizes (build (.emitUnit popped pushed (.simple op))) (h + popped) (h + pushed) .step [] [] :=
  realizes_insn hname hop hadmits fun _ => heff _

theorem realizes_named (op : Opcode) (name : String) (hname : ∀ n, (Insn.wide op n).nameless = true)
    (hop : straight op = true)
    (hadmits : ∀ (P : Prototype) (n : Nat), (P.stringConstant? n).isSome → P.Admits (.wide op n))
    (heff : ∀ w, effect? op w = some (popped, pushed)) :
    Realizes (build (.named popped pushed op name)) (h + popped) (h + pushed) .step [] [] :=
  realizes_pooled (.str name) hname (fun _ => hop)
    (fun P n hn => hadmits P n (stringConstant?_isSome hn)) fun _ _ => heff _

theorem realizes_null : Realizes (build .null) h (h + 1) .step [] [] :=
  realizes_simple .pushNull rfl rfl (fun _ => trivial) fun _ => rfl

theorem realizes_const (c : Constant) :
    Realizes (build (do Build.emitUnit 0 1 (.wide .const (← Build.constant c)))) h (h + 1)
      .step [] [] := by
  refine realizes_pooled c (fun _ => rfl) (fun _ => rfl) (fun P n hn => ?_) fun _ _ => rfl
  obtain ⟨hlt, _⟩ := Array.getElem?_eq_some_iff.1 hn
  exact hlt

theorem realizes_bool (b : Bool) : Realizes (build (.bool b)) h (h + 1) .step [] [] := by
  cases b with
  | true => exact realizes_simple .pushTrue rfl rfl (fun _ => trivial) fun _ => rfl
  | false => exact realizes_simple .pushFalse rfl rfl (fun _ => trivial) fun _ => rfl

theorem realizes_int (i : Int64) : Realizes (build (.int i)) h (h + 1) .step [] [] := by
  unfold Build.int
  split
  · exact realizes_simple (.smallInt _) rfl rfl (fun _ => trivial) fun _ => rfl
  · exact realizes_const (.int i)

theorem realizes_float (d : Double) : Realizes (build (.float d)) h (h + 1) .step [] [] := by
  unfold Build.float
  split
  · exact realizes_simple (.smallFloat _) rfl rfl (fun _ => trivial) fun _ => rfl
  · exact realizes_const (.float d)

theorem realizes_eq (negated : Bool) :
    Realizes (build (.eq negated)) (h + 2) (h + 1) .step [] [] := by
  cases negated with
  | true => exact realizes_simple .neq rfl rfl (fun _ => trivial) fun _ => rfl
  | false => exact realizes_simple .eq rfl rfl (fun _ => trivial) fun _ => rfl

theorem realizes_not : Realizes (build .not) (h + 1) (h + 1) .step [] [] :=
  realizes_simple .not rfl rfl (fun _ => trivial) fun _ => rfl

theorem realizes_prefixOp (symbol : String) :
    Realizes (build (.prefixOp symbol)) (h + 1) (h + 1) .step [] [] :=
  realizes_named .prefixOp symbol (fun _ => rfl) rfl (fun _ _ hn => hn) fun _ => rfl

theorem realizes_binary (symbol : String) :
    Realizes (build (.infixOp symbol)) (h + 2) (h + 1) .step [] [] :=
  realizes_named .infixOp symbol (fun _ => rfl) rfl (fun _ _ hn => hn) fun _ => rfl

theorem realizes_deref : Realizes (build .deref) (h + 1) (h + 1) .step [] [] :=
  realizes_simple .deref rfl rfl (fun _ => trivial) fun _ => rfl

theorem realizes_loadIndex : Realizes (build .loadIndex) (h + 2) (h + 1) .step [] [] :=
  realizes_simple .loadIndex rfl rfl (fun _ => trivial) fun _ => rfl

theorem realizes_loadField (name : String) :
    Realizes (build (.loadField name)) (h + 1) (h + 1) .step [] [] :=
  realizes_named .loadField name (fun _ => rfl) rfl (fun _ _ hn => hn) fun _ => rfl

theorem realizes_storeIndex : Realizes (build .storeIndex) (h + 3) (h + 1) .step [] [] :=
  realizes_simple .storeIndex rfl rfl (fun _ => trivial) fun _ => rfl

theorem realizes_storeField (name : String) :
    Realizes (build (.storeField name)) (h + 2) (h + 1) .step [] [] :=
  realizes_named .storeField name (fun _ => rfl) rfl (fun _ _ hn => hn) fun _ => rfl

theorem realizes_storeDeref : Realizes (build .storeDeref) (h + 2) (h + 1) .step [] [] :=
  realizes_simple .storeDeref rfl rfl (fun _ => trivial) fun _ => rfl

theorem realizes_refIndex : Realizes (build .refIndex) (h + 2) (h + 1) .step [] [] :=
  realizes_insn rfl rfl (fun _ => trivial) effect_ref

theorem realizes_refField (name : String) :
    Realizes (build (.refField name)) (h + 1) (h + 1) .step [] [] :=
  realizes_pooled (.str name) (fun _ => rfl) (fun _ => rfl)
    (fun _ _ hn => stringConstant?_isSome hn) fun _ =>
    effect_ref

theorem realizes_dup : Realizes (build .dup) (h + 1) (h + 2) .step [] [] :=
  realizes_simple .dup rfl rfl (fun _ => trivial) fun _ => rfl

theorem realizes_dup2 : Realizes (build .dup2) (h + 2) (h + 4) .step [] [] :=
  realizes_simple .dup2 rfl rfl (fun _ => trivial) fun _ => rfl

theorem realizes_pop : Realizes (build .pop) (h + 1) h .step [] [] :=
  realizes_simple .pop rfl rfl (fun _ => trivial) fun _ => rfl

theorem realizes_list (count : Nat) :
    Realizes (build (.list count)) (h + count) (h + 1) .step [] [] :=
  realizes_insn rfl rfl (fun _ => trivial) fun hfits =>
    congrArg (fun c => some (c, 1)) (Insn.c_pack rfl hfits)

theorem realizes_tuple (count : Nat) :
    Realizes (build (.tuple count)) (h + count) (h + 1) .step [] [] :=
  realizes_insn rfl rfl (fun _ => trivial) fun hfits =>
    congrArg (fun c => some (c, 1)) (Insn.c_pack rfl hfits)

theorem realizes_call (count : Nat) :
    Realizes (build (.invoke count)) (h + count + 1) (h + 1) .step [] [] :=
  realizes_insn rfl rfl (fun _ => trivial) fun hfits =>
    congrArg (fun c => some (c + 1, 1)) (Insn.c_pack rfl hfits)

theorem realizes_callMethod (name : String) (count : Nat) :
    Realizes (build (.invokeMethod name count)) (h + count + 1) (h + 1) .step [] [] := by
  refine realizes_pooled (.str name) (fun _ => rfl) (fun _ => rfl)
    (fun _ _ hn => stringConstant?_isSome hn) fun n hfits => ?_
  exact congrArg (fun a => some (a + 1, 1)) (Insn.a_pack rfl hfits)

theorem realizes_load (name : String) : Realizes (load name) h (h + 1) (.access .load name) [] [] :=
  .plain (balances_load name) (tracks_load name)

theorem realizes_store (name : String) :
    Realizes (store name) (h + 1) (h + 1) (.access .store name) [] [] :=
  .plain (balances_store name) (tracks_store name)

theorem realizes_refer (name : String) :
    Realizes (refer name) h (h + 1) (.access .refer name) [] [] :=
  .plain (balances_refer name) (tracks_refer name)

theorem realizes_discard (r : Bool) :
    Realizes (discard r) (h + 1) (h + r.toNat) (.drop r) [] [] := by
  cases r with
  | true => exact realizes_pure
  | false => exact realizes_pop

theorem realizes_whenRequired (r : Bool) {x : Build Unit}
    (hx : Realizes (build x) h (h + 1) .step [] []) :
    Realizes (whenRequired r x) h (h + r.toNat) (.when r .step) [] [] := by
  cases r with
  | true => exact hx
  | false => exact realizes_pure

end Instructions

/-- A node whose value is wanted exactly if `r` is lowered to its code, which leaves the value in
that case. -/
def Realized (r : Bool) (n : Node) : Prop :=
  ∀ h, Realizes (node n) h (h + r.toNat) (.node n) [n] []

section Constructs

variable {h : Nat} {pos : Position} {r : Bool} {x y : Node}

theorem Realized.plans (hf : Realized true f.body) : Plans f :=
  ⟨(hf 0).balances, (hf 0).tracks⟩

theorem Realized.furnishes (hf : Realized true f.body) : Furnishes f :=
  ⟨(hf 0).balances, (hf 0).lays⟩

theorem realizes_nodes {ns : List Node} (hns : ∀ n ∈ ns, Realized true n) (h : Nat) :
    Realizes (nodes ns) h (h + ns.length) (.nodes ns) ns [] := by
  induction ns generalizing h with
  | nil => exact realizes_pure
  | cons n ns ih =>
    have hrest := ih (fun m hm => hns m (List.mem_cons_of_mem _ hm)) (h + 1)
    rw [List.length_cons, Nat.add_comm ns.length 1, ← Nat.add_assoc]
    exact (hns n List.mem_cons_self h).seq hrest

theorem realizes_block {ns : List Node} (hns : ∀ n ∈ ns, ∀ r, Marks r n → Realized r n)
    (hm : MarksBlock r ns) (h : Nat) :
    Realizes (nodes ns) h (h + (r && !ns.isEmpty).toNat) (.nodes ns) ns [] := by
  induction ns with
  | nil =>
    rw [List.isEmpty_nil, Bool.not_true, Bool.and_false]
    exact realizes_pure
  | cons n ns ih =>
    unfold MarksBlock at hm
    have hfirst := hns n List.mem_cons_self _ hm.1 h
    have hrest := ih (fun m hm => hns m (List.mem_cons_of_mem _ hm)) hm.2
    cases ns with
    | nil =>
      rw [List.isEmpty_nil, Bool.and_true] at hfirst
      rw [List.isEmpty_cons, Bool.not_false, Bool.and_true]
      exact hfirst.seq realizes_pure
    | cons m ms =>
      rw [List.isEmpty_cons, Bool.and_false] at hfirst
      exact hfirst.seq hrest

theorem Realizes.orNull {α : Type} {items : List α} {x : LowerM Unit} {p : Plan} {xs bs : List Node}
    (hx : Realizes x h (h + (r && !items.isEmpty).toNat) p xs bs) :
    Realizes (do x; if items.isEmpty then whenRequired r .null) h (h + r.toNat)
      (p ++ .when items.isEmpty (.when r .step)) xs bs := by
  cases items with
  | nil =>
    rw [List.isEmpty_nil, Bool.not_true, Bool.and_false] at hx
    exact hx.emit (realizes_whenRequired r realizes_null)
  | cons a as =>
    rw [List.isEmpty_cons, Bool.not_false, Bool.and_true] at hx
    exact hx.emit realizes_pure

theorem realizes_assign {value : Node} (hops : ∀ n ∈ operands target.expr, Realized true n)
    (hv : Realized true value) :
    Realizes (expr pos r (.assign target value)) h (h + r.toNat) (.expr r (.assign target value))
      (operands target.expr ++ [value]) [] := by
  obtain ⟨p, r', e⟩ := target
  cases e with
  | identifier name =>
    simp only [Plan.expr, Plan.append_assoc]
    exact (hv h).emit ((realizes_store name).emit (realizes_discard r))
  | index t k =>
    obtain ⟨ht, hk⟩ : Realized true t ∧ Realized true k := by simpa [operands] using hops
    simp only [Plan.expr, Plan.append_assoc]
    exact (ht h).seq
      ((hk (h + 1)).seq ((hv (h + 2)).emit (realizes_storeIndex.emit (realizes_discard r))))
  | field t name =>
    have ht : Realized true t := by simpa [operands] using hops
    simp only [Plan.expr, Plan.append_assoc]
    exact (ht h).seq ((hv (h + 1)).emit ((realizes_storeField name).emit (realizes_discard r)))
  | deref x =>
    have hx : Realized true x := by simpa [operands] using hops
    simp only [Plan.expr, Plan.append_assoc]
    exact (hx h).seq ((hv (h + 1)).emit (realizes_storeDeref.emit (realizes_discard r)))
  | _ => exact ((hv h).emit (realizes_discard r)).report p _

theorem realizes_compoundAssign {op : Operator} {value : Node}
    (hops : ∀ n ∈ operands target.expr, Realized true n) (hv : Realized true value) :
    Realizes (expr pos r (.compoundAssign op target value)) h (h + r.toNat)
      (.expr r (.compoundAssign op target value)) (operands target.expr ++ [value]) [] := by
  obtain ⟨p, r', e⟩ := target
  cases e with
  | identifier name =>
    simp only [Plan.expr, Plan.append_assoc]
    exact (realizes_load name).seq ((hv (h + 1)).emit ((realizes_binary op.symbol).emit
      ((realizes_store name).emit (realizes_discard r))))
  | index t k =>
    obtain ⟨ht, hk⟩ : Realized true t ∧ Realized true k := by simpa [operands] using hops
    simp only [Plan.expr, Plan.append_assoc]
    exact (ht h).seq ((hk (h + 1)).seq (realizes_dup2.seq (realizes_loadIndex.seq ((hv (h + 3)).emit
      ((realizes_binary op.symbol).emit (realizes_storeIndex.emit (realizes_discard r)))))))
  | field t name =>
    have ht : Realized true t := by simpa [operands] using hops
    simp only [Plan.expr, Plan.append_assoc]
    exact (ht h).seq (realizes_dup.seq ((realizes_loadField name).seq ((hv (h + 2)).emit
      ((realizes_binary op.symbol).emit ((realizes_storeField name).emit (realizes_discard r))))))
  | deref x =>
    have hx : Realized true x := by simpa [operands] using hops
    simp only [Plan.expr, Plan.append_assoc]
    exact (hx h).seq (realizes_dup.seq (realizes_deref.seq ((hv (h + 2)).emit
      ((realizes_binary op.symbol).emit (realizes_storeDeref.emit (realizes_discard r))))))
  | _ => exact ((hv h).emit (realizes_discard r)).report p _

theorem realizes_invoke {args : List Node}
    (hx : ∀ n ∈ lowered (.invoke target args), Realized true n) :
    Realizes (expr pos r (.invoke target args)) h (h + r.toNat) (.expr r (.invoke target args))
      (lowered (.invoke target args)) [] := by
  -- the callee or the receiver, and then the arguments and the call
  have hcall : ∀ {x : Node} {call : LowerM Unit}, (∀ n ∈ x :: args, Realized true n) →
      Realizes call (h + args.length + 1) (h + 1) .step [] [] →
      Realizes (do node x; nodes args; build (.setLine pos.line); call; discard r) h (h + r.toNat)
        (.node x ++ (.nodes args ++ (.step ++ .drop r))) (x :: args) [] := by
    intro x call hx hcall
    obtain ⟨hx, hargs⟩ := List.forall_mem_cons.1 hx
    have hall := realizes_nodes hargs (h + 1)
    rw [Nat.add_right_comm] at hall
    exact (hx h).seq (hall.emit ((hcall.emit (realizes_discard r)).setLine _))
  obtain ⟨p, r', e⟩ := target
  cases e with
  | field receiver name =>
    simp only [Plan.expr, Plan.append_assoc]
    exact hcall hx (realizes_callMethod name args.length)
  | _ =>
    simp only [Plan.expr, Plan.append_assoc]
    exact hcall hx (realizes_call args.length)

theorem realizes_ref (hops : ∀ n ∈ operands x.expr, Realized true n) (he : Complete (.ref x)) :
    Realizes (expr pos r (.ref x)) h (h + r.toNat) (.expr r (.ref x)) (operands x.expr) [] := by
  obtain ⟨p, r', e⟩ := x
  cases e with
  | identifier name => exact (realizes_refer name).emit (realizes_discard r)
  | index t k =>
    obtain ⟨ht, hk⟩ : Realized true t ∧ Realized true k := by simpa [operands] using hops
    simp only [Plan.expr, Plan.append_assoc]
    exact (ht h).seq ((hk (h + 1)).emit (realizes_refIndex.emit (realizes_discard r)))
  | field t name =>
    have ht : Realized true t := by simpa [operands] using hops
    simp only [Plan.expr, Plan.append_assoc]
    exact (ht h).emit ((realizes_refField name).emit (realizes_discard r))
  | deref x => exact he.elim
  | _ => exact (realizes_null.emit (realizes_discard r)).report p _

theorem landing_test (c : Node) : landing h (test c).2 = some h := by
  obtain ⟨_, _, e⟩ := c
  cases e <;> rfl

theorem test_mem (c : Node) : (test c).1 ∈ c :: negated c.expr := by
  obtain ⟨_, _, e⟩ := c
  cases e with
  | not x => exact List.mem_cons_of_mem _ List.mem_cons_self
  | _ => exact List.mem_cons_self

theorem marks_test (hm : Marks true c) : Marks true (test c).1 := by
  obtain ⟨_, _, e⟩ := c
  cases e with
  | not x => exact hm.2
  | _ => exact hm

theorem plan_ifElse (c pass : Node) (fail : Option Node) : Plan.expr r (.ifElse c pass fail) =
    .node (test c).1 ++ .step ++ .node pass ++
      (if fail.isNone && !r then .skip else .step ++ .elseBranch fail) := by
  obtain ⟨_, _, e⟩ := c
  cases e <;> rfl

theorem realizes_ifElse {pass : Node} {fail : Option Node} (hc : Realized true (test c).1)
    (hpass : Realized r pass) (hfail : ∀ n, fail = some n → Realized r n) :
    Realizes (expr pos r (.ifElse c pass fail)) h (h + r.toNat) (.expr r (.ifElse c pass fail))
      (lowered (.ifElse c pass fail)) [] := by
  rw [expr_ifElse, plan_ifElse]
  cases fail with
  | none =>
    cases r with
    | false =>
      rw [if_pos (by simp), if_pos (by simp), Plan.append_skip]
      exact (hc h).junction _ (landing_test c) (hpass h)
    | true =>
      rw [if_neg (by simp), if_neg (by simp), ← Plan.append_assoc]
      exact (hc h).either _ (landing_test c) (hpass h) realizes_null
  | some n =>
    rw [if_neg (by simp), if_neg (by simp), ← Plan.append_assoc]
    exact (hc h).either _ (landing_test c) (hpass h) (hfail n rfl h)

theorem realizes_emptyList (r : Bool) :
    Realizes (whenRequired r (.list 0)) h (h + r.toNat) (.when r .step) [] [] :=
  realizes_whenRequired r (realizes_list 0)

theorem realizes_loopBody {body : Node} (hbody : Realized r body) :
    Realizes (loopBody r (node body)) (h + r.toNat) (h + r.toNat) (.loopBody r (.node body))
      [body] [] := by
  cases r with
  | true =>
    show Realizes _ _ _ (.step ++ .node body ++ .step ++ .step) _ _
    simp only [Plan.append_assoc]
    exact realizes_dup.seq
      ((hbody (h + 2)).emit ((realizes_callMethod "append" 1).emit realizes_pop))
  | false => exact hbody h

theorem realizes_whileElse {body : Node} {other : Option Node} (hc : Realized true c)
    (hbody : Realized r body) (hother : ∀ n, other = some n → Realized r n) :
    Realizes (expr pos r (.whileElse c body other)) h (h + r.toNat)
      (.expr r (.whileElse c body other)) (c :: body :: other.toList) [] := by
  cases other with
  | none =>
    rw [expr_whileElse_none]
    exact (realizes_emptyList r).seq ((hc (h + r.toNat)).looping (realizes_loopBody hbody))
  | some n =>
    rw [expr_whileElse_some]
    have hloop :=
      Realizes.loopingElse hc (realizes_emptyList r) (realizes_loopBody hbody) (hother n rfl h)
    -- the condition is there twice
    exact { hloop with lays := hloop.lays.of_mem_iff fun m => by simp }

theorem balances_matchCases {cases : List (Arm Node)} (hx : Balances (node x) h (h + 1))
    (hcases : ∀ a ∈ cases, Balances (node a.body) h (h + r.toNat)) :
    Balances (expr pos r (.matchCases x cases)) h (h + r.toNat) := by
  intro base
  have harms :=
    threadsArms_of_emits (S := fun _ => Balanced h (h + r.toNat))
    (fun a ha => hcases a ha base) .empty
  rw [← Nat.add_assoc] at harms ⊢
  exact (threads_matching pos r x cases (hx base) harms).imp fun _ _ _ hs =>
    Balanced.matching hs (by simp)

theorem realizes_ret {value : Option Node} (hvalue : ∀ n, value = some n → Realized true n) :
    Realizes (expr pos r (.ret value)) h (h + r.toNat) (.expr r (.ret value)) value.toList [] := by
  rw [expr]
  cases value with
  | none => exact realizes_null.ret r
  | some n => exact (hvalue n rfl h).ret r

theorem binding_eq (pos : Position) (keep : Bool) (name : String) (value : Node) :
    binding pos keep ⟨name, value⟩ = (do
      (do
        let slot ← declareLocal name pos
        node value
        match slot with
        | some slot => build (.initLocal slot)
        | none => pure ())
      discard keep) := by
  rw [binding]
  simp only [bind_assoc]
  congr
  funext slot
  cases slot <;> rfl

theorem realizes_bindings {bs : List (Binding Node)} (hbs : ∀ b ∈ bs, Realized true b.value) :
    Realizes (bindings pos r bs) h (h + (r && !bs.isEmpty).toNat) (.bindings r bs)
      (bs.map Binding.value) [] := by
  induction bs with
  | nil =>
    rw [List.isEmpty_nil, Bool.not_true, Bool.and_false]
    exact realizes_pure
  | cons b bs ih =>
    obtain ⟨name, value⟩ := b
    have hfirst :=
      ((hbs _ List.mem_cons_self h).bound name pos).emit (realizes_discard (r && bs.isEmpty))
    have hrest := ih fun b hb => hbs b (List.mem_cons_of_mem _ hb)
    rw [bindings, Plan.bindings, binding_eq]
    cases bs with
    | nil =>
      simp only [List.isEmpty_nil, List.isEmpty_cons, Bool.not_false, Bool.and_true] at hfirst ⊢
      exact hfirst.seq realizes_pure
    | cons b' bs =>
      simp only [List.isEmpty_cons, Bool.not_false, Bool.and_true, Bool.and_false] at hfirst hrest ⊢
      exact hfirst.seq hrest

theorem realizes_closure (name : Option String) (pos : Position) (hf : Realized true f.body) :
    Realizes (do build (.closure (← function name pos f))) h (h + 1) (.create (.function f))
      [] [f.body] :=
  ⟨balances_closure name pos hf.plans.balances, tracks_closure name pos hf.plans,
    lays_closure name pos hf.furnishes⟩

theorem realizes_makeType {body : TypeBody Node} (pos : Position)
    (hbody : ∀ f ∈ body.functions, Realized true f.body) :
    Realizes (do build (.makeType (← typeBody pos body))) h (h + 1) (typeValue body) []
      body.bodies :=
  ⟨balances_makeType pos fun f hf => (hbody f hf).plans.balances, tracks_makeType pos fun f hf =>
    (hbody f hf).plans, lays_makeType pos fun f hf => (hbody f hf).furnishes⟩

theorem mem_lowered {n : Node} (hn : n ∈ lowered e) : n ∈ parts e := by
  cases e with
  | fnDef | fn | typeDef => cases hn
  | assign t v | compoundAssign _ t v =>
    simp only [lowered, parts, List.mem_append, List.mem_cons, List.not_mem_nil, or_false] at hn ⊢
    exact hn.symm
  | invoke t args =>
    obtain ⟨p, r, e⟩ := t
    cases e with
    | field x name =>
      simp only [lowered, parts, operands, List.mem_append, List.mem_cons, List.not_mem_nil,
        or_false] at hn ⊢
      exact .inr hn
    | _ =>
      simp only [lowered, parts, List.mem_append, List.mem_cons] at hn ⊢
      exact hn.imp id .inr
  | ifElse c p f =>
    have htest := test_mem c
    simp only [lowered, parts, List.mem_append, List.mem_cons] at hn htest ⊢
    rcases hn with rfl | hn | hn
    · exact htest.imp id fun h => .inr (.inl h)
    · exact .inr (.inl hn)
    · exact .inr (.inr (.inr hn))
  | _ => exact hn

theorem marks_lowered_invoke {args : List Node} (ht : Marks true target) (hargs : MarksAll args) :
    ∀ n ∈ lowered (.invoke target args), Marks true n := by
  obtain ⟨p, r, e⟩ := target
  cases e with
  | field x name => exact List.forall_mem_cons.2 ⟨ht.2, hargs.of_mem⟩
  | _ => exact List.forall_mem_cons.2 ⟨ht, hargs.of_mem⟩

theorem realizes_expr (ih : ∀ n ∈ parts e, ∀ r, Marks r n → Realized r n) (hm : MarksExpr r e)
    (he : Complete e) :
    Realizes (expr pos r e) h (h + r.toNat) (.expr r e) (lowered e) (bodies e) := by
  have value : ∀ n ∈ parts e, Marks true n → Realized true n := fun n hn hm => ih n hn true hm
  cases e with
  | null => exact realizes_whenRequired r realizes_null
  | bool b => exact realizes_whenRequired r (realizes_bool b)
  | int i => exact realizes_whenRequired r (realizes_int i)
  | float d => exact realizes_whenRequired r (realizes_float d)
  | str s => exact realizes_whenRequired r (realizes_const (.str s))
  | identifier name =>
    cases r with
    | true => exact realizes_load name
    | false => exact realizes_pure
  | this =>
    exact realizes_whenRequired r (realizes_simple .this rfl rfl (fun _ => trivial) fun _ => rfl)
  | prefixOp op x =>
    simp only [Plan.expr, Plan.append_assoc]
    exact (value x (by simp [parts]) hm h).emit
      ((realizes_prefixOp op.symbol).emit (realizes_discard r))
  | infixOp op x y =>
    rw [expr]
    simp only [Plan.expr, Plan.append_assoc]
    refine (value x (by simp [parts]) hm.1 h).seq ((value y (by simp [parts]) hm.2 (h + 1)).emit ?_)
    cases op with
    | equal => exact (realizes_eq false).emit (realizes_discard r)
    | notEqual => exact (realizes_eq true).emit (realizes_discard r)
    | operator o => exact (realizes_binary o.symbol).emit (realizes_discard r)
  | and x y =>
    rw [expr_and]
    exact ((value x (by simp [parts]) hm.1 h).junction .and rfl
      (value y (by simp [parts]) hm.2 h)).emit (realizes_discard r)
  | or x y =>
    rw [expr_or]
    exact ((value x (by simp [parts]) hm.1 h).junction .or rfl
      (value y (by simp [parts]) hm.2 h)).emit (realizes_discard r)
  | not x =>
    simp only [Plan.expr, Plan.append_assoc]
    exact (value x (by simp [parts]) hm h).emit (realizes_not.emit (realizes_discard r))
  | scope items =>
    rw [expr_scope]
    exact (realizes_block ih hm h).orNull.scope
  | varDef bs =>
    rw [expr]
    exact (realizes_bindings fun b hb => value b.value (List.mem_map_of_mem hb)
      (MarksBindings.of_mem hm b hb)).orNull
  | fnDef name f =>
    obtain ⟨params, variadic, body⟩ := f
    have hbody := value body (by simp [parts]) hm
    have hclosure := realizes_closure (f := ⟨params, variadic, body⟩) (h := h) (some name) pos hbody
    have hdefinition := (hclosure.definition name pos).emit (realizes_discard r)
    simp only [bind_assoc] at hdefinition
    exact hdefinition
  | fn f =>
    obtain ⟨params, variadic, body⟩ := f
    have hbody := value body (by simp [parts]) hm
    have hclosure := (realizes_closure (f := ⟨params, variadic, body⟩) (h := h) none pos hbody).emit
      (realizes_discard r)
    simp only [bind_assoc] at hclosure
    exact hclosure
  | typeDef body =>
    have hbodies : ∀ f ∈ body.functions, Realized true f.body := fun f hf =>
      value f.body (TypeBody.mem_bodies hf) (MarksType.bodies hm f.body (TypeBody.mem_bodies hf))
    have hdefinition := ((realizes_makeType (h := h) pos hbodies).definition body.name pos).emit
      (realizes_discard r)
    simp only [bind_assoc] at hdefinition
    exact hdefinition
  | assign t v =>
    refine realizes_assign (fun n hn => ?_) (value v (by simp [parts]) hm.2)
    exact value n (by simp [parts, hn]) (hm.1.operands n hn)
  | compoundAssign op t v =>
    refine realizes_compoundAssign (fun n hn => ?_) (value v (by simp [parts]) hm.2)
    exact value n (by simp [parts, hn]) (hm.1.operands n hn)
  | invoke t args =>
    exact realizes_invoke fun n hn => value n (mem_lowered hn) (marks_lowered_invoke hm.1 hm.2 n hn)
  | index t k =>
    simp only [Plan.expr, Plan.append_assoc]
    exact (value t (by simp [parts]) hm.1 h).seq ((value k (by simp [parts]) hm.2 (h + 1)).emit
      (realizes_loadIndex.emit (realizes_discard r)))
  | field t name =>
    simp only [Plan.expr, Plan.append_assoc]
    exact (value t (by simp [parts]) hm h).emit
      ((realizes_loadField name).emit (realizes_discard r))
  | ifElse c p f =>
    obtain ⟨hc, hp, hf⟩ := hm
    refine realizes_ifElse (value _ (mem_lowered (by simp [lowered])) (marks_test hc))
      (ih p (by simp [parts]) r hp) ?_
    rintro n rfl
    exact ih n (by simp [parts]) r hf
  | whileElse c b o =>
    obtain ⟨hc, hb, ho⟩ := hm
    refine realizes_whileElse (value c (by simp [parts]) hc) (ih b (by simp [parts]) r hb) ?_
    rintro n rfl
    exact ih n (by simp [parts]) r ho
  | matchCases x cases =>
    have hx := value x (by simp [parts]) hm.1 h
    have hcases : ∀ a ∈ cases, Realized r a.body := fun a ha =>
      ih a.body (List.mem_cons_of_mem _ (List.mem_map_of_mem ha)) r (hm.2.of_mem a ha)
    exact ⟨balances_matchCases hx.balances fun a ha => (hcases a ha h).balances,
      tracks_matching hx.tracks fun a ha => (hcases a ha h).tracks,
      lays_matchCases he hx.lays fun a ha => (hcases a ha h).lays⟩
  | ref x => exact realizes_ref (fun n hn => value n hn (Marks.target hm |>.operands n hn)) he
  | deref x =>
    simp only [Plan.expr, Plan.append_assoc]
    exact (value x (by simp [parts]) hm h).emit (realizes_deref.emit (realizes_discard r))
  | list items =>
    simp only [Plan.expr, Plan.append_assoc]
    exact (realizes_nodes (fun n hn => value n hn (MarksAll.of_mem hm n hn)) h).emit
      ((realizes_list items.length).emit (realizes_discard r))
  | tuple items =>
    simp only [Plan.expr, Plan.append_assoc]
    exact (realizes_nodes (fun n hn => value n hn (MarksAll.of_mem hm n hn)) h).emit
      ((realizes_tuple items.length).emit (realizes_discard r))
  | ret x =>
    refine realizes_ret ?_
    rintro n rfl
    exact value n (by simp [parts]) hm

/-- An expression with a mistake, because of which some of its parts are left out. -/
theorem realizes_faulty (ih : ∀ n ∈ parts e, ∀ r, Marks r n → Realized r n) (hm : MarksExpr r e)
    (he : ¬Complete e) :
    Realizes (node ⟨pos, r, e⟩) h (h + r.toNat) (.node ⟨pos, r, e⟩) [⟨pos, r, e⟩] [] := by
  cases e with
  | matchCases x cases =>
    have hx := ih x (by simp [parts]) true hm.1 h
    have hcases : ∀ a ∈ cases, Realized r a.body := fun a ha =>
      ih a.body (List.mem_cons_of_mem _ (List.mem_map_of_mem ha)) r (hm.2.of_mem a ha)
    obtain ⟨A, hunclean⟩ := threads_unclean_matchCases pos he hx.balances fun a ha =>
      (hcases a ha h).balances
    exact ⟨(balances_setLine pos.line).seq
      (balances_matchCases hx.balances fun a ha => (hcases a ha h).balances),
      (tracks_matching hx.tracks fun a ha => (hcases a ha h).tracks).setLine pos.line,
      lays_unclean he hunclean⟩
  | ref x =>
    obtain ⟨p, r', e⟩ := x
    cases e with
    | deref x =>
      have hnull := realizes_null.emit (realizes_discard (h := h) r)
      have hreport := (hnull.report p .invalidReference).setLine pos.line
      obtain ⟨A, hunclean⟩ := threads_unclean_report p .invalidReference rfl hnull.balances
      exact ⟨hreport.balances, hreport.tracks, lays_unclean he hunclean⟩
    | _ => exact absurd trivial he
  | _ => exact absurd trivial he

/-- Every marked node is lowered to code that leaves its value exactly if it is wanted, as its plan
says, and the code of all that is in it is there. -/
theorem realizes_node (n : Node) : ∀ r, Marks r n → Realized r n := by
  induction n using Node.induction_parts with
  | step n ih =>
    obtain ⟨pos, r', e⟩ := n
    rintro r ⟨rfl, hm⟩ h
    by_cases he : Complete e
    · have hexpr : Realizes (node ⟨pos, r', e⟩) h (h + r'.toNat) (.node ⟨pos, r', e⟩)
        (lowered e) (bodies e) :=
        (realizes_expr ih hm he).setLine pos.line
      exact ⟨hexpr.balances, hexpr.tracks, hexpr.lays.node he⟩
    · exact realizes_faulty ih hm he

end Constructs

/-- The items of a program that are marked, from the start of its function to the end. -/
theorem realizes_items (hm : MarksBlock true items) :
    Realizes (nodes items) 0 (!items.isEmpty).toNat (.nodes items) items [] := by
  have hblock := realizes_block (fun n _ => realizes_node n) hm 0
  rwa [Bool.true_and, Nat.zero_add] at hblock

theorem sane_start : State.start.Sane :=
  ⟨.new _ _, rfl⟩

/-- A whole program of marked items: lowering it succeeds, and the function it gives is good and
packed unless something in it was too large. -/
theorem yields_program (hm : MarksBlock true items) :
    Yields (program items) .start fun p t => p.outers = [] ∧ (SizesFit t.diagnostics → p.Good ∧
      ∃ s, nodes items .start = .ok () s ∧ p.PackedFrom s.builder) := by
  obtain ⟨_, s, hrun, hs⟩ := (realizes_items hm).balances.emits _ sane_start trivial rfl
  rw [program, yields_bind]
  refine ⟨(), s, hrun, ?_⟩
  refine (yields_leave ⟨1, 1⟩ rfl hs (Bool.toNat_le _)).imp fun p t ⟨hp, hgood, _⟩ =>
    ⟨?_, fun hfit => ?_⟩
  · -- the outermost function captures nothing
    have hsane := hs.leads.sane
    have henclosing := hs.leads.enclosing
    obtain ⟨b, enclosing, ds⟩ := s
    cases enclosing with
    | nil =>
      rw [hp]
      exact hsane.2
    | cons parent rest => exact henclosing.elim
  · exact ⟨(hgood hfit).1, s, hrun, (hgood hfit).2⟩

theorem yields_program_described (hm : MarksBlock true items) :
    Yields (program items) .start fun p t => SizesFit t.diagnostics →
      Described [] (.ofProgram items) p := by
  have hholds : Context.start.Holds .start := by
    refine ⟨⟨.new _ _ _, rfl⟩, rfl, fun i S D q hD => ?_, fun _ i S D q hD => ?_⟩
    · cases hD
    · cases hD
  obtain ⟨hsound, hthreads⟩ := (realizes_items hm).tracks _ Context.ok_start
  obtain ⟨_, s, hrun, hbalanced, hs⟩ :=
    ((realizes_items hm).balances.emits _ sane_start trivial rfl).and
    (hthreads _ sane_start hholds rfl)
  rw [program, yields_bind]
  refine ⟨(), s, hrun,
    (yields_leave ⟨1, 1⟩ rfl hbalanced (Bool.toNat_le _)).imp fun p t hleft hfit => ?_⟩
  obtain ⟨hp, hgood, ds, hds, ht⟩ := hleft
  have hdiagnostics : t.diagnostics = ds := by
    rw [ht]
    split <;> rfl
  have hfinish := finishes_of_packed (hgood hfit).2
  rw [hdiagnostics] at hfit
  rw [hp] at hfinish ⊢
  have hcode := hs.code _ (hfinish.mono (Nat.zero_le _) (Nat.zero_le _))
  exact described_build hsound rfl hs.holds (hfit.of_prefix hds) hcode

theorem yields_program_houses (hm : MarksBlock true items) :
    Yields (program items) .start fun p t => Houses items p t := by
  have hlays := (realizes_items hm).lays [] [] .start sane_start (manifest_nil _) rfl
  have hbalances := (realizes_items hm).balances.emits .start sane_start trivial rfl
  obtain ⟨_, s, hrun, hshows, hall⟩ := hlays.and hbalances
  rw [program, yields_bind]
  exact ⟨(), s, hrun, yields_leave_houses ⟨1, 1⟩ rfl hshows hall (Bool.toNat_le _)⟩

end Lower
end Refscript
