import Refscript.Proofs.Semantics.Operations

/-!
# Refscript.Proofs.Semantics.Branching

The code of conditions, loops, cases, returns and scopes carries out their evaluation, and so does
that of every node all of whose names are global (`performs_node`).

A loop is done by induction on the bound of its evaluation: each turn costs the machine at least the
jump back, so that a loop which exceeds the bound keeps the machine going for as many moves.
-/

namespace Refscript

open Lower Scene Marking

variable {m n target : Nat} {body c : Node} {s : Store}

section Branching

variable {ω : Type} {S : Scene ω} {r : Bool} {pos : Position} {x y : Node} {i : Nat}

theorem Scene.realizes_decision {insn : Insn} {a : Value} {stack : List Value} {next : Bool → Nat}
    {left : Bool → List Value} {s : Store × ω} (hi : S.code.Carries i insn)
    (hop : Exec.operation (S.frame (i + 1) (a :: stack)) insn.pack insn.op =
      Action.reading (·.deref a) >>= fun u =>
      pure (.next (S.frame (next u.truth) (left u.truth)))) :
    S.Realizes n (S.point i (a :: stack) s) (Evaluator.holds a s) fun b s =>
      S.point (next b) (left b) s :=
  Realizes.bind (realizes_insn hi hop) fun _ _ _ => .pure rfl

theorem Scene.realizes_keepIf {op : Opcode} {when : Bool}
    (hop : ∀ f w, Exec.operation f w op = Exec.keepIf f when w.c) (hl : op.layout = .wide)
    (hi : S.code.Carries i (.wide op target)) (a : Value) (stack : List Value) (s : Store × ω) :
    S.Realizes n (S.point i (a :: stack) s) (Evaluator.holds a s) fun b s =>
      S.point (if b = when then target else i + 1) (if b = when then a :: stack else stack) s := by
  refine realizes_decision hi ((hop _ _).trans ?_)
  rw [Insn.c_pack hl hi.fits]
  show (Action.reading (·.deref a) >>= _) = _
  congr 1
  funext u
  split <;> rfl

theorem Scene.realizes_jumpIf {op : Opcode} {when : Bool}
    (hop : ∀ f w, Exec.operation f w op = Exec.jumpIf f when w.c) (hl : op.layout = .wide)
    (hi : S.code.Carries i (.wide op target)) (a : Value) (stack : List Value) (s : Store × ω) :
    S.Realizes n (S.point i (a :: stack) s) (Evaluator.holds a s) fun b s =>
      S.point (if b = when then target else i + 1) stack s := by
  refine realizes_decision hi ((hop _ _).trans ?_)
  rw [Insn.c_pack hl hi.fits]
  unfold Exec.jumpIf
  rw [popPlain_frame, bind_assoc]
  congr 1
  funext u
  rw [pure_bind]
  dsimp only
  split <;> rfl

theorem performs_and (hx : S.Performs (node x) true (S.node x))
    (hy : S.Performs (node y) true (S.node y)) :
    S.Performs (expr pos r (.and x y)) r (S.expr r (.and x y)) := by
  intro h
  rw [expr_and]
  refine ((threads_junction .and (hx h) (hy h)).seq (emits_discard r)).imp ?_
  rintro P i j ⟨k, ⟨m, hx, ⟨_, hi, _⟩, hy⟩, hd⟩ rfl stack s
  refine Realizes.discard (Realizes.bind (hx rfl stack s) fun a t _ => ?_) hd
  refine Realizes.bind (realizes_keepIf (fun _ _ => rfl) rfl hi a stack t) fun b u _ => ?_
  cases b with
  | true => exact hy rfl stack u
  | false => exact .pure rfl

theorem performs_or (hx : S.Performs (node x) true (S.node x))
    (hy : S.Performs (node y) true (S.node y)) :
    S.Performs (expr pos r (.or x y)) r (S.expr r (.or x y)) := by
  intro h
  rw [expr_or]
  refine ((threads_junction .or (hx h) (hy h)).seq (emits_discard r)).imp ?_
  rintro P i j ⟨k, ⟨m, hx, ⟨_, hi, _⟩, hy⟩, hd⟩ rfl stack s
  refine Realizes.discard (Realizes.bind (hx rfl stack s) fun a t _ => ?_) hd
  refine Realizes.bind (realizes_keepIf (fun _ _ => rfl) rfl hi a stack t) fun b u _ => ?_
  cases b with
  | true => exact .pure rfl
  | false => exact hy rfl stack u

theorem Scene.holds_not (S : Scene ω) (p : Position) (required : Bool) (x : Node) :
    (do Evaluator.holds (← S.node ⟨p, required, .not x⟩) : Eval ω Bool) =
      do return !(← Evaluator.holds (← S.node x)) := by
  show ((S.node x >>= fun a => Evaluator.holds a >>= fun b => pure (.bool !b)) >>=
    Evaluator.holds) = _
  simp only [bind_assoc, pure_bind]
  rfl

theorem Scene.realizes_condition (hc : S.Gives true (S.node c) S.code i m)
    (hi : S.code.Carries m (.wide .jumpFalse target)) (stack : List Value) (s : Store × ω) :
    S.Realizes S.fuel (S.point i stack s)
      ((do Evaluator.holds (← S.node c) : Eval ω Bool) s) fun b s =>
      S.point (if b then m + 1 else target) stack s := by
  refine Realizes.bind (hc rfl stack s) fun a t _ => ?_
  refine (realizes_jumpIf (fun _ _ => rfl) rfl hi a stack t).trail fun b u _ => ⟨0, ?_⟩
  cases b <;> rfl

/-- The same, where a `not` is left out and turns the jump around. -/
theorem Scene.realizes_test (hc : S.Gives true (S.node (test c).1) S.code i m)
    (hi : S.code.Carries m (.wide (test c).2 target)) (stack : List Value) (s : Store × ω) :
    S.Realizes S.fuel (S.point i stack s)
      ((do Evaluator.holds (← S.node c) : Eval ω Bool) s) fun b s =>
      S.point (if b then m + 1 else target) stack s := by
  obtain ⟨p, required, e⟩ := c
  cases e with
  | not x =>
    rw [holds_not]
    refine Realizes.bind (hc rfl stack s) fun a t _ => ?_
    refine Realizes.bind (realizes_jumpIf (fun _ _ => rfl) rfl hi a stack t) fun b u _ => .pure ?_
    cases b <;> rfl
  | _ => exact realizes_condition hc hi stack s

theorem Scene.expr_ifElse (S : Scene ω) (c pass : Node) (fail : Option Node) :
    S.expr r (.ifElse c pass fail) =
      (do Evaluator.holds (← S.node c)) >>= fun b => if b then S.node pass else S.branch fail := by
  rw [bind_assoc]
  rfl

theorem performs_elseBranch {o : Option Node} (hnone : o = none → r = true)
    (hsome : ∀ n, o = some n → S.Performs (node n) r (S.node n)) :
    S.Performs (elseBranch o) r (S.branch o) := by
  cases o with
  | some n => exact hsome n rfl
  | none =>
    obtain rfl := hnone rfl
    exact performs_null (r := true)

theorem performs_ifElse {pass : Node} {fail : Option Node}
    (hc : S.Performs (node (test c).1) true (S.node (test c).1))
    (hpass : S.Performs (node pass) r (S.node pass))
    (hfail : ∀ n, fail = some n → S.Performs (node n) r (S.node n)) :
    S.Performs (expr pos r (.ifElse c pass fail)) r (S.expr r (.ifElse c pass fail)) := by
  intro h
  rw [Lower.expr_ifElse, S.expr_ifElse]
  split
  · rename_i hnone
    simp only [Bool.and_eq_true, Option.isNone_iff_eq_none, Bool.not_eq_true'] at hnone
    obtain ⟨rfl, rfl⟩ := hnone
    refine (threads_junction _ (hc h) (hpass h)).imp ?_
    rintro P i j ⟨m, hc, ⟨_, hi, _⟩, hpass⟩ rfl stack s
    refine Realizes.bind (realizes_test hc hi stack s) fun b t _ => ?_
    cases b with
    | true => exact hpass rfl stack t
    | false => exact .pure rfl
  · rename_i hnone
    have hbranch : S.Performs (elseBranch fail) r (S.branch fail) := by
      refine performs_elseBranch ?_ hfail
      rintro rfl
      simpa using hnone
    refine (threads_either _ (hc h) (hpass h) (hbranch h)).imp ?_
    rintro P i j ⟨m, n, hc, ⟨_, hi, _⟩, hpass, ⟨_, hstop, _⟩, hfail⟩ rfl stack s
    refine Realizes.bind (realizes_test hc hi stack s) fun b t _ => ?_
    cases b with
    | true => exact (hpass rfl stack t).trail fun v u _ => ⟨1, after_jump hstop⟩
    | false => exact hfail rfl stack t

theorem Scene.realizes_repeating {test : Eval ω Bool} {body : Eval ω Unit} {stack : List Value}
    (htest : ∀ s, S.Realizes S.fuel (S.point i stack s) (test s) fun b s =>
      S.point (if b then m else target) stack s)
    (hbody : ∀ s, S.Realizes S.fuel (S.point m stack s) (body s) fun _ s => S.point n stack s)
    (hback : S.code.Carries n (.wide .jump i)) {k : Nat} (hk : k ≤ S.fuel) (s : Store × ω) :
    S.Realizes k (S.point i stack s) (Evaluator.repeating test body k s) fun _ s =>
      S.point target stack s := by
  induction k generalizing s with
  | zero => exact fun _ => rfl
  | succ k ih =>
    refine Realizes.bind ((htest s).mono hk) fun b t _ => ?_
    cases b with
    | false => exact .pure rfl
    | true =>
      refine Realizes.bind ((hbody t).mono hk) fun _ u _ => ?_
      -- the jump back is the move that the turn costs
      have hagain := (ih (Nat.le_of_succ_le hk) u).moves (after_jump hback)
      rw [Nat.add_comm] at hagain
      exact hagain

/-- The stack with the list for the values of the body, if they are wanted. -/
def Scene.below : Option ListId → List Value → List Value
  | some id, stack => .list id :: stack
  | none, stack => stack

/-- The code of a loop's body. -/
def Scene.Body (S : Scene ω) (r : Bool) (x : Eval ω Value) : Shape := fun P i j =>
  S.code = P → ∀ list : Option ListId, list.isSome = r → ∀ stack s,
    S.Realizes S.fuel (S.point i (below list stack) s)
      ((do Evaluator.collect list (← x) : Eval ω Unit) s) fun _ s =>
      S.point j (below list stack) s

theorem Scene.emits_newList (S : Scene ω) (r : Bool) {h : Nat} :
    Emits bare (whenRequired r (.list 0)) h (h + r.toNat) fun P i j => S.code = P → ∀ stack s,
      S.Realizes S.fuel (S.point i stack s) (Evaluator.newList? r s) fun list s =>
        S.point j (below list stack) s := by
  cases r with
  | false =>
    refine emits_pure.imp ?_
    rintro P i j rfl hP stack s
    exact .pure rfl
  | true =>
    refine (emits_single 0 1 (.wide .list 0)).imp ?_
    rintro P i j ⟨rfl, hi⟩ rfl stack s
    have hinsn : S.Realizes S.fuel (S.point i stack s)
      (Evaluator.act (Action.adding (·.addList #[])) s) fun id s =>
        S.point (i + 1) (.list id :: stack) s := by
      refine realizes_insn hi ?_
      show (Action.ofExcept ((S.frame (i + 1) ([].reverse ++ stack)).popN _) >>= _) = _
      rw [ofExcept_popN (Insn.c_pack rfl hi.fits), pure_bind]
      rfl
    exact hinsn.bind fun id t _ => .pure rfl

theorem Store.run_append {id : CallbackId} (hnative : (s.callback id).native = .method .listAppend)
    (host : Host) (list : ListId) (v : Value) : (s.callback id).run host (some (.list list)) [v] s =
      .ok (.value .null) (s.modifyList list (·.push v)) := by
  unfold Callback.run
  rw [hnative]
  rfl

theorem Store.readField_append (h : s.appendsLists = true) (list : ListId) :
    ∃ id, s.readField (.list list) "append" = .ok (.callback id) ∧ (s.callback id).native =
      .method .listAppend := by
  unfold appendsLists at h
  split at h
  · rename_i id hid
    refine ⟨id, ?_, by simpa using h⟩
    have hfield : s.field? (.list list) "append" = some (.callback id) := by
      show (s.type Kind.list.typeId).methods.get? "append" = some (.callback id)
      rw [hid]
    rw [readField, hfield]
  · cases h

theorem methodCall_list {list : ListId} {name : String} {f : Value}
    (hfield : s.readField (.list list) name = .ok f) (args : List Value) :
    methodCall (.list list) name args s = .ok (.call ⟨f, some (.list list), args, none⟩) s := by
  simp only [methodCall, Action.reading, Store.deref_of_plain s (v := .list list) (by simp), bind,
    EStateM.bind, hfield]
  rfl

theorem Scene.realizes_append (hn : S.code.constants[n]? = some (.str "append"))
    (hi : S.code.Carries m (.split .invokeMethod 1 n))
    (hpop : S.code.Carries (m + 1) (.simple .pop)) (id : ListId) (v : Value) (stack : List Value)
    (s : Store × ω) : S.Realizes S.fuel (S.point m (v :: .list id :: stack) s)
      (Evaluator.collect (some id) v s) fun _ s =>
      S.point (m + 2) stack s := by
  intro hlists
  have hnow : s.1.appendsLists = true := hlists 0
  obtain ⟨callback, hfield, hnative⟩ := Store.readField_append hnow id
  -- the method is looked up, then called, and then its result is dropped
  have hlookup : S.after 1 (S.point m (v :: .list id :: stack) s) =
    (.running ⟨s.1, [S.frame (m + 1) stack],
      some ⟨.callback callback, some (.list id), [v], none⟩, S.depth, S.limit⟩, s.2) := by
    have hop := operation_invokeMethod hn hi (show 1 = [v].length from rfl) (.list id) stack
    refine after_calling hi ((congrFun hop s.1).trans ?_)
    simp only [bind, EStateM.bind, methodCall_list hfield]
    rfl
  have hcall : S.after 1
    (.running ⟨s.1, [S.frame (m + 1) stack], some ⟨.callback callback, some (.list id), [v], none⟩,
      S.depth, S.limit⟩, s.2) =
      S.point (m + 1) (.null :: stack) (s.1.modifyList id (·.push v), s.2) := by
    show (Machine.enter S.host ⟨s.1, [S.frame (m + 1) stack], none, S.depth, S.limit⟩
      ⟨.callback callback, some (.list id), [v], none⟩, s.2) = _
    simp only [Machine.enter, Store.deref_of_plain s.1 (v := .callback callback) (by simp),
      Machine.callNative, Store.run_append hnative]
    rfl
  refine ⟨3, ?_⟩
  show S.after 1 (S.after 1 (S.after 1 (S.point m (v :: .list id :: stack) s))) = _
  rw [hlookup, hcall]
  exact after_silent hpop rfl

theorem performs_loopBody (hbody : S.Performs (node body) r (S.node body)) (h : Nat) :
    Emits bare (loopBody r (node body)) (h + r.toNat) (h + r.toNat) (S.Body r (S.node body)) := by
  cases r with
  | false =>
    refine (hbody h).imp ?_
    rintro P i j hbody hP list hlist stack s
    obtain rfl : list = none := by simpa using hlist
    exact Realizes.bind (hbody hP stack s) fun v t _ => .pure rfl
  | true =>
    refine ((emits_single 1 2 (.simple .dup)).seq ((hbody (h + 2)).seq
      ((emits_constant (.str "append") (.split .invokeMethod 1) 2 1).seq
        (emits_single 1 0 (.simple .pop))))).imp ?_
    rintro P i j ⟨m₁, ⟨rfl, hdup⟩, m₂, hbody, m₃, ⟨n, hn, rfl, hi⟩, rfl, hpop⟩ rfl
      list hlist stack s
    obtain ⟨id, rfl⟩ := Option.isSome_iff_exists.1 hlist
    refine Realizes.steps (after_silent hdup rfl) ?_
    refine Realizes.bind (hbody rfl (.list id :: .list id :: stack) s) fun v t _ => ?_
    exact realizes_append hn hi hpop id v (.list id :: stack) t

theorem Scene.isSome_of_newList? {list : Option ListId} {s t : Store × ω}
    (h : (Evaluator.newList? r : Eval ω (Option ListId)) s = .ok list t) : list.isSome = r := by
  cases r <;> cases h <;> rfl

theorem Scene.below_eq_keep {list : Option ListId} (hlist : list.isSome = r) (stack : List Value) :
    below list stack = keep r (Evaluator.collected list) stack := by
  subst hlist
  cases list <;> rfl

theorem performs_while (hc : S.Performs (node c) true (S.node c))
    (hbody : S.Performs (node body) r (S.node body)) :
    S.Performs (expr pos r (.whileElse c body none)) r (S.expr r (.whileElse c body none)) := by
  intro h
  rw [expr_whileElse_none]
  refine ((S.emits_newList r).seq
    (threads_looping (hc (h + r.toNat)) (performs_loopBody hbody h))).imp ?_
  rintro P i j ⟨i', hlist, m, n, hc, ⟨_, hexit, _⟩, hbody, ⟨_, hback, _⟩, rfl⟩ rfl stack s
  refine Realizes.bind (hlist rfl stack s) fun list t hnew => ?_
  have hsome := isSome_of_newList? hnew
  refine Realizes.bind (realizes_repeating (fun u => realizes_condition hc hexit _ u)
    (fun u => hbody rfl list hsome stack u) hback (Nat.le_refl _) t) fun _ u _ => .pure ?_
  rw [below_eq_keep hsome]

theorem Scene.expr_whileElse (S : Scene ω) (c body other : Node) :
    S.expr r (.whileElse c body (some other)) =
      (do Evaluator.holds (← S.node c)) >>= fun b => if b then (do
        let list ← Evaluator.newList? r
        (do Evaluator.collect list (← S.node body))
        Evaluator.repeating (do Evaluator.holds (← S.node c))
          (do Evaluator.collect list (← S.node body)) S.fuel
        return Evaluator.collected list) else S.node other := by
  simp only [bind_assoc]
  rfl

theorem performs_whileElse {other : Node} (hc : S.Performs (node c) true (S.node c))
    (hbody : S.Performs (node body) r (S.node body))
    (hother : S.Performs (node other) r (S.node other)) :
    S.Performs (expr pos r (.whileElse c body (some other))) r
      (S.expr r (.whileElse c body (some other))) := by
  intro h
  rw [expr_whileElse_some, S.expr_whileElse]
  refine (threads_loopingElse (hc h) (S.emits_newList r) (hc (h + r.toNat))
    (performs_loopBody hbody h) (hother h)).imp ?_
  rintro P i j ⟨m, a, c, d, hc, ⟨_, hskip, _⟩, hlist, ⟨_, hinto, _⟩, hc', ⟨_, hexit, _⟩, hbody,
    ⟨_, hback, _⟩, ⟨_, hstop, _⟩, hother⟩ rfl stack s
  refine Realizes.bind (realizes_condition hc hskip stack s) fun b t _ => ?_
  cases b with
  | false => exact hother rfl stack t
  | true =>
    refine Realizes.bind (hlist rfl stack t) fun list t hnew => ?_
    have hsome := isSome_of_newList? hnew
    -- the first turn starts in the middle of the loop
    refine Realizes.steps (after_jump hinto)
      (Realizes.bind (hbody rfl list hsome stack t) fun _ u _ => ?_)
    refine Realizes.steps (after_jump hback) ?_
    refine Realizes.bind (realizes_repeating (fun u => realizes_condition hc' hexit _ u)
      (fun u => hbody rfl list hsome stack u) hback (Nat.le_refl _) u) fun _ u _ => ?_
    refine Realizes.steps (after_jump hstop) (.pure ?_)
    rw [below_eq_keep hsome]

/-- The offset of the case that is meant. -/
def caseFor (table : Table MatchKey Nat) (key : Option MatchKey) : Option Nat :=
  (key.bind table.get?).or (table.get? .default)

theorem target?_eq_caseFor (t : JumpTable) (key : Option MatchKey) :
    t.target? key = caseFor t.cases key := by
  unfold JumpTable.target? caseFor
  cases key.bind t.cases.get? <;> rfl

/-- No value has the default's key. -/
theorem MatchKey.of?_ne_default (v : Value) : MatchKey.of? v ≠ some .default := by
  unfold MatchKey.of?
  split
  case h_4 => split <;> nofun
  all_goals nofun

theorem caseFor_orStop (table : Table MatchKey Nat) (stop : Nat) {key : Option MatchKey}
    (hkey : key ≠ some .default) :
    caseFor (orStop table stop) key = some ((caseFor table key).getD stop) := by
  unfold caseFor orStop Table.contains
  cases hdefault : table.get? .default with
  | some target =>
    rw [Option.isSome_some, if_pos rfl, hdefault]
    cases key.bind table.get? <;> rfl
  | none =>
    have hbind : key.bind (table.insert .default stop).get? = key.bind table.get? := by
      cases key with
      | none => rfl
      | some key =>
        rw [Option.bind_some, Option.bind_some, Table.get?_insert, if_neg]
        rintro rfl
        exact hkey rfl
    rw [Option.isSome_none, if_neg Bool.false_ne_true, hbind, Table.get?_insert, if_pos rfl]
    cases key.bind table.get? <;> rfl

section Arms

variable {cases : List (Arm Node)} {table table' : Table MatchKey Nat} {h k i j stop : Nat}
  {key : MatchKey}

theorem Lower.get?_of_arms {Ss : List Shape} {P : Prototype}
    (harms : Shape.Arms k stop P table cases Ss table' i j) (hkey : table.get? key = some target) :
    table'.get? key = some target := by
  induction harms with
  | nil => exact hkey
  | skip _ _ ih => exact ih hkey
  | @take table _ _ _ _ _ key' i _ _ _ hnew _ _ _ ih =>
    refine ih ?_
    rw [Table.get?_insert, if_neg, hkey]
    rintro rfl
    rw [Table.contains, hkey] at hnew
    cases hnew

/-- A key that has no entry yet gets the one of the first case with the key. -/
theorem Scene.rel_of_arms {Ss : List Shape}
    (harms : Shape.Arms k stop S.code table cases Ss table' i j)
    (hSs : Ss = cases.map fun a => S.Gives r (S.node a.body)) (hkey : table.get? key = none) :
    Option.Rel (fun y target => S.Gives r y S.code target stop) (S.arm cases key)
      (table'.get? key) := by
  induction harms with
  | nil =>
    rw [hkey]
    exact .none
  | @skip _ _ a as _ _ _ _ hfault _ ih =>
    have harm : S.arm (a :: as) key = S.arm as key := by
      refine if_neg fun hpattern => ?_
      have hold := hfault key hpattern
      rw [Table.contains, hkey] at hold
      cases hold
    rw [harm]
    exact ih (List.cons.inj hSs).2 hkey
  | @take table _ a as A _ key' i m _ hpattern hnew hbody hstop hrest ih =>
    obtain ⟨rfl, hrestSs⟩ := List.cons.inj hSs
    by_cases heq : key' = key
    · subst heq
      rw [get?_of_arms hrest (by rw [Table.get?_insert, if_pos rfl])]
      rw [show S.arm (a :: as) key' = some (S.node a.body) from if_pos hpattern]
      refine .some fun hP stack s => ?_
      exact (hbody hP stack s).trail fun v t _ => ⟨1, after_jump hstop.2.1⟩
    · rw [show S.arm (a :: as) key = S.arm as key from if_neg fun h =>
        heq (Option.some.inj (hpattern.symm.trans h))]
      refine ih hrestSs ?_
      rw [Table.get?_insert, if_neg heq, hkey]

end Arms

theorem Scene.rel_caseFor {cases : List (Arm Node)} {table : Table MatchKey Nat}
    {R : Eval ω Value → Nat → Prop} (h : ∀ key, Option.Rel R (S.arm cases key) (table.get? key))
    (key : Option MatchKey) :
    Option.Rel R ((key.bind (S.arm cases)).or (S.arm cases .default)) (caseFor table key) := by
  have hdefault := h .default
  cases key with
  | none => exact hdefault
  | some key =>
    rw [caseFor, Option.bind_some, Option.bind_some]
    have hkey := h key
    revert hkey
    generalize S.arm cases key = y
    generalize table.get? key = target
    intro hkey
    cases hkey with
    | some hR => exact .some hR
    | none => exact hdefault

theorem Scene.realizes_matchOn {index stop : Nat} {table : Table MatchKey Nat}
    (hi : S.code.Carries m (.wide .matchOn index))
    (htable : S.code.tables[index]? = some ⟨orStop table stop⟩) (v : Value) (stack : List Value)
    (s : Store × ω) : S.Realizes S.fuel (S.point m (v :: stack) s) (Evaluator.follow v s) fun u s =>
      S.point ((caseFor table (MatchKey.of? u)).getD stop) stack s := by
  refine realizes_insn hi ?_
  show (Exec.popPlain (S.frame (m + 1) (v :: stack)) >>= _) = _
  rw [popPlain_frame, bind_assoc]
  congr 1
  funext u
  have htarget : ((S.frame (m + 1) stack).prototype.tables[(Insn.wide .matchOn index).pack.c]?.bind
      (·.target? (MatchKey.of? u))) = some ((caseFor table (MatchKey.of? u)).getD stop) := by
    rw [Insn.c_pack rfl hi.fits]
    show (S.code.tables[index]?.bind _) = _
    rw [htable, Option.bind_some, target?_eq_caseFor,
      caseFor_orStop table stop (MatchKey.of?_ne_default u)]
  rw [pure_bind]
  simp only [htarget]
  rfl

theorem performs_matchCases {scrutinee : Node} {cases : List (Arm Node)}
    (hx : S.Performs (node scrutinee) true (S.node scrutinee))
    (hbody : ∀ a ∈ cases, S.Performs (node a.body) r (S.node a.body)) :
    S.Performs (expr pos r (.matchCases scrutinee cases)) r
      (S.expr r (.matchCases scrutinee cases)) := by
  intro h
  refine (threads_matching pos r scrutinee cases (hx h)
    (threadsArms_of_emits (S := fun n => S.Gives r (S.node n)) (fun a ha => hbody a ha h)
      .empty)).imp ?_
  rintro P i j ⟨m, index, table, a, hx, ⟨_, hi, _⟩, harms, hend⟩ rfl stack s
  -- where no case is meant, the table leads to code that gives null
  have hdefault : ∃ d, S.code.tables[index]? = some ⟨orStop table d⟩ ∧
      (table.get? .default = none → S.Gives r (pure .null) S.code d j) := by
    split at hend
    · rename_i hquiet
      refine ⟨j, hend.2, fun hnone hP stack s => ?_⟩
      rw [Table.contains, hnone] at hquiet
      obtain rfl : r = false := by simpa using hquiet
      exact .pure rfl
    · rename_i hloud
      obtain ⟨hnone, rfl⟩ : table.contains .default = false ∧ r = true := by simpa using hloud
      obtain ⟨⟨rfl, hpush, _⟩, htable⟩ := hend
      refine ⟨a, ?_, fun _ hP stack s => .steps (after_silent hpush rfl) (.pure rfl)⟩
      rw [htable, orStop, hnone, if_neg Bool.false_ne_true]
  obtain ⟨d, htable, hnull⟩ := hdefault
  refine Realizes.bind (hx rfl stack s) fun v t _ => ?_
  refine Realizes.bind (realizes_matchOn hi htable v stack t) fun u t' _ => ?_
  have hrel := rel_caseFor (fun key => rel_of_arms harms rfl rfl) (MatchKey.of? u)
  generalize hcase : caseFor table (MatchKey.of? u) = target at hrel
  generalize ((MatchKey.of? u).bind (S.arm cases)).or (S.arm cases .default) = meant at hrel
  cases hrel with
  | some hgives => exact hgives rfl stack t'
  | none => exact hnull (Option.or_eq_none_iff.1 hcase).2 rfl stack t'

theorem performs_ret {o : Option Node}
    (ho : ∀ n, o = some n → S.Performs (node n) true (S.node n)) :
    S.Performs (expr pos r (.ret o)) r (S.expr r (.ret o)) := by
  intro h
  rw [expr]
  refine (threads_ret r (performs_elseBranch (fun _ => rfl) ho h)).imp ?_
  rintro P i j ⟨m, ho, ⟨_, hi, _⟩⟩ rfl stack s
  refine Realizes.bind (ho rfl stack s) fun v t _ => ?_
  exact fun _ => ⟨1, after_silent hi rfl⟩

theorem Scene.Performs.andThen {a b : LowerM Unit} {u v : Eval ω Value} (ha : S.Performs a false u)
    (hb : S.Performs b r v) : S.Performs (do a; b) r (do let _ ← u; v) := by
  intro h
  refine ((ha h).seq (hb h)).imp ?_
  rintro P i j ⟨m, ha, hb⟩ rfl stack s
  exact Realizes.bind (ha rfl stack s) fun _ t _ => hb rfl stack t

theorem performs_block {items : List Node}
    (hitems : ∀ n ∈ items, ∀ r, Marks r n → S.Performs (node n) r (S.node n))
    (hm : MarksBlock r items) : S.Performs (nodes items) (r && !items.isEmpty) (S.block items) := by
  induction items with
  | nil =>
    rw [List.isEmpty_nil, Bool.not_true, Bool.and_false, nodes]
    exact performs_pure
  | cons n items ih =>
    have hn := hitems n List.mem_cons_self _ hm.1
    have hrest := ih (fun m hmem => hitems m (List.mem_cons_of_mem n hmem)) hm.2
    rw [List.isEmpty_cons, Bool.not_false, Bool.and_true, nodes]
    cases items with
    | nil =>
      rw [List.isEmpty_nil, Bool.and_true] at hn
      rw [nodes, bind_pure_unit]
      exact hn
    | cons m items =>
      rw [List.isEmpty_cons, Bool.and_false] at hn
      rw [List.isEmpty_cons, Bool.not_false, Bool.and_true] at hrest
      exact hn.andThen hrest

theorem performs_scope {items : List Node}
    (hitems : ∀ n ∈ items, ∀ r, Marks r n → S.Performs (node n) r (S.node n))
    (hm : MarksBlock r items) :
    S.Performs (expr pos r (.scope items)) r (S.expr r (.scope items)) := by
  have hblock := performs_block hitems hm
  have hwhole : S.Performs (do nodes items; if items.isEmpty then whenRequired r .null) r
      (S.block items) := by
    cases items with
    | nil =>
      rw [List.isEmpty_nil, Bool.not_true, Bool.and_false] at hblock
      exact hblock.andThen performs_null
    | cons n items =>
      rw [List.isEmpty_cons, Bool.not_false, Bool.and_true] at hblock
      rw [List.isEmpty_cons, if_neg Bool.false_ne_true, bind_pure_unit]
      exact hblock
  intro h
  rw [expr_scope]
  -- no name is in scope, so there is nothing to close
  have hclose : ∀ s base scopes, bare.holds s → s.builder.scopes = base :: scopes →
      bare.holds { s with builder := popScope s.builder base scopes } := by
    rintro s base scopes ⟨he, hp, ha⟩ _
    exact ⟨he, hp, by rw [popScope, ha, List.take_nil]⟩
  refine (threads_scope (J := bare) (fun s hs => hs) hclose (hwhole h)).imp ?_
  rintro P i j ⟨s, base, hs, _, hall⟩
  rw [hs.2.2, List.drop_nil, if_neg (by simp)] at hall
  exact hall

theorem performs_expr {e : Expr Node} (hcovered : e.covered = true)
    (ih : ∀ n ∈ parts e, ∀ r, Marks r n → S.Performs (node n) r (S.node n)) (hm : MarksExpr r e) :
    S.Performs (expr pos r e) r (S.expr r e) := by
  cases e with
  | null => exact performs_null
  | bool b => exact performs_bool b
  | int i => exact performs_int i
  | float d => exact performs_float d
  | str s => exact performs_str s
  | identifier name => exact performs_identifier name
  | prefixOp op x => exact performs_prefixOp (ih x (by simp [parts]) true hm)
  | infixOp op x y =>
    exact performs_infixOp (ih x (by simp [parts]) true hm.1) (ih y (by simp [parts]) true hm.2)
  | and x y =>
    exact performs_and (ih x (by simp [parts]) true hm.1) (ih y (by simp [parts]) true hm.2)
  | or x y =>
    exact performs_or (ih x (by simp [parts]) true hm.1) (ih y (by simp [parts]) true hm.2)
  | not x => exact performs_not (ih x (by simp [parts]) true hm)
  | scope items => exact performs_scope ih hm
  | assign t v =>
    obtain ⟨p, r', e⟩ := t
    cases e with
    | identifier name => exact performs_assign (ih v (by simp [parts]) true hm.2)
    | _ => cases hcovered
  | compoundAssign op t v =>
    obtain ⟨p, r', e⟩ := t
    cases e with
    | identifier name => exact performs_compoundAssign (ih v (by simp [parts]) true hm.2)
    | _ => cases hcovered
  | invoke t args =>
    refine performs_invoke (fun n hn => ?_) (ih t (by simp [parts]) true hm.1) fun n hn => ?_
    · exact ih n (by simp [parts, hn]) true (hm.1.target.operands n hn)
    · exact ih n (by simp [parts, hn]) true (hm.2.of_mem n hn)
  | index t k =>
    exact performs_index (ih t (by simp [parts]) true hm.1) (ih k (by simp [parts]) true hm.2)
  | field t name => exact performs_field (ih t (by simp [parts]) true hm)
  | ifElse c p f =>
    obtain ⟨hc, hp, hf⟩ := hm
    refine performs_ifElse (ih _ ?_ true (marks_test hc)) (ih p (by simp [parts]) r hp) ?_
    · have hmem := test_mem c
      simp only [parts, List.mem_cons, List.mem_append] at hmem ⊢
      exact hmem.imp id fun hn => .inr (.inl hn)
    · rintro n rfl
      exact ih n (by simp [parts]) r hf
  | whileElse c b o =>
    obtain ⟨hc, hb, ho⟩ := hm
    have hc := ih c (by simp [parts]) true hc
    have hb := ih b (by simp [parts]) r hb
    cases o with
    | none => exact performs_while hc hb
    | some n => exact performs_whileElse hc hb (ih n (by simp [parts]) r ho)
  | matchCases x cases =>
    refine performs_matchCases (ih x (by simp [parts]) true hm.1) fun a ha => ?_
    exact ih a.body (List.mem_cons_of_mem _ (List.mem_map_of_mem ha)) r (hm.2.of_mem a ha)
  | list items => exact performs_list fun n hn => ih n hn true (MarksAll.of_mem hm n hn)
  | tuple items => exact performs_tuple fun n hn => ih n hn true (MarksAll.of_mem hm n hn)
  | ret x =>
    refine performs_ret ?_
    rintro n rfl
    exact ih n (by simp [parts]) true hm
  | this | varDef | fnDef | fn | typeDef | ref | deref => cases hcovered

theorem performs_node (n : Node) (hn : n.plain = true) :
    ∀ r, Marks r n → S.Performs (node n) r (S.node n) := by
  induction n using Node.induction_parts with
  | step n ih =>
    obtain ⟨pos, r', e⟩ := n
    rw [Node.plain_eq, Bool.and_eq_true, List.all_eq_true] at hn
    rintro r ⟨rfl, hm⟩ h
    refine ((emits_setLine pos.line).seq
      (performs_expr hn.1 (fun m hmem => ih m hmem (hn.2 m hmem)) hm h)).imp ?_
    rintro P i j ⟨_, rfl, hall⟩
    exact hall

end Branching
end Refscript
