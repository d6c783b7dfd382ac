import Refscript.Proofs.Code.Functions
import Refscript.Proofs.Syntax.Marking

/-!
# Refscript.Proofs.Code.Placement

Where the code of the parts of a program is. Unless there was an error, every part of a construct is
lowered, in the function that it belongs to, to a piece of code of its own.

* `Lower.Laid n P i j`: the function `P` has the code of `n` from `i` up to `j`.
* `Node.Own` and `Node.Inner`: the parts of a construct in the same function, and those in functions
  inside it.
* `Lower.Lays xs bs x h h'`: the step `x` lays the code of the parts `xs` and of the bodies of
  functions `bs`. The rules are those of the steps that lowering is made of.
* `Lower.Lays.node`: what lays the parts of a node lays the node.
-/

namespace Refscript

open Lower (matchKey? test)

variable {s t : Lower.State} {cases : List (Arm Node)} {n x y : Node} {P p : Prototype}
  {e : Expr Node} {ws bs xs : List Node} {A : Lower.Shape} {f : Function Node} {h h' : Nat}

/-- The parts of an expression that are lowered in the same function. -/
def lowered : Expr Node → List Node
  | .fnDef _ _ | .fn _ | .typeDef _ => []
  | .assign t v | .compoundAssign _ t v => operands t.expr ++ [v]
  | .invoke ⟨_, _, .field x _⟩ args => x :: args
  | .invoke t args => t :: args
  | .ifElse c p f => (test c).1 :: p :: f.toList
  | e => parts e

/-- The bodies of the functions that an expression creates. -/
def bodies : Expr Node → List Node
  | .fnDef _ f | .fn f => [f.body]
  | .typeDef t => t.bodies
  | _ => []

/-- All cases have a key, which is not taken and not the key of an earlier case. -/
def Keyed : List MatchKey → List (Arm Node) → Prop
  | _, [] => True
  | taken, a :: as => ∃ key, matchKey? a.pattern = some key ∧ key ∉ taken ∧ Keyed (key :: taken) as

/-- Nothing in the expression is left out because it is at fault. -/
def Complete : Expr Node → Prop
  | .matchCases _ cases => Keyed [] cases
  | .ref ⟨_, _, .deref _⟩ => False
  | _ => True

namespace Node

/-- `y` is `n` or a part of it in the same function. -/
inductive Own (y : Node) : Node → Prop where
  | self : Own y y
  | part {n x : Node} : x ∈ lowered n.expr → Own y x → Own y n

/-- `y` is in a function inside `n`. -/
inductive Inner (y : Node) : Node → Prop where
  | body {n b : Node} : b ∈ bodies n.expr → Own y b → Inner y n
  | deeper {n b : Node} : b ∈ bodies n.expr → Inner y b → Inner y n
  | part {n x : Node} : x ∈ lowered n.expr → Inner y x → Inner y n

/-- Nothing in the node is left out, at any depth. -/
def Whole (n : Node) : Prop :=
  ∀ y, Own y n ∨ Inner y n → Complete y.expr

theorem Whole.part (h : n.Whole) (hx : x ∈ lowered n.expr) : x.Whole :=
  fun y hy => h y (hy.imp (.part hx) (.part hx))

theorem Whole.of_parts (hn : Complete n.expr) (hparts : ∀ x ∈ lowered n.expr, x.Whole)
    (hbodies : ∀ b ∈ bodies n.expr, b.Whole) : n.Whole := by
  rintro y (hy | hy)
  · cases hy with
    | self => exact hn
    | part hx hy => exact hparts _ hx y (.inl hy)
  · cases hy with
    | body hb hy => exact hbodies _ hb y (.inl hy)
    | deeper hb hy => exact hbodies _ hb y (.inr hy)
    | part hx hy => exact hparts _ hx y (.inr hy)

end Node

namespace Lower

open Builder (Finishes)
open Marking
open Node (Own Inner Whole)

/-- The function has the code of the node from `i` up to `j`. -/
def Laid (n : Node) : Shape := fun P i j =>
  ∃ s t : State, s.Sane ∧ node n s = .ok () t ∧ Finishes [] s.builder.mark t.builder P ∧
    s.builder.position = i ∧ t.builder.position = j

/-- The code of the node is in the function or in one inside it. -/
def Housed (y : Node) (P : Prototype) : Prop :=
  ∃ Q i j, Prototype.Inside Q P ∧ Laid y Q i j

theorem Housed.nested {q : Prototype} (h : Housed y q) (hq : q ∈ P.nested) : Housed y P := by
  obtain ⟨Q, i, j, hQ, hlaid⟩ := h
  exact ⟨Q, i, j, .nested hq hQ, hlaid⟩

theorem threads_laid {I J : Invariant} (hx : Threads I J (node x) h h' A) :
    Threads I J (node x) h h' (Laid x) := by
  intro s hs hI hh
  obtain ⟨_, t, hrun, ht⟩ := hx s hs hI hh
  exact ⟨(), t, hrun, { ht with code := fun P hP => ⟨s, t, hs, hrun, hP, rfl, rfl⟩ }⟩

theorem Laid.shape {pos : Position} {r : Bool} {A : Nat → Shape} {i j : Nat}
    (h : Laid ⟨pos, r, e⟩ P i j) (hA : ∀ h, Emits anything (expr pos r e) h (h + r.toNat) (A h)) :
    ∃ h, A h P i j := by
  obtain ⟨s, t, hs, hrun, hfinish, rfl, rfl⟩ := h
  have hemits := (emits_setLine (I := anything) pos.line).seq (hA s.builder.height)
  obtain ⟨_, t', hrun', ht⟩ := hemits s hs trivial rfl
  have hsame : node ⟨pos, r, e⟩ s = .ok () t' := hrun'
  rw [hrun] at hsame
  cases hsame
  obtain ⟨m, rfl, hcode⟩ := ht.code P hfinish
  exact ⟨_, hcode⟩

theorem clean_earlier {ds ds' : List Diagnostic} (h : ds <+: ds') (hclean : errorCount ds' = 0) :
    errorCount ds = 0 :=
  Nat.le_zero.1 (hclean ▸ h.sublist.countP_le)

/-- Unless there was an error, nothing is left out of the parts `xs` and the bodies `bs`, and the
code of all that is in functions inside them is there. -/
def manifest (xs bs : List Node) : Invariant where
  holds s := errorCount s.diagnostics = 0 → (∀ x ∈ xs ++ bs, x.Whole) ∧
    ∀ y, (∃ x ∈ xs, Inner y x) ∨ (∃ b ∈ bs, Own y b ∨ Inner y b) →
      ∃ q ∈ s.builder.nested, Housed y q
  inert := by
    intro s t _ hds hbindings hs hclean
    have hnested : t.builder.nested = s.builder.nested := congrArg (·.2.2.2.2) hbindings
    rw [hnested]
    exact hs (clean_earlier hds hclean)

theorem manifest_lasts : (manifest xs bs).Lasts := by
  intro s t h hs hclean
  obtain ⟨hwhole, hdeep⟩ := hs (clean_earlier h.diagnostics hclean)
  refine ⟨hwhole, fun y hy => ?_⟩
  obtain ⟨q, hq, hy⟩ := hdeep y hy
  exact ⟨q, h.keeps.nested.subset hq, hy⟩

/-- If nothing is left out of the parts, the code of all that is in them is in the function. -/
def Shows (xs : List Node) (P : Prototype) : Prop :=
  (∀ x ∈ xs, x.Whole) → ∀ x ∈ xs, ∀ y, Own y x → ∃ i j, Laid y P i j

theorem shows_nil (P : Prototype) : Shows [] P :=
  fun _ _ hx => (List.not_mem_nil hx).elim

theorem Shows.append {ys : List Node} (hx : Shows xs P) (hy : Shows ys P) : Shows (xs ++ ys) P := by
  intro hwhole x hmem
  rcases List.mem_append.1 hmem with hmem | hmem
  · exact hx (fun z hz => hwhole z (List.mem_append_left _ hz)) x hmem
  · exact hy (fun z hz => hwhole z (List.mem_append_right _ hz)) x hmem

/-- The step lays the code of the parts `xs` and of the bodies `bs` of functions. -/
def Lays (xs bs : List Node) (x : LowerM Unit) (h h' : Nat) : Prop :=
  ∀ ws cs, Threads (manifest ws cs) (manifest (ws ++ xs) (cs ++ bs)) x h h' fun P _ _ => Shows xs P

section Rules

variable {x y z w : LowerM Unit} {h h' k : Nat} {xs ys zs us bs cs ds es : List Node}

theorem lays_none (hx : Balances x h h') : Lays [] [] x h h' := by
  intro ws cs s hs hI hh
  refine (hx.emits s hs trivial hh).imp fun _ t ht => ?_
  rw [List.append_nil, List.append_nil]
  exact { ht with holds := manifest_lasts ht.leads hI, code := fun P _ => shows_nil P }

theorem Lays.seq (hx : Lays xs bs x h k) (hy : Lays ys cs y k h') :
    Lays (xs ++ ys) (bs ++ cs) (x >>= fun _ => y) h h' := by
  intro ws vs
  have hseq := (hx ws vs).seq (hy _ _)
  rw [List.append_assoc, List.append_assoc] at hseq
  refine hseq.imp ?_
  rintro P _ _ ⟨_, hxs, hys⟩
  exact hxs.append hys

theorem Lays.of_mem_iff (hx : Lays xs bs x h h') (hxs : ∀ n, n ∈ xs ↔ n ∈ ys) :
    Lays ys bs x h h' := by
  intro ws cs s hs hI hh
  refine (hx ws cs s hs hI hh).imp fun _ t ht =>
    { ht with holds := fun hclean => ?_, code := fun P hP => ?_ }
  · have hall := ht.holds hclean
    simp only [List.mem_append, hxs] at hall ⊢
    exact hall
  · have hcode := ht.code P hP
    simp only [Shows, hxs] at hcode ⊢
    exact hcode

theorem Lays.junction (op : Opcode) (hx : Lays xs bs x h (h + 1)) (hy : Lays ys cs y h k) :
    Lays (xs ++ ys) (bs ++ cs) (junction x op y) h k := by
  intro ws vs
  have hjunction := threads_junction op (hx ws vs) (hy _ _)
  rw [List.append_assoc, List.append_assoc] at hjunction
  refine hjunction.imp ?_
  rintro P _ _ ⟨_, hxs, _, hys⟩
  exact hxs.append hys

theorem Lays.either (op : Opcode) (hx : Lays xs bs x h (h + 1)) (hy : Lays ys cs y h k)
    (hz : Lays zs ds z h k) : Lays (xs ++ ys ++ zs) (bs ++ cs ++ ds) (either x op y z) h k := by
  intro ws vs
  have heither := threads_either op (hx ws vs) (hy _ _) (hz _ _)
  simp only [List.append_assoc] at heither ⊢
  refine heither.imp ?_
  rintro P _ _ ⟨_, _, hxs, _, hys, _, hzs⟩
  exact hxs.append (hys.append hzs)

theorem Lays.looping (hx : Lays xs bs x h (h + 1)) (hy : Lays ys cs y h h) :
    Lays (xs ++ ys) (bs ++ cs) (looping x y) h h := by
  intro ws vs
  have hloop := threads_looping (hx ws vs) (hy _ _)
  rw [List.append_assoc, List.append_assoc] at hloop
  refine hloop.imp ?_
  rintro P _ _ ⟨_, _, hxs, _, hys, _⟩
  exact hxs.append hys

theorem Lays.loopingElse (hx : Lays xs bs x h (h + 1)) (hw : Lays us es w h k)
    (hx' : Lays xs bs x k (k + 1)) (hy : Lays ys cs y k k) (hz : Lays zs ds z h k) :
    Lays (xs ++ us ++ xs ++ ys ++ zs) (bs ++ es ++ bs ++ cs ++ ds) (loopingElse x w y z) h k := by
  intro ws vs
  have hloop := threads_loopingElse (hx ws vs) (hw _ _) (hx' _ _) (hy _ _) (hz _ _)
  simp only [List.append_assoc] at hloop ⊢
  refine hloop.imp ?_
  rintro P _ _ ⟨_, _, _, _, hxs, _, hus, _, _, _, hys, _, _, hzs⟩
  exact hxs.append (hus.append (hxs.append (hys.append hzs)))

theorem Lays.ret (required : Bool) (hx : Lays xs bs x h (h + 1)) :
    Lays xs bs (do x; build .ret; if required
      then build (.setHeight ((← get).builder.height + 1)) else return)
      h (h + required.toNat) := by
  intro ws vs
  refine (threads_ret required (hx ws vs)).imp ?_
  rintro P _ _ ⟨_, hxs, _⟩
  exact hxs

theorem Lays.scope (hx : Lays xs bs x h k) :
    Lays xs bs (do build .startScope; x; build .endScope) h k := by
  intro ws vs
  have hscope :=
    threads_scope (I := manifest ws vs) (J := manifest ws vs) (K := manifest (ws ++ xs) (vs ++ bs))
    (L := manifest (ws ++ xs) (vs ++ bs)) (fun s hs => hs) (fun s _ _ hs _ => hs) (hx ws vs)
  refine hscope.imp ?_
  rintro P _ _ ⟨s, base, _, _, hcode⟩
  split at hcode
  · obtain ⟨_, _, hxs, _⟩ := hcode
    exact hxs
  · exact hcode

end Rules

theorem Lays.emit {x y : LowerM Unit} {k : Nat} (hx : Lays xs bs x h k) (hy : Balances y k h') :
    Lays xs bs (x >>= fun _ => y) h h' := by
  have hseq := hx.seq (lays_none hy)
  rw [List.append_nil, List.append_nil] at hseq
  exact hseq

theorem Lays.after {x y : LowerM Unit} {k : Nat} (hx : Lays xs bs x k h') (hy : Balances y h k) :
    Lays xs bs (y >>= fun _ => x) h h' :=
  (lays_none hy).seq hx

section Constructs

variable {h k : Nat} {pos : Position} {r : Bool} {x : Node} {cs xs : List Node} {y : LowerM Unit}

theorem contains_empty (key : MatchKey) :
    (Table.empty : Table MatchKey Nat).contains key = true ↔ key ∈ [] := by
  simp [Table.contains, Table.get?, Table.get?.go, Table.empty]

theorem threadsArms_lays (hcases : ∀ a ∈ cases, Lays [a.body] [] (node a.body) h k)
    (ws cs : List Node) (table : Table MatchKey Nat) :
    ThreadsArms h k (manifest ws cs) (manifest (ws ++ cases.map Arm.body) cs) table cases
      (cases.map fun a => fun P _ _ => Shows [a.body] P) := by
  induction cases generalizing ws table with
  | nil =>
    rw [List.map_nil, List.append_nil]
    exact .nil
  | cons a as ih =>
    have ih := ih (fun b hb => hcases b (List.mem_cons_of_mem _ hb)) (ws ++ [a.body])
    rw [List.append_assoc] at ih
    -- a case at fault is reported, and then there is nothing to be shown
    have hreport : ∀ (s : State) (d : Diagnostic), d.isError = true → (manifest ws cs).holds s →
        (manifest (ws ++ [a.body]) cs).holds { s with diagnostics := s.diagnostics ++ [d] } := by
      intro s d herror _ hclean
      have hcount := List.countP_eq_zero.1 hclean d (by simp)
      exact absurd herror hcount
    cases hkey : matchKey? a.pattern with
    | none => exact .fault (by simp [hkey]) hreport (ih table)
    | some key =>
      cases hcontains : table.contains key with
      | true => exact .fault (by simp [hkey, hcontains]) hreport (ih table)
      | false =>
        have hbody := hcases a List.mem_cons_self ws cs
        rw [List.append_nil] at hbody
        exact .take hkey hcontains hbody fun i => ih _

/-- If all cases have keys of their own, none of them is skipped. -/
theorem Shape.Arms.shows {stop i j : Nat} {table table' : Table MatchKey Nat}
    {taken : List MatchKey}
    (h : Arms k stop P table cases (cases.map fun a => fun P _ _ => Shows [a.body] P) table' i j)
    (hkeyed : Keyed taken cases) (hkeys : ∀ key, table.contains key = true ↔ key ∈ taken) :
    Shows (cases.map Arm.body) P := by
  induction cases generalizing table taken i with
  | nil => exact shows_nil P
  | cons a as ih =>
    obtain ⟨key, hkey, hnot, hkeyed⟩ := hkeyed
    cases h with
    | skip hfault _ => exact absurd ((hkeys key).1 (hfault key hkey)) hnot
    | take hkey' _ hbody _ has =>
      cases hkey.symm.trans hkey'
      have hrest := ih has hkeyed fun key' => by rw [Table.contains_insert, List.mem_cons, hkeys]
      exact hbody.append hrest

theorem lays_matchCases (hkeyed : Keyed [] cases) (hx : Lays [x] [] (node x) h (h + 1))
    (hcases : ∀ a ∈ cases, Lays [a.body] [] (node a.body) h (h + r.toNat)) :
    Lays (x :: cases.map Arm.body) [] (expr pos r (.matchCases x cases)) h (h + r.toNat) := by
  intro ws cs
  have hscrutinee := hx ws cs
  rw [List.append_nil] at hscrutinee ⊢
  have hmatch :=
    threads_matching pos r x cases hscrutinee (threadsArms_lays hcases (ws ++ [x]) cs .empty)
  rw [List.append_assoc] at hmatch
  refine hmatch.imp ?_
  rintro P _ _ ⟨_, _, _, _, hxs, _, harms, _⟩
  exact hxs.append (harms.shows hkeyed contains_empty)

/-- There was an error. -/
def unclean : Invariant where
  holds s := errorCount s.diagnostics ≠ 0
  inert := fun _ hds _ hs hclean => hs (clean_earlier hds hclean)

theorem unclean_report {d : Diagnostic} (hd : d.isError = true) :
    unclean.holds { s with diagnostics := s.diagnostics ++ [d] } :=
  fun hclean => absurd hd (List.countP_eq_zero.1 hclean d (by simp))

theorem emits_unclean {x : LowerM Unit} {h' : Nat} (hx : Emits anything x h h' A) :
    Emits unclean x h h' A :=
  fun s hs hI hh => (hx s hs trivial hh).imp fun _ _ ht =>
    { ht with holds := fun hclean => hI (clean_earlier ht.leads.diagnostics hclean) }

/-- Of cases without keys of their own, one is reported. -/
theorem threadsArms_unclean {taken : List MatchKey} (hkeyed : ¬Keyed taken cases)
    (hcases : ∀ a ∈ cases, Balances (node a.body) h k) (table : Table MatchKey Nat)
    (hkeys : ∀ key, table.contains key = true ↔ key ∈ taken) :
    ThreadsArms h k anything unclean table cases (cases.map fun _ => Balanced h k) := by
  induction cases generalizing table taken with
  | nil => exact absurd trivial hkeyed
  | cons a as ih =>
    obtain ⟨hbody, hrest⟩ := List.forall_mem_cons.1 hcases
    have hfault : (∀ key, matchKey? a.pattern = some key → table.contains key = true) →
        ThreadsArms h k anything unclean table (a :: as) ((a :: as).map fun _ => Balanced h k) :=
          fun hfault =>
      .fault hfault (fun _ _ hd _ => unclean_report hd)
        (threadsArms_of_emits (S := fun _ => Balanced h k)
          (fun b hb => emits_unclean (hrest b hb).emits) table)
    cases hkey : matchKey? a.pattern with
    | none => exact hfault (by simp [hkey])
    | some key =>
      cases hcontains : table.contains key with
      | true => exact hfault (by simp [hkey, hcontains])
      | false =>
        have hnot : key ∉ taken := fun hmem => by simp [(hkeys key).2 hmem] at hcontains
        have hkeyed' : ¬Keyed (key :: taken) as := fun h => hkeyed ⟨key, hkey, hnot, h⟩
        exact .take hkey hcontains hbody.emits fun i => ih hkeyed' hrest _ fun key' => by
          rw [Table.contains_insert, List.mem_cons, hkeys]

theorem threads_unclean_matchCases (pos : Position) (hkeyed : ¬Keyed [] cases)
    (hx : Balances (node x) h (h + 1))
    (hcases : ∀ a ∈ cases, Balances (node a.body) h (h + r.toNat)) :
    ∃ A, Threads anything unclean (expr pos r (.matchCases x cases)) h (h + r.toNat) A :=
  ⟨_, threads_matching pos r x cases hx.emits
    (threadsArms_unclean hkeyed hcases .empty contains_empty)⟩

theorem threads_unclean_report (p : Position) (problem : Problem)
    (herror : Diagnostic.isError ⟨p, problem⟩ = true) (hy : Balances y h k) :
    ∃ A, Threads anything unclean (report p problem >>= fun _ => y) h k A := by
  have hreport : Threads anything unclean (report p problem) h h Shape.none := by
    intro s hs _ hh
    rw [yields_report]
    have hstep := Step.report (I := anything) hs trivial hh ⟨p, problem⟩
    exact { hstep with holds := unclean_report herror }
  exact ⟨_, hreport.seq (emits_unclean hy.emits)⟩

theorem Lays.node (he : Complete e) (hx : Lays (lowered e) (bodies e) (node ⟨pos, r, e⟩) h k) :
    Lays [⟨pos, r, e⟩] [] (node ⟨pos, r, e⟩) h k := by
  intro ws cs s hs hI hh
  obtain ⟨_, t, hrun, ht⟩ := hx ws cs s hs hI hh
  refine ⟨(), t, hrun,
    { ht with holds := fun hclean => ?_, code := fun P hP hwhole n hn y hy => ?_ }⟩
  · obtain ⟨hwhole, hdeep⟩ := ht.holds hclean
    have hnode : Whole ⟨pos, r, e⟩ :=
      .of_parts he (fun x hx => hwhole x (by simp [hx])) fun b hb => hwhole b (by simp [hb])
    refine ⟨fun x hx => ?_, fun y hy => hdeep y ?_⟩
    · simp only [List.append_nil, List.mem_append, List.mem_singleton] at hx
      rcases hx with (hx | rfl) | hx
      · exact hwhole x (by simp [hx])
      · exact hnode
      · exact hwhole x (by simp [hx])
    · rw [List.append_nil] at hy
      rcases hy with ⟨x, hx, hy⟩ | ⟨b, hb, hy⟩
      · rcases List.mem_append.1 hx with hx | hx
        · exact .inl ⟨x, List.mem_append_left _ hx, hy⟩
        · cases List.mem_singleton.1 hx
          cases hy with
          | body hb hy => exact .inr ⟨_, List.mem_append_right _ hb, .inl hy⟩
          | deeper hb hy => exact .inr ⟨_, List.mem_append_right _ hb, .inr hy⟩
          | part hx hy => exact .inl ⟨_, List.mem_append_right _ hx, hy⟩
      · exact .inr ⟨b, List.mem_append_left _ hb, hy⟩
  · cases List.mem_singleton.1 hn
    have hwhole := hwhole _ hn
    cases hy with
    | self => exact ⟨_, _, s, t, hs, hrun, hP, rfl, rfl⟩
    | part hx hy => exact ht.code P hP (fun x hx => hwhole.part hx) _ hx y hy

theorem lays_unclean (he : ¬Complete e) (hx : Threads anything unclean (expr pos r e) h k A) :
    Lays [⟨pos, r, e⟩] [] (node ⟨pos, r, e⟩) h k := by
  intro ws cs s hs hI hh
  refine ((emits_setLine (I := anything) pos.line).seq hx s hs trivial hh).imp fun _ t ht => ?_
  refine { ht with
    holds := fun hclean => absurd hclean ht.holds, code := fun P _ hwhole n hn => ?_ }
  cases List.mem_singleton.1 hn
  exact absurd (hwhole _ hn _ (.inl .self)) he

theorem Lays.bound {bs : List Node} (name : String) (pos : Position) (hy : Lays xs bs y h (h + 1)) :
    Lays xs bs (do
      let slot ← declareLocal name pos
      y
      match slot with
      | some slot => build (.initLocal slot)
      | none => pure ()) h (h + 1) := by
  intro ws cs
  refine (threads_bound h 0 name pos manifest_lasts manifest_lasts (hy ws cs)).imp ?_
  rintro P _ _ ⟨_, hvalue, _⟩
  exact hvalue

theorem Lays.definition {bs : List Node} (name : String) (pos : Position)
    (hy : Lays xs bs y h (h + 1)) :
    Lays xs bs (do let slot ← declareBinding name pos; y; bindName name slot) h (h + 1) := by
  intro ws cs
  refine (threads_definition h 0 name pos manifest_lasts manifest_lasts (hy ws cs)).imp ?_
  rintro P _ _ ⟨_, hvalue, _⟩
  exact hvalue

/-- Unless there was an error, nothing is left out of the nodes, and the function or one inside it
has the code of all that is in them. -/
def Houses (xs : List Node) (p : Prototype) (t : State) : Prop :=
  errorCount t.diagnostics = 0 → ∀ x ∈ xs, x.Whole ∧ ∀ y, Own y x ∨ Inner y x → Housed y p

theorem Houses.mono (h : Houses xs p s) (ht : Leads s t) : Houses xs p t :=
  fun hclean => h (clean_earlier ht.diagnostics hclean)

theorem manifest_nil (s : State) : (manifest [] []).holds s :=
  fun _ => ⟨fun _ hx => (List.not_mem_nil hx).elim, by simp⟩

/-- What is laid from the start of a function to its end is there when the function is finished. -/
theorem yields_leave_houses {name : Option String} {s₀ : State} (pos : Position)
    (hnew : s₀.builder = .new name)
    (hshows : Step (manifest xs []) s₀ k (fun P _ _ => Shows xs P) s)
    (hall : Step anything s₀ k (Balanced 0 k) s) (hk : k ≤ 1) :
    Yields (leave pos) s fun p t => Houses xs p t := by
  refine (yields_leave pos hnew hall hk).imp fun p t hr hclean x hx => ?_
  obtain ⟨rfl, hgood, ds, hds, rfl⟩ := hr
  have hclean' : errorCount s.diagnostics = 0 := by
    refine clean_earlier hds ?_
    revert hclean
    cases s.enclosing <;> exact id
  obtain ⟨hwhole, hdeep⟩ := hshows.holds hclean'
  rw [List.append_nil] at hwhole
  have hfinish := finishes_of_packed (hgood (sizesFit_of_errorCount hclean)).2
  refine ⟨hwhole x hx, fun y hy => ?_⟩
  rcases hy with hy | hy
  · obtain ⟨i, j, hlaid⟩ :=
      hshows.code _ (hfinish.mono (Nat.zero_le _) (Nat.zero_le _)) hwhole x hx y hy
    exact ⟨_, i, j, .self, hlaid⟩
  · obtain ⟨q, hq, hhoused⟩ := hdeep y (.inl ⟨x, hx, hy⟩)
    exact hhoused.nested hq

/-- The body of a function is laid in it. -/
structure Furnishes (f : Function Node) : Prop where
  balances : Balances (node f.body) 0 1
  lays : Lays [f.body] [] (node f.body) 0 1

theorem yields_houses (name : Option String) (pos : Position) (hf : Furnishes f) (hs : s.Sane)
    (hh : s.builder.height = h) :
    Yields (do enter name pos f.params f.variadic; node f.body; leave pos) s fun p t =>
      (Step anything s h .none t ∧ Finished p t) ∧ Houses [f.body] p t := by
  refine (yields_within name pos f.params f.variadic hf.balances hs hh).and ?_
  have hlays : Yields (do enter name pos f.params f.variadic; node f.body) s fun _ u =>
      Step (manifest [f.body] []) (s.inside name) 1 (fun P _ _ => Shows [f.body] P) u := by
    rw [yields_bind]
    refine (yields_enter name pos f.params f.variadic hs).imp fun _ t ht => ?_
    exact (hf.lays [] [] t ht.leads.sane (manifest_nil t) ht.height).imp fun _ u hu => ht.after hu
  obtain ⟨_, u, hrun, hshows, hall⟩ :=
    hlays.and (yields_body name pos f.params f.variadic hf.balances hs)
  rw [← bind_assoc, yields_bind]
  exact ⟨(), u, hrun, yields_leave_houses pos rfl hshows hall (Nat.le_refl 1)⟩

theorem manifest_add {body : Node} (h : Leads s t) (hI : (manifest ws cs).holds s)
    (hp : p ∈ t.builder.nested) (hhouses : Houses [body] p t) :
    (manifest ws (cs ++ [body])).holds t := by
  intro hclean
  obtain ⟨hwhole, hdeep⟩ := manifest_lasts h hI hclean
  obtain ⟨hbody, hhoused⟩ := hhouses hclean body List.mem_cons_self
  constructor
  · intro x hx
    rw [← List.append_assoc, List.mem_append, List.mem_singleton] at hx
    rcases hx with hx | rfl
    · exact hwhole x hx
    · exact hbody
  · rintro y (hy | ⟨b, hb, hy⟩)
    · exact hdeep y (.inl hy)
    · rw [List.mem_append, List.mem_singleton] at hb
      rcases hb with hb | rfl
      · exact hdeep y (.inr ⟨b, hb, hy⟩)
      · exact ⟨p, hp, hhoused y hy⟩

theorem yields_housedClosure {body : Node} (hp : Finished p s) (hhouses : Houses [body] p s)
    (hs : s.Sane) (hI : (manifest ws cs).holds s) (hh : s.builder.height = h) :
    Yields (build (.closure p)) s fun _ t =>
      Step (manifest ws (cs ++ [body])) s (h + 1) (Balanced 0 1) t := by
  have hmem : Yields (build (.closure p)) s fun _ t => p ∈ t.builder.nested := by
    refine (yields_build (emitUnit_run (b := (s.builder.addNested p).2) (Nat.zero_le _) 1
      (.wide .closure s.builder.nested.length))).2 ?_
    exact List.mem_append_right _ List.mem_cons_self
  refine ((yields_closure h 0 hp hs hh).and hmem).imp fun _ t ht => ?_
  exact { ht.1 with holds := manifest_add ht.1.leads hI ht.2 (hhouses.mono ht.1.leads) }

theorem lays_closure (name : Option String) (pos : Position) (hf : Furnishes f) :
    Lays [] [f.body] (do build (.closure (← function name pos f))) h (h + 1) := by
  intro ws cs s hs hI hh
  have hfunction : Yields (function name pos f) s fun p t =>
      (Step anything s h .none t ∧ Finished p t) ∧ Houses [f.body] p t := by
    have hhouses := yields_houses name pos hf hs hh
    obtain ⟨params, variadic, body⟩ := f
    rw [function]
    exact hhouses
  rw [yields_bind]
  refine hfunction.imp fun p t hr => ?_
  obtain ⟨⟨ht, hp⟩, hhouses⟩ := hr
  have ht := ht.lasting manifest_lasts hI
  refine (yields_housedClosure hp hhouses ht.leads.sane ht.holds ht.height).imp fun _ u hu => ?_
  rw [List.append_nil]
  exact (ht.after hu).imp fun P _ => shows_nil P

theorem yields_housedMember (typeName : String) (pos : Position) (name : String) (hf : Furnishes f)
    (hs : s.Sane) (hI : (manifest ws cs).holds s) (hh : s.builder.height = h) :
    Yields (memberFunction typeName pos name f) s fun _ t =>
      Step (manifest ws (cs ++ [f.body])) s h .none t := by
  have hmem : Yields (memberFunction typeName pos name f) s fun _ t =>
      ∃ p, p ∈ t.builder.nested ∧ Houses [f.body] p t := by
    have hhouses := yields_houses (some (typeName ++ "." ++ name)) pos hf hs hh
    obtain ⟨params, variadic, body⟩ := f
    simp only [memberFunction, yields_bind] at hhouses ⊢
    refine hhouses.imp fun _ t ht => ht.imp fun _ u hu => hu.imp fun p v hr => ?_
    refine (yields_build (a := v.builder.nested.length) (b := (v.builder.addNested p).2) rfl).2 ?_
    exact ⟨p, List.mem_append_right _ List.mem_cons_self, hr.2⟩
  refine ((yields_memberFunction typeName pos name hf.balances hs hh).and hmem).imp fun k t hr => ?_
  obtain ⟨⟨ht, _⟩, p, hp, hhouses⟩ := hr
  exact { ht with holds := manifest_add ht.leads hI hp hhouses }

theorem Joins.lays {fs : List (Function Node)} {ks : List Nat} (hjoins : Joins pos fs s ks t)
    (hfs : ∀ f ∈ fs, Furnishes f) (hs : s.Sane) (hI : (manifest ws cs).holds s)
    (hh : s.builder.height = h) :
    Step (manifest ws (cs ++ fs.map Function.body)) s h .none t := by
  induction hjoins generalizing cs with
  | nil =>
    rw [List.map_nil, List.append_nil]
    exact .refl hs hI hh
  | cons typeName name hrun _ ih =>
    obtain ⟨hf, hfs⟩ := List.forall_mem_cons.1 hfs
    have ht := (yields_housedMember typeName pos name hf hs hI hh).of_run hrun
    have hu := ih hfs ht.leads.sane ht.holds ht.height
    rw [List.append_assoc] at hu
    exact ht.after hu

theorem lays_makeType {body : TypeBody Node} (pos : Position)
    (hbody : ∀ f ∈ body.functions, Furnishes f) :
    Lays [] body.bodies (do build (.makeType (← typeBody pos body))) h (h + 1) := by
  intro ws cs s hs hI hh
  have hbalances : ∀ f ∈ body.functions, Balances (node f.body) 0 1 :=
    fun f hf => (hbody f hf).balances
  rw [yields_bind, body.bodies_eq]
  refine ((yields_typeBody pos hbalances hs hh).and (nested_typeBody pos hbalances hs hh)).imp
    fun info t hr => ?_
  obtain ⟨⟨_, _, _, hjoins, _⟩, _, hinfo⟩ := hr
  have ht := hjoins.lays hbody hs hI hh
  refine (yields_makeType h 0 hinfo ht.leads.sane ht.height).imp fun _ u hu => ?_
  rw [List.append_nil]
  exact (ht.after (hu.lasting manifest_lasts ht.holds)).imp fun P _ => shows_nil P

end Constructs

end Lower

namespace Node

/-- `y` is `n` or a part of it, in whichever function. -/
inductive Occurs (y : Node) : Node → Prop where
  | self : Occurs y y
  | part {n x : Node} : x ∈ parts n.expr → Occurs y x → Occurs y n

/-- The node itself has no code of its own where a call or a condition has it in place of an
operand. -/
def bare : Node → Bool
  | ⟨_, _, .not _⟩ | ⟨_, _, .field _ _⟩ => true
  | _ => false

theorem bodies_of_bare (h : n.bare = true) : bodies n.expr = [] := by
  obtain ⟨_, _, e⟩ := n
  cases e <;> first | rfl | cases h

end Node

/-- A part has code in the same function, directly or as a part of a part, or it is the body of a
function, or it is bare and its own parts take its place. -/
theorem parts_cases (hx : x ∈ parts e) :
    x ∈ lowered e ∨ x ∈ bodies e ∨ (∃ z ∈ lowered e, x ∈ lowered z.expr) ∨
      (x.bare = true ∧ ∀ z ∈ lowered x.expr, z ∈ lowered e) := by
  cases e with
  | fnDef | fn | typeDef => exact .inr (.inl hx)
  | assign t v | compoundAssign _ t v =>
    refine .inl ?_
    simp only [lowered, parts, List.mem_append, List.mem_cons, List.not_mem_nil, or_false] at hx ⊢
    exact hx.symm
  | invoke t args =>
    obtain ⟨p, r, e⟩ := t
    simp only [parts, List.mem_cons, List.mem_append] at hx
    cases e with
    | field receiver name =>
      rcases hx with rfl | hx | hx
      · refine .inr (.inr (.inr ⟨rfl, fun z hz => ?_⟩))
        cases List.mem_singleton.1 hz
        exact List.mem_cons_self
      · cases List.mem_singleton.1 hx
        exact .inl List.mem_cons_self
      · exact .inl (List.mem_cons_of_mem _ hx)
    | _ =>
      rcases hx with rfl | hx | hx
      · exact .inl List.mem_cons_self
      · first
        | exact .inr (.inr (.inl ⟨_, List.mem_cons_self, hx⟩))
        | cases hx
      · exact .inl (List.mem_cons_of_mem _ hx)
  | ifElse c p f =>
    obtain ⟨pos, r, e⟩ := c
    simp only [parts, List.mem_cons, List.mem_append] at hx
    cases e with
    | not c =>
      rcases hx with rfl | rfl | hx | hx
      · refine .inr (.inr (.inr ⟨rfl, fun z hz => ?_⟩))
        cases List.mem_singleton.1 hz
        exact List.mem_cons_self
      · exact .inl (by simp [lowered])
      · cases List.mem_singleton.1 hx
        exact .inl List.mem_cons_self
      · exact .inl (by simp [lowered, hx])
    | _ =>
      rcases hx with rfl | rfl | hx | hx
      · exact .inl List.mem_cons_self
      · exact .inl (by simp [lowered])
      · cases hx
      · exact .inl (by simp [lowered, hx])
  | _ => exact .inl hx

theorem Node.Occurs.own_or_inner (h : Occurs y n) (hy : y.bare = false) : Own y n ∨ Inner y n := by
  induction h with
  | self => exact .inl .self
  | @part n x hx _ ih =>
    rcases parts_cases hx with hx | hx | ⟨z, hz, hx⟩ | ⟨hbare, hparts⟩
    · exact ih.imp (.part hx) (.part hx)
    · exact .inr (ih.elim (.body hx) (.deeper hx))
    · exact ih.imp (fun h => .part hz (.part hx h)) fun h => .part hz (.part hx h)
    · -- the parts of what is bare are parts of the whole
      rcases ih with h | h
      · cases h with
        | self => simp [hy] at hbare
        | part hz h => exact .inl (.part (hparts _ hz) h)
      · have hnone := Node.bodies_of_bare hbare
        cases h with
        | body hb _ | deeper hb _ => simp [hnone] at hb
        | part hz h => exact .inr (.part (hparts _ hz) h)

/-- `y` is a part of the program. -/
def OccursIn (y : Node) (items : List Node) : Prop :=
  ∃ n ∈ items, y.Occurs n

theorem Node.Occurs.marks (h : Occurs y n) (hn : Marking.Marks n.required n) :
    Marking.Marks y.required y := by
  induction h with
  | self => exact hn
  | @part n x hx _ ih =>
    obtain ⟨pos, r, e⟩ := n
    exact ih (hn.2.parts x hx)

end Refscript
