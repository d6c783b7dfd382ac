import Refscript.Proofs.Syntax.Form
import Refscript.Proofs.Syntax.Echo
import Refscript.Proofs.Syntax.Progress

/-!
# Refscript.Proofs.Syntax.Grouping

Parentheses around an expression leave no trace in the tree.

* `Parse.Faithful`: the parser for the expressions inside a rule reads the same up to the end of the
  text and up to a closing parenthesis. Every rule keeps that (`echoes_grouping`, `echoes_member`,
  `echoes_startWith`), except for `ret`, which is done at the end of the text but not before a
  parenthesis (`echoesAt_returnExpr_of_end`).
* `Parse.faithful_parsePrecedence`: so it holds of all expressions, by induction on the fuel.
* `Parse.grouping_transparent`: a text in parentheses is read as the text itself, unless its last
  token is `ret`.
-/

namespace Refscript
namespace Parse

theorem Fails.exhausted {α : Type} : Fails (throw .exhausted : Parser α) :=
  fun _ _ _ h => EStateM.Result.noConfusion rfl rfl rfl (heq_of_eq h)

/-- Parsers for the expressions inside a rule that read the same up to the end of the text and up to
the parenthesis. -/
structure Faithful (c : Closing) (sub : Precedence → Parser Node) : Prop where
  echoes : ∀ {prec}, prec ≠ .none → Echoes c .whole Node.form (sub prec) (sub prec)
  fails : ∀ prec, FailsAtEnd (sub prec)
  refuses : ∀ prec s, s.current.kind = .rightParen → ∃ e t, sub prec s = .error e t

section Rules

variable {c : Closing} {sub : Precedence → Parser Node} {a b : Node} {t u : Token}

theorem Faithful.expression (h : Faithful c sub) :
    Echoes c .whole Node.form (expression sub) (expression sub) :=
  h.echoes (by decide)

theorem Faithful.expression_fails (h : Faithful c sub) : FailsAtEnd (Parse.expression sub) :=
  h.fails .assignment

theorem failsAtEnd_elements (h : Faithful c sub) (close : TokenKind) (fuel : Nat) :
    FailsAtEnd (elements sub close fuel) := by
  cases fuel with
  | zero => exact fun s _ => Fails.exhausted s
  | succ fuel => exact h.expression_fails.bind

theorem echoes_elements (h : Faithful c sub) {close : TokenKind} (hclose : close ≠ .endOfInput)
    (fuel : Nat) : Echoes c .whole formAll (elements sub close fuel) (elements sub close fuel) := by
  induction fuel with
  | zero => exact .of_fails .exhausted
  | succ fuel ih =>
    refine h.expression.bind fun a b hab => ?_
    refine (Echoes.accept (by decide) (by decide) (by decide)).same fun found => ?_
    have hlast : Echoes c .whole formAll (pure [a]) (pure [b]) :=
      .pure (by simp only [formAll, hab])
    cases found with
    | false => exact hlast
    | true =>
      refine .checkOr hclose hlast ?_ (failsAtEnd_elements h close fuel).bind
      exact ih.bind fun as bs habs => .pure (by simp only [formAll, hab, habs])

theorem echoes_commaSeparated (h : Faithful c sub) {close : TokenKind}
    (hclose : close ≠ .endOfInput) (hret : close ≠ .keyword .retKw) (fuel : Nat) (e : Expectation) :
    Echoes c .whole formAll (commaSeparated sub fuel close e)
      (commaSeparated sub fuel close e) := by
  have hend : ∀ as bs, formAll bs = formAll as →
      Echoes c .whole formAll (do expect close e; pure as) (do expect close e; pure bs) :=
    fun as bs hab => (Echoes.expect hclose hret e).same fun _ => .pure hab
  refine .checkOr hclose ?_ ?_ (failsAtEnd_elements h close fuel).bind
  · have hnone : Echoes c .whole formAll (pure []) (pure []) := .pure rfl
    exact hnone.bind hend
  · exact (echoes_elements h hclose fuel).bind hend

theorem echoes_grouping (h : Faithful c sub) (fuel : Nat) (t u : Token) :
    Echoes c .whole Node.form (grouping sub fuel t) (grouping sub fuel u) := by
  refine .acceptOr (by decide) (by decide) (.pure rfl) ?_ h.expression_fails.bind
  refine h.expression.bind fun a b hab => ?_
  have hend : ∀ as bs, formAll bs = formAll as → Echoes c .whole Node.form
      (do expect .rightParen .tupleEnd; pure (Node.make t.pos (.tuple (a :: as))))
      (do expect .rightParen .tupleEnd; pure (Node.make u.pos (.tuple (b :: bs)))) := by
    refine fun as bs habs => (Echoes.expect (by decide) (by decide) _).same fun _ => .pure ?_
    simp only [form_make, formExpr, formAll, hab, habs]
  have hnone : Echoes c .whole formAll (pure []) (pure []) := .pure rfl
  have hfails : ∀ as, FailsAtEnd
      (do expect .rightParen .tupleEnd; pure (Node.make t.pos (.tuple (a :: as))) : Parser Node) :=
    fun as => (FailsAtEnd.expect (by decide) _).bind
  refine .acceptOr (by decide) (by decide) (.pure hab) ?_ (.refused (by decide) (hfails []))
  refine (Echoes.accept (by decide) (by decide) (by decide)).same fun _ => ?_
  refine .ite ?_ (hnone.bind hend)
  refine .checkOr (by decide) (hnone.bind hend) ?_ (failsAtEnd_elements h _ fuel).bind
  exact (echoes_elements h (by decide) fuel).bind hend

/-- A failed item would have been reported; one that is cut short by the end of the text is left
open. -/
theorem echoes_recovering {x y : Parser Node} (h : Echoes c .whole Node.form x y) :
    Echoes c .inside formOption (recovering x) (recovering y) := by
  intro m s s' hs a t hrun hquiet
  cases hx : x s with
  | ok n t₁ =>
    simp only [recovering, hx] at hrun
    obtain ⟨rfl, rfl⟩ := EStateM.Result.ok.inj hrun
    have htells := h m s s' hs n t₁ hx hquiet
    cases m with
    | marred | ended => exact htells
    | paired =>
      rcases htells with ⟨b, t', hy, hview, htwin⟩ | ⟨hover, -⟩
      · exact .inl ⟨some b, t', by simp only [recovering, hy], congrArg some hview, htwin⟩
      · exact .inr ⟨hover, .inl rfl⟩
  | error e t₁ =>
    cases e with
    | grammar d =>
      simp only [recovering, hx] at hrun
      obtain ⟨-, rfl⟩ := EStateM.Result.ok.inj hrun
      exact absurd hquiet (State.marred_synchronize (by simp))
    | exhausted => simp [recovering, hx] at hrun

theorem echoes_skip {kinds : List TokenKind}
    (h : ∀ kind ∈ kinds, kind = .comma ∨ kind = .semicolon) :
    Echoes c .whole id (skipKinds kinds) (skipKinds kinds) := by
  refine .skipKinds (fun hmem => ?_) (fun hmem => ?_) fun hmem => ?_ <;> simpa using h _ hmem

theorem echoes_items (h : Faithful c sub) {rest : Parser (List Node)}
    (hrest : Echoes c .inside formAll rest rest) : Echoes c .inside formAll
      (do let item ← recovering (expression sub); skipSemicolons; return item.toList ++ (← rest))
      (do let item ← recovering (expression sub); skipSemicolons; return item.toList ++
        (← rest)) := by
  refine (echoes_recovering h.expression).bind fun a b hab =>
    (echoes_skip (by simp)).inside.same fun _ => ?_
  refine hrest.bind fun as bs habs => .pure ?_
  rw [formAll_append, formAll_append, formAll_toList, formAll_toList, hab, habs]

theorem echoes_statements (h : Faithful c sub) (fuel : Nat) :
    Echoes c .inside formAll (statements sub fuel) (statements sub fuel) := by
  induction fuel with
  | zero => exact .of_fails .exhausted
  | succ fuel ih =>
    exact .unlessOver (fun k => k = .rightBrace ∨ k = .endOfInput) (.inr rfl) rfl fun _ _ _ =>
      echoes_items h ih

theorem echoes_scope (h : Faithful c sub) (fuel : Nat) (t u : Token) :
    Echoes c .whole Node.form (scope sub fuel t) (scope sub fuel u) := by
  refine (echoes_statements h fuel).closed (fun as bs hab => ?_) fun _ =>
    (FailsAtEnd.expect (by decide) _).bind
  exact (Echoes.expect (by decide) (by decide) _).same fun _ =>
    .pure (by simp only [form_make, formExpr, hab])

theorem echoes_unary (h : Faithful c sub) (t u : Token) {build : Node → Expr Node}
    (hbuild : ∀ a b : Node, b.form = a.form → formExpr (build b) = formExpr (build a)) :
    Echoes c .whole Node.form (unary sub t build) (unary sub u build) :=
  (h.echoes (by decide)).bind fun a b hab => .pure (congrArg (Node.make _) (hbuild a b hab))

theorem echoes_binary (h : Faithful c sub) (htu : u.form = t.form) {build build' : Node → Expr Node}
    (hbuild : ∀ a b : Node, b.form = a.form → formExpr (build' b) = formExpr (build a)) :
    Echoes c .whole Node.form (binary sub t build) (binary sub u build') := by
  unfold binary
  rw [kind_of_form htu]
  exact (h.echoes (rightPrecedence_ne_none t.kind)).bind fun a b hab =>
    .pure (congrArg (Node.make _) (hbuild a b hab))

theorem echoes_continueWith (h : Faithful c sub) (fuel : Nat) (htu : u.form = t.form)
    (hab : b.form = a.form) :
    Echoes c .whole Node.form (continueWith sub fuel t a) (continueWith sub fuel u b) := by
  simp only [continueWith, kind_of_form htu]
  split
  · refine (echoes_commaSeparated h (by decide) (by decide) fuel _).bind fun as bs habs => .pure ?_
    simp only [form_make, formExpr, hab, habs]
  · refine h.expression.bind fun k l hkl =>
      (Echoes.expect (by decide) (by decide) _).same fun _ => .pure ?_
    simp only [form_make, formExpr, hab, hkl]
  · exact (Echoes.expectName _).same fun _ => .pure (by simp only [form_make, formExpr, hab])
  iterate 5 exact echoes_binary h htu fun k l hkl => by simp only [formExpr, hab, hkl]
  · exact .pure hab

theorem selective_continuation {prec : Precedence} (hprec : prec ≠ .none) :
    Selective fun t => prec ≤ Precedence.ofToken t.kind := by
  have hloose : ¬prec ≤ .none := by cases prec <;> first | exact absurd rfl hprec | decide
  exact .byKind (prec ≤ Precedence.ofToken ·) hloose hloose hloose

theorem echoes_continuations (h : Faithful c sub) {prec : Precedence} (hprec : prec ≠ .none)
    (fuel : Nat) (hab : b.form = a.form) :
    Echoes c .whole Node.form (continuations sub prec fuel a) (continuations sub prec fuel b) := by
  induction fuel generalizing a b with
  | zero => exact .of_fails .exhausted
  | succ fuel ih =>
    refine .take (selective_continuation hprec) (fun _ _ _ => ?_) fun _ _ => .pure hab
    exact Echoes.previous.bind fun t u htu =>
      (echoes_continueWith h fuel htu hab).bind fun _ _ hnode => ih hnode

theorem echoes_assignment (h : Faithful c sub) (hab : b.form = a.form) :
    Echoes c .whole Node.form (assignment sub a) (assignment sub b) := by
  refine .byCurrent (fun m s s' hs hend => ?_) fun m s s' hs hend u hu => ?_
  · simp only [hend, c.isParen]
    exact Echoes.pure hab m s s' hs
  · simp only [kind_of_form hu]
    split
    · refine .advance hs hend (by simp [*]) (h.expression.bind fun v w hvw => .pure ?_)
      simp only [form_make, formExpr, hab, hvw]
    · refine .advance hs hend (by simp [*]) (h.expression.bind fun v w hvw => .pure ?_)
      simp only [form_make, formExpr, hab, hvw]
    · exact Echoes.pure hab m s s' hs

theorem echoes_bindings (h : Faithful c sub) (fuel : Nat) :
    Echoes c .whole formBindings (bindings sub fuel) (bindings sub fuel) := by
  induction fuel with
  | zero => exact .of_fails .exhausted
  | succ fuel ih =>
    refine (Echoes.expectName _).same fun name => Echoes.previous.bind fun t u _ => ?_
    have hend : ∀ a b : Node, b.form = a.form → Echoes c .whole formBindings
        (do
          if ← accept .comma then return ⟨name, a⟩ :: (← bindings sub fuel)
          else return [⟨name, a⟩])
        (do
          if ← accept .comma then return ⟨name, b⟩ :: (← bindings sub fuel)
          else return [⟨name, b⟩]) := by
      intro a b hab
      refine (Echoes.accept (by decide) (by decide) (by decide)).same fun _ => .ite ?_ ?_
      · exact ih.bind fun as bs habs => .pure (by simp only [formBindings, formBinding, hab, habs])
      · exact .pure (by simp only [formBindings, formBinding, hab])
    refine (Echoes.accept (by decide) (by decide) (by decide)).same fun _ => .ite ?_ ?_
    · exact (h.echoes (by decide)).bind hend
    · have hnull : Echoes c .whole Node.form (pure (.make t.pos .null))
        (pure (.make u.pos .null)) := .pure rfl
      exact hnull.bind hend

theorem failsAtEnd_parameters (fuel : Nat) : FailsAtEnd (parameters fuel) := by
  cases fuel with
  | zero => exact fun s _ => Fails.exhausted s
  | succ fuel => exact (FailsAtEnd.expect (by decide) _).bind.bind

theorem echoes_parameters (fuel : Nat) :
    Echoes c .whole id (parameters fuel) (parameters fuel) := by
  induction fuel with
  | zero => exact .of_fails .exhausted
  | succ fuel ih =>
    refine (Echoes.expectName _).same fun name => ?_
    refine (Echoes.accept (by decide) (by decide) (by decide)).same fun variadic => ?_
    refine (Echoes.accept (by decide) (by decide) (by decide)).same fun _ =>
      .ite (.ite ?_ ?_) (.pure rfl)
    · exact .of_fails (Fails.after fun t => (Fails.failAt t _).bind)
    · exact ih.same fun _ => .pure rfl

theorem echoes_function (h : Faithful c sub) (fuel : Nat) :
    Echoes c .whole formFunction (function sub fuel) (function sub fuel) := by
  refine (Echoes.expect (by decide) (by decide) _).same fun _ => ?_
  have hend : ∀ p : List String × Bool, Echoes c .whole formFunction
      (do
        expect .rightParen .parametersEnd
        return ⟨p.1, p.2, ← expression sub⟩)
      (do
        expect .rightParen .parametersEnd
        return ⟨p.1, p.2, ← expression sub⟩) := by
    refine fun p => (Echoes.expect (by decide) (by decide) _).same fun _ =>
      h.expression.bind fun a b hab => .pure ?_
    simp only [formFunction, hab]
  refine .checkOr (by decide) ?_ ?_ (failsAtEnd_parameters fuel).bind
  · have hnone : Echoes c .whole id (pure (([] : List String), false)) (pure ([], false)) :=
      .pure rfl
    exact hnone.same hend
  · exact (echoes_parameters fuel).same hend

theorem echoes_functionExpr (h : Faithful c sub) (fuel : Nat) (t u : Token) :
    Echoes c .whole Node.form (functionExpr sub fuel t) (functionExpr sub fuel u) := by
  refine (Echoes.accept (by decide) (by decide) (by decide)).same fun _ => .ite ?_ ?_
  · refine Echoes.previous.bind fun v w hvw => (echoes_function h fuel).bind fun f g hfg => .pure ?_
    simp only [form_make, formExpr, lexeme_of_form hvw, hfg]
  · exact (echoes_function h fuel).bind fun f g hfg =>
      .pure (by simp only [form_make, formExpr, hfg])

theorem echoes_member (h : Faithful c sub) (fuel : Nat) {a b : TypeBody Node}
    (hab : formType b = formType a) :
    Echoes c .whole formType (member sub fuel a) (member sub fuel b) := by
  obtain ⟨name, ctor, methods, prefixOps, infixOps, invoke⟩ := a
  obtain ⟨name', ctor', methods', prefixOps', infixOps', invoke'⟩ := b
  simp only [formType, TypeBody.mk.injEq] at hab
  obtain ⟨rfl, hctor, hmethods, hprefixOps, hinfixOps, hinvoke⟩ := hab
  have hctorSome : ctor'.isSome = ctor.isSome := by
    rw [← isSome_formFunctionOption, hctor, isSome_formFunctionOption]
  have hinvokeSome : invoke'.isSome = invoke.isSome := by
    rw [← isSome_formFunctionOption, hinvoke, isSome_formFunctionOption]
  have hdone : ∀ {build build' : Function Node → TypeBody Node},
      (∀ f g, formFunction g = formFunction f → formType (build' g) = formType (build f)) →
      Echoes c .whole formType (do let f ← function sub fuel; pure (build f))
        (do let f ← function sub fuel; pure (build' f)) :=
    fun hbuild => (echoes_function h fuel).bind fun f g hfg => .pure (hbuild f g hfg)
  refine (Echoes.accept (by decide) (by decide) (by decide)).same fun _ => .ite ?_ ?_
  · refine (Echoes.expectName _).same fun _ => hdone fun f g hfg => ?_
    simp only [formType, formMembers_append, formMembers, formMember, hctor, hmethods, hprefixOps,
      hinfixOps, hinvoke, hfg]
  refine .takeName "ctor" ?_ (.takeName "invoke" ?_ (.takeEither "prefix" "infix" ?_ ?_))
  · dsimp only
    rw [hctorSome]
    refine .ite (.of_fails (Fails.after fun t => (Fails.failAt t _).bind)) (hdone fun f g hfg => ?_)
    simp only [formType, formFunctionOption, hmethods, hprefixOps, hinfixOps, hinvoke, hfg]
  · dsimp only
    rw [hinvokeSome]
    refine .ite (.of_fails (Fails.after fun t => (Fails.failAt t _).bind)) (hdone fun f g hfg => ?_)
    simp only [formType, formFunctionOption, hctor, hmethods, hprefixOps, hinfixOps, hfg]
  · refine Echoes.previous.bind fun v w hvw => .takeOperator ?_ fun _ => Fails.after fun t =>
      (Fails.failAt t _).bind
    refine Echoes.previous.bind fun p q hpq => (echoes_function h fuel).bind fun f g hfg => ?_
    rw [lexeme_of_form hvw, lexeme_of_form hpq]
    refine .ite (.pure ?_) (.pure ?_)
    all_goals
      simp only [formType, formMembers_append, formMembers, formMember, hctor, hmethods, hprefixOps,
        hinfixOps, hinvoke, hfg]
  · exact .of_fails (Fails.after fun t => .failAt t _)

theorem echoes_members (h : Faithful c sub) (fuel : Nat) {a b : TypeBody Node}
    (hab : formType b = formType a) :
    Echoes c .inside formType (members sub fuel a) (members sub fuel b) := by
  induction fuel generalizing a b with
  | zero => exact .of_fails .exhausted
  | succ fuel ih =>
    refine .unlessOver (fun k => k = .rightBrace ∨ k = .endOfInput) (.inr rfl) hab fun _ _ _ => ?_
    refine (echoes_member h fuel hab).inside.bind fun a b hab =>
      (echoes_skip (by simp)).inside.same fun _ => ih hab

theorem echoes_typeDefinition (h : Faithful c sub) (fuel : Nat) (t u : Token) :
    Echoes c .whole Node.form (typeDefinition sub fuel t) (typeDefinition sub fuel u) := by
  refine (Echoes.expectName _).same fun _ =>
    (Echoes.expect (by decide) (by decide) _).same fun _ => ?_
  refine (echoes_members h fuel rfl).closed (fun a b hab => ?_) fun _ =>
    (FailsAtEnd.expect (by decide) _).bind
  exact (Echoes.expect (by decide) (by decide) _).same fun _ =>
    .pure (by simp only [form_make, formExpr, hab])

theorem echoes_elseBranch (h : Faithful c sub) :
    Echoes c .whole formOption (elseBranch sub) (elseBranch sub) := by
  refine (Echoes.accept (by decide) (by decide) (by decide)).same fun _ => .ite ?_ (.pure rfl)
  exact h.expression.bind fun a b hab => .pure (congrArg some hab)

theorem echoes_conditional (h : Faithful c sub) (t u : Token) :
    Echoes c .whole Node.form (conditional sub t) (conditional sub u) := by
  refine h.expression.bind fun _ _ hcondition => h.expression.bind fun _ _ hpass => ?_
  refine (echoes_elseBranch h).bind fun _ _ hfail => .pure ?_
  simp only [form_make, formExpr, hcondition, hpass, hfail]

theorem echoes_loop (h : Faithful c sub) (t u : Token) :
    Echoes c .whole Node.form (loop sub t) (loop sub u) := by
  refine h.expression.bind fun _ _ hcondition => h.expression.bind fun _ _ hbody => ?_
  refine (echoes_elseBranch h).bind fun _ _ hotherwise => .pure ?_
  simp only [form_make, formExpr, hcondition, hbody, hotherwise]

theorem echoes_pattern (h : Faithful c sub) :
    Echoes c .whole formOption (pattern sub) (pattern sub) := by
  refine .takeName "_" (.pure rfl) ?_
  exact (h.echoes (by decide)).bind fun a b hab => .pure (congrArg some hab)

theorem echoes_arms (h : Faithful c sub) (fuel : Nat) :
    Echoes c .inside formArms (arms sub fuel) (arms sub fuel) := by
  induction fuel with
  | zero => exact .of_fails .exhausted
  | succ fuel ih =>
    refine .unlessOver (fun k => k = .rightBrace ∨ k = .endOfInput) (.inr rfl) rfl fun _ _ _ => ?_
    refine (echoes_pattern h).inside.bind fun _ _ hpattern => ?_
    refine (Echoes.expect (by decide) (by decide) _).inside.same fun _ =>
      h.expression.inside.bind fun _ _ hbody => ?_
    refine (echoes_skip (by simp)).inside.same fun _ => ih.bind fun _ _ harms => .pure ?_
    simp only [formArms, formArm, hpattern, hbody, harms]

theorem echoes_matchCases (h : Faithful c sub) (fuel : Nat) (t u : Token) :
    Echoes c .whole Node.form (matchCases sub fuel t) (matchCases sub fuel u) := by
  refine h.expression.bind fun _ _ hscrutinee =>
    (Echoes.expect (by decide) (by decide) _).same fun _ => ?_
  refine (echoes_arms h fuel).closed (fun _ _ harms => ?_) fun _ =>
    (FailsAtEnd.expect (by decide) _).bind
  refine (Echoes.expect (by decide) (by decide) _).same fun _ => .pure ?_
  simp only [form_make, formExpr, hscrutinee, harms]

theorem echoes_intLiteral (htu : u.form = t.form) :
    Echoes c .whole Node.form (intLiteral t) (intLiteral u) := by
  unfold intLiteral
  rw [lexeme_of_form htu]
  split
  · exact .pure rfl
  · exact .of_fails (.failAt t _)

theorem echoes_floatLiteral (htu : u.form = t.form) :
    Echoes c .whole Node.form (floatLiteral t) (floatLiteral u) := by
  unfold floatLiteral
  rw [lexeme_of_form htu]
  split
  · exact .pure rfl
  · exact .of_fails (.failAt t _)

theorem echoes_stringLiteral (htu : u.form = t.form) :
    Echoes c .whole Node.form (stringLiteral t) (stringLiteral u) := by
  unfold stringLiteral
  rw [lexeme_of_form htu]
  split
  · exact .pure rfl
  · exact .of_fails (.failAt t _)

/-- Every way to start an expression but `ret`, which alone looks at the token after it to see
whether it is done. -/
theorem echoes_startWith (h : Faithful c sub) (fuel : Nat) (htu : u.form = t.form)
    (hret : t.kind ≠ .keyword .retKw) :
    Echoes c .whole Node.form (startWith sub fuel t) (startWith sub fuel u) := by
  simp only [startWith, kind_of_form htu]
  split
  · exact echoes_grouping h fuel t u
  · refine (echoes_commaSeparated h (by decide) (by decide) fuel _).bind fun as bs hab => .pure ?_
    simp only [form_make, formExpr, hab]
  · exact echoes_scope h fuel t u
  iterate 6 exact echoes_unary h t u fun a b hab => by simp only [formExpr, hab]
  · exact echoes_intLiteral htu
  · exact echoes_floatLiteral htu
  · exact echoes_stringLiteral htu
  iterate 4 exact .pure rfl
  · exact .pure (by rw [lexeme_of_form htu]; rfl)
  · exact (echoes_bindings h fuel).bind fun as bs hab =>
      .pure (by simp only [form_make, formExpr, hab])
  · exact echoes_functionExpr h fuel t u
  · exact echoes_typeDefinition h fuel t u
  · exact echoes_conditional h t u
  · exact echoes_loop h t u
  · exact echoes_matchCases h fuel t u
  · exact absurd ‹_› hret
  · exact .of_fails (.failAt t _)

variable {m : Standing} {s s' : State}

theorem echoesAt_returnExpr (h : Faithful c sub) (t u : Token) (hs : Stand c m s s')
    (hne : m = .paired → s.current.kind ≠ .endOfInput) :
    EchoesAt c .whole Node.form m s s' (returnExpr sub t) (returnExpr sub u) := by
  have hbranch : ∀ kind, Echoes c .whole Node.form
      (if endsReturn kind then pure (.make t.pos (.ret none))
        else do return .make t.pos (.ret (some (← expression sub))))
      (if endsReturn kind then pure (.make u.pos (.ret none))
        else do return .make u.pos (.ret (some (← expression sub)))) := by
    refine fun kind => .ite (.pure rfl) (h.expression.bind fun a b hab => .pure ?_)
    simp only [form_make, formExpr, formOption, hab]
  cases m with
  | marred => exact hbranch s.current.kind .marred s s' hs
  | ended => exact hbranch s.current.kind .ended s s' hs
  | paired =>
    refine .current ?_
    simp only [kind_of_form (hs.form (hne rfl))]
    exact hbranch s.current.kind .paired s s' hs

/-- At the end of the text `ret` is done; before a closing parenthesis it wants a value. -/
theorem echoesAt_returnExpr_of_end (h : Faithful c sub) (t u : Token) (hs : Abreast c s s')
    (hend : s.current.kind = .endOfInput) (hret : s.previous.kind = .keyword .retKw) :
    EchoesAt c .whole Node.form .paired s s' (returnExpr sub t) (returnExpr sub u) := by
  intro a v hrun hquiet
  obtain ⟨-, hlast, hparen, -⟩ := hs.mates.of_end hend
  have hleft : returnExpr sub t s = .ok (.make t.pos (.ret none)) s := by
    have hcurrent : current s = .ok s.current s := rfl
    rw [returnExpr, run_bind hcurrent, hend]
    rfl
  obtain ⟨-, rfl⟩ := EStateM.Result.ok.inj (hleft.symm.trans hrun)
  refine .inr ⟨hs.isOver hend, .inr ⟨hlast.symm.trans hret, ?_⟩⟩
  have hkind : s'.current.kind = .rightParen := hparen ▸ c.isParen
  obtain ⟨e, t', herror⟩ := h.refuses .assignment s' hkind
  have hcurrent : current s' = .ok s'.current s' := rfl
  refine ⟨e, t', ?_⟩
  rw [returnExpr, run_bind hcurrent, hkind]
  exact run_bind_error herror

/-- The expression that starts with the token just taken. -/
theorem echoesAt_startWith (h : Faithful c sub) (fuel : Nat) (hs : Abreast c s s')
    (hprevious : s'.previous.form = s.previous.form) :
    EchoesAt c .whole Node.form .paired s s' (startWith sub fuel s.previous)
      (startWith sub fuel s'.previous) := by
  by_cases hret : s.previous.kind = .keyword .retKw
  · have hleft : startWith sub fuel s.previous = returnExpr sub s.previous := by
      simp only [startWith, hret]
    have hright : startWith sub fuel s'.previous = returnExpr sub s'.previous := by
      simp only [startWith, kind_of_form hprevious, hret]
    rw [hleft, hright]
    by_cases hend : s.current.kind = .endOfInput
    · exact echoesAt_returnExpr_of_end h _ _ hs hend hret
    · have htwin : Stand c .paired s s' := ⟨hs, hprevious, fun _ => hend⟩
      exact echoesAt_returnExpr h _ _ htwin fun _ => hend
  · refine echoes_startWith h fuel hprevious hret .paired s s'
      ⟨hs, hprevious, fun hlast hend => hret ?_⟩
    exact (hs.mates.of_end hend).2.1.trans hlast

theorem marred_startWith (h : Faithful c sub) (fuel : Nat) (t : Token) (hs : Stand c .marred s s) :
    EchoesAt c .whole Node.form .marred s s (startWith sub fuel t) (startWith sub fuel t) := by
  by_cases hret : t.kind = .keyword .retKw
  · have hstart : startWith sub fuel t = returnExpr sub t := by simp only [startWith, hret]
    rw [hstart]
    exact echoesAt_returnExpr h t t hs Standing.noConfusion
  · exact echoes_startWith h fuel rfl hret .marred s s hs

end Rules

section Programs

variable {c : Closing} {s s' : State}

theorem failsAtEnd_parsePrecedence (fuel : Nat) (prec : Precedence) :
    FailsAtEnd (parsePrecedence fuel prec) := by
  cases fuel with
  | zero => exact fun s _ => Fails.exhausted s
  | succ fuel =>
    intro s hend a t hrun
    rw [parsePrecedence_of_end hend] at hrun
    cases hrun

theorem parsePrecedence_refuses (fuel : Nat) (prec : Precedence)
    (hparen : s.current.kind = .rightParen) : ∃ e t, parsePrecedence fuel prec s = .error e t := by
  cases fuel with
  | zero => exact ⟨.exhausted, s, rfl⟩
  | succ fuel =>
    exact ⟨_, _,
      parsePrecedence_of_unopened (fun _ _ => by simp only [startWith, hparen]) fuel prec⟩

/-- The rest of an expression whose first token was just taken. -/
def expressionFrom (fuel : Nat) (prec : Precedence) (t : Token) : Parser Node := do
  let first ← startWith (parsePrecedence fuel) fuel t
  let node ← continuations (parsePrecedence fuel) prec fuel first
  if prec ≤ .assignment then assignment (parsePrecedence fuel) node else return node

theorem run_parsePrecedence (fuel : Nat) (prec : Precedence) (s : State) :
    parsePrecedence (fuel + 1) prec s = expressionFrom fuel prec s.current s.advance := rfl

section Climbing

variable {fuel : Nat} {prec : Precedence}

theorem echoes_continued (h : Faithful c (parsePrecedence fuel)) (hprec : prec ≠ .none) (a b : Node)
    (hab : b.form = a.form) :
    Echoes c .whole Node.form
      (do
        let node ← continuations (parsePrecedence fuel) prec fuel a
        if prec ≤ .assignment then assignment (parsePrecedence fuel) node else return node)
      (do
        let node ← continuations (parsePrecedence fuel) prec fuel b
        if prec ≤ .assignment then assignment (parsePrecedence fuel) node else return node) :=
  (echoes_continuations h hprec fuel hab).bind fun _ _ hnode =>
    .ite (echoes_assignment h hnode) (.pure hnode)

theorem marred_expressionFrom (h : Faithful c (parsePrecedence fuel)) (hprec : prec ≠ .none)
    (t : Token) (hs : s.diagnostics ≠ []) :
    EchoesAt c .whole Node.form .marred s s (expressionFrom fuel prec t)
      (expressionFrom fuel prec t) :=
  (marred_startWith h fuel t hs).bind Standing.noConfusion (echoes_continued h hprec)

/-- Before its first token it does not matter which one was taken last. -/
theorem echoesAt_parsePrecedence (h : Faithful c (parsePrecedence fuel)) (hprec : prec ≠ .none)
    (hs : Abreast c s s') :
    EchoesAt c .whole Node.form .paired s s' (parsePrecedence (fuel + 1) prec)
      (parsePrecedence (fuel + 1) prec) := by
  by_cases hend : s.current.kind = .endOfInput
  · exact .of_failsAtEnd (failsAtEnd_parsePrecedence _ _) hend
  intro a t hrun hquiet
  rw [run_parsePrecedence] at hrun ⊢
  by_cases hadvance : s.advance.diagnostics = []
  · have hstart := echoesAt_startWith h fuel (hs.advance hend hadvance) (hs.form hend)
    exact hstart.bind Standing.noConfusion (echoes_continued h hprec) a t hrun hquiet
  · exact (marred_expressionFrom h hprec s.current hadvance a t hrun hquiet).elim

end Climbing

theorem faithful_parsePrecedence (c : Closing) (fuel : Nat) :
    Faithful c (parsePrecedence fuel) := by
  induction fuel with
  | zero =>
    exact ⟨fun _ => .of_fails .exhausted, failsAtEnd_parsePrecedence 0,
      fun prec _ => parsePrecedence_refuses 0 prec⟩
  | succ fuel ih =>
    refine ⟨fun hprec m s s' hs => ?_, failsAtEnd_parsePrecedence _,
      fun prec _ => parsePrecedence_refuses _ prec⟩
    cases m with
    | marred => exact marred_expressionFrom ih hprec s.current (State.marred_advance hs)
    | ended => exact .of_failsAtEnd (failsAtEnd_parsePrecedence _ _) hs.1
    | paired => exact echoesAt_parsePrecedence ih hprec hs.toAbreast

theorem echoes_program {sub : Precedence → Parser Node} (h : Faithful c sub) (fuel : Nat) :
    Echoes c .inside formAll (program sub fuel) (program sub fuel) := by
  induction fuel with
  | zero => exact .of_fails .exhausted
  | succ fuel ih =>
    exact .unlessOver (· = .endOfInput) rfl rfl fun _ _ _ => echoes_items h ih

end Programs

section Texts

variable {s t : State} {fuel n : Nat} {node : Node} {ts : List Token}

theorem program_of_single {sub : Precedence → Parser Node} (hs : s.current.kind ≠ .endOfInput)
    (hrun : expression sub s = .ok node t) (ht : t.current.kind = .endOfInput) :
    program sub (n + 2) s = .ok [node] t := by
  have hcurrent : ∀ s : State, current s = .ok s.current s := fun _ => rfl
  have hrecovering : recovering (expression sub) s = .ok (some node) t := by
    simp only [recovering, hrun]
  have hskip : skipSemicolons t = .ok () t := by
    refine congrArg (EStateM.Result.ok ()) ?_
    rw [State.skip, if_neg (by simp [ht])]
  have hrest : program sub (n + 1) t = .ok [] t := by
    rw [program, run_bind (hcurrent t), if_pos ht]
    rfl
  rw [program, run_bind (hcurrent s), if_neg hs, run_bind hrecovering, run_bind hskip,
    run_bind hrest]
  rfl

theorem marred_program_of_error (c : Closing) {e : Failure} {items : List Node} {u : State}
    (hs : s.current.kind ≠ .endOfInput) (herror : expression (parsePrecedence fuel) s = .error e t)
    (hrun : program (parsePrecedence fuel) (n + 1) s = .ok items u) : u.diagnostics ≠ [] := by
  have hcurrent : current s = .ok s.current s := rfl
  rw [program, run_bind hcurrent, if_neg hs] at hrun
  obtain ⟨item, s₁, hfirst, hrest⟩ := ok_of_bind hrun
  have hmarred : s₁.diagnostics ≠ [] := by
    cases e with
    | grammar d =>
      simp only [recovering, herror] at hfirst
      obtain ⟨-, rfl⟩ := EStateM.Result.ok.inj hfirst
      exact State.marred_synchronize (by simp)
    | exhausted => simp [recovering, herror] at hfirst
  have hechoes : Echoes c .inside formAll
      (do skipSemicolons; return item.toList ++ (← program (parsePrecedence fuel) n))
      (do skipSemicolons; return item.toList ++ (← program (parsePrecedence fuel) n)) := by
    refine (echoes_skip (by simp)).inside.same fun _ => ?_
    refine (echoes_program (faithful_parsePrecedence c fuel) n).bind fun as bs hab => .pure ?_
    rw [formAll_append, formAll_append, hab]
  exact hechoes .marred s₁ s₁ hmarred items u hrest

theorem parsePrecedence_grouped (hopen : s.current.kind = .leftParen)
    (hfirst : s.advance.current.kind ≠ .rightParen)
    (hinner : expression (parsePrecedence (fuel + 1)) s.advance = .ok node t)
    (hclose : t.current.kind = .rightParen) (hend : t.advance.current.kind = .endOfInput) :
    parsePrecedence (fuel + 2) .assignment s = .ok node t.advance := by
  have hstart : startWith (parsePrecedence (fuel + 1)) (fuel + 1) s.current s.advance =
      .ok node t.advance := by
    simp only [startWith, hopen]
    rw [grouping, run_bind (accept_of_ne hfirst), if_neg Bool.false_ne_true, run_bind hinner,
      run_bind (accept_of_eq hclose)]
    rfl
  have hcurrent : current t.advance = .ok t.advance.current t.advance := rfl
  have hcontinued : continuations (parsePrecedence (fuel + 1)) .assignment (fuel + 1)
    node t.advance = .ok node t.advance := by
    rw [continuations, run_bind hcurrent, hend]
    rfl
  have hassigned : assignment (parsePrecedence (fuel + 1)) node t.advance = .ok node t.advance := by
    rw [assignment, run_bind hcurrent, hend]
    rfl
  rw [run_parsePrecedence, expressionFrom, run_bind hstart, run_bind hcontinued]
  exact hassigned

theorem parsePrecedence_of_inner_error {e : Failure} (hopen : s.current.kind = .leftParen)
    (hfirst : s.advance.current.kind ≠ .rightParen)
    (hinner : expression (parsePrecedence fuel) s.advance = .error e t) :
    parsePrecedence (fuel + 1) .assignment s = .error e t := by
  have hstart : startWith (parsePrecedence fuel) fuel s.current s.advance = .error e t := by
    simp only [startWith, hopen]
    rw [grouping, run_bind (accept_of_ne hfirst), if_neg Bool.false_ne_true]
    exact run_bind_error hinner
  rw [run_parsePrecedence, expressionFrom]
  exact run_bind_error hstart

/-- Reads one expression from the start of the tokens. -/
def readOne (tokens : List Token) : EStateM.Result Failure State Node :=
  (do advance; expression (parsePrecedence (tokens.length + 1)) : Parser Node).run
    (.ofTokens tokens)

/-- The text is a single expression: it is read without complaint, and up to its end. -/
def ReadsWhole (source : String) (n : Node) : Prop :=
  ∃ s, readOne (Scan.tokens source) = .ok n s ∧ s.diagnostics = [] ∧ s.current.kind = .endOfInput

theorem Mates.of_forms {c : Closing} {before : TokenKind} {e : Token} {us : List Token}
    (hforms : us.map Token.form = ts.map Token.form) (hends : Ends (ts ++ [e]))
    (hlast : (ts.map Token.kind).getLast?.getD before = c.last) :
    Mates c before (ts ++ [e]) (us ++ c.paren :: c.rest) := by
  induction ts generalizing before us with
  | nil =>
    obtain rfl : us = [] := List.map_eq_nil_iff.1 hforms
    obtain rfl : before = c.last := hlast
    cases hends with
    | last he => exact .last he
    | cons _ hnil => cases hnil
  | cons t ts ih =>
    obtain ⟨u, us, rfl, hform, hforms⟩ := List.map_eq_cons_iff.1 hforms
    rcases hends.uncons with ⟨-, hnil⟩ | ⟨hne, hends⟩
    · simp at hnil
    · refine .cons hform hne (ih hforms hends ?_)
      rw [List.map_cons, List.getLast?_cons] at hlast
      exact hlast

theorem advance_ofTokens {o : Token} (h : ∀ e, o.kind ≠ .error e) (us : List Token) :
    (State.ofTokens (o :: us)).advance = ⟨⟨.endOfInput, 0, 0, ⟨1, 1⟩, ""⟩, o, us, []⟩ := by
  simp only [State.ofTokens, State.advance, nextToken_of_clean h, List.append_nil]

theorem Mates.abreast {c : Closing} {o : Token} {us : List Token} (h : Mates c .endOfInput ts us)
    (ho : o.kind = .leftParen) (hquiet : (State.ofTokens ts).advance.diagnostics = []) :
    Abreast c (State.ofTokens ts).advance (State.ofTokens (o :: us)).advance.advance := by
  obtain ⟨t, u, ts', us', rfl, rfl, ht, hu⟩ := h.nextToken (List.append_eq_nil_iff.1 hquiet).2 o
  have hleft : (State.ofTokens (t :: ts')).advance =
      ⟨⟨.endOfInput, 0, 0, ⟨1, 1⟩, ""⟩, t, ts', []⟩ := by
    simp only [State.ofTokens] at ht ⊢
    simp only [State.advance, ht, List.append_nil]
  have hright : (State.ofTokens (o :: u :: us')).advance.advance = ⟨o, u, us', []⟩ := by
    rw [advance_ofTokens (by simp [ho])]
    simp only [State.advance, hu, List.append_nil]
  rw [hleft, hright]
  exact ⟨h, rfl, rfl⟩

section Enclosed

variable {c : Closing} {o : Token} {ts us : List Token}

theorem below_ofTokens (ho : o.kind = .leftParen) (hends : Ends (o :: us)) :
    (State.ofTokens (o :: us)).advance.Below (us.length + 1) := by
  rw [advance_ofTokens (by simp [ho])]
  exact ⟨hends, Nat.lt_succ_self _⟩

/-- What is read inside the parentheses. The fuel there is another one, which does not matter. -/
theorem expression_enclosed (hmates : Mates c .endOfInput ts us) (hends : Ends (o :: us))
    (hlength : us.length = ts.length + 1) (ho : o.kind = .leftParen)
    (hrun : readOne ts = .ok node t) (hquiet : t.diagnostics = [])
    (hs : s = (State.ofTokens (o :: us)).advance) :
    s.advance.current.kind ≠ .rightParen ∧ Tells c .whole Node.form s node t
      (expression (parsePrecedence (us.length + 1)) s.advance) .paired := by
  subst hs
  replace hrun : parsePrecedence (ts.length + 1) .assignment (State.ofTokens ts).advance =
    .ok node t := hrun
  have hclean : (State.ofTokens ts).advance.diagnostics = [] := Decidable.byContradiction fun hm =>
    (faithful_parsePrecedence c _).expression .marred _ t hm node t hrun hquiet
  have habreast := hmates.abreast ho hclean
  refine ⟨fun hparen => ?_, ?_⟩
  · have hne : (State.ofTokens ts).advance.current.kind ≠ .endOfInput :=
      fun hend => failsAtEnd_parsePrecedence _ _ _ hend _ _ hrun
    rw [kind_of_form (habreast.form hne)] at hparen
    obtain ⟨e, t', herror⟩ := parsePrecedence_refuses (ts.length + 1) .assignment hparen
    rw [herror] at hrun
    cases hrun
  · have hcurrent : (State.ofTokens (o :: us)).advance.current.kind ≠ .endOfInput := by
      rw [advance_ofTokens (by simp [ho])]
      simp [ho]
    have hnext : (State.ofTokens (o :: us)).advance.advance.Below (ts.length + 1) :=
      hlength ▸ (below_ofTokens ho hends).advance_of_ne hcurrent
    have hfuel : ts.length + 1 ≤ us.length + 1 := by omega
    have hadvances := advances_parsePrecedence (Nat.le_refl _) hfuel .assignment (by decide)
    have hsame := (hadvances _ (Nat.lt_succ_self _) _ hnext).same
    have hfaithful := faithful_parsePrecedence c ts.length
    have htells := echoesAt_parsePrecedence hfaithful (by decide) habreast node t hrun hquiet
    rw [hsame] at htells
    exact htells

/-- The tokens `us`, which go on with a parenthesis where `ts` end, read after an opening one. -/
theorem ofTokens_grouped {e : Token} (hmates : Mates c .endOfInput ts us) (hends : Ends (o :: us))
    (hlength : us.length = ts.length + 1) (ho : o.kind = .leftParen) (hrest : c.rest = [e])
    (he : e.kind = .endOfInput) (hrun : readOne ts = .ok node t) (hquiet : t.diagnostics = [])
    (hend : t.current.kind = .endOfInput) :
    (c.last ≠ .keyword .retKw ∧ ∃ m u, ofTokens (o :: us) = .ok [m] u ∧ u.diagnostics = [] ∧
      m.form = node.form) ∨
      (c.last = .keyword .retKw ∧ ∀ items u, ofTokens (o :: us) = .ok items u →
        u.diagnostics ≠ []) := by
  have hprogram : ofTokens (o :: us) =
      program (parsePrecedence (us.length + 2)) (us.length + 2)
        (State.ofTokens (o :: us)).advance := rfl
  obtain ⟨hfirst, htells⟩ := expression_enclosed hmates hends hlength ho hrun hquiet rfl
  have hopen : (State.ofTokens (o :: us)).advance.current.kind = .leftParen := by
    rw [advance_ofTokens (by simp [ho])]
    exact ho
  have hopen' : (State.ofTokens (o :: us)).advance.current.kind ≠ .endOfInput := by
    rw [hopen]; decide
  rw [hprogram]
  rcases htells with ⟨m, u, hinner, hform, htwin⟩ | ⟨-, hret⟩
  · obtain ⟨-, -, hparen, hafter⟩ := htwin.mates.of_end hend
    have hadvance : u.advance = ⟨u.current, e, [], []⟩ := by
      have hclean : ∀ err, e.kind ≠ .error err := by simp [he]
      simp only [State.advance, hafter, hrest, nextToken_of_clean hclean, htwin.quiet',
        List.append_nil]
    have hclose : u.current.kind = .rightParen := hparen ▸ c.isParen
    have hover : u.advance.current.kind = .endOfInput := by rw [hadvance]; exact he
    refine .inl ⟨fun hlast => htwin.held hlast hend, m, u.advance, ?_, by rw [hadvance], hform⟩
    exact program_of_single hopen' (parsePrecedence_grouped hopen hfirst hinner hclose hover) hover
  · obtain ⟨hlast, e', u, herror⟩ := hret.resolve_left Extent.noConfusion
    refine .inr ⟨hlast, fun items v hv => ?_⟩
    exact marred_program_of_error c hopen' (parsePrecedence_of_inner_error hopen hfirst herror) hv

end Enclosed

theorem Ends.length_pos (h : Ends ts) : 0 < ts.length := by
  cases h <;> simp

theorem ReadsWhole.parse_eq {source : String} (h : ReadsWhole source node) :
    parse source = ⟨[node], []⟩ := by
  obtain ⟨t, hrun, hquiet, hend⟩ := h
  replace hrun : expression (parsePrecedence ((Scan.tokens source).length + 1))
      (State.ofTokens (Scan.tokens source)).advance = .ok node t := hrun
  obtain ⟨k, hk⟩ := Nat.exists_eq_add_one.2 (Ends.of_tiled (Scan.tiled_tokens source)).length_pos
  have hne : (State.ofTokens (Scan.tokens source)).advance.current.kind ≠ .endOfInput :=
    fun hend => failsAtEnd_parsePrecedence _ _ _ hend _ _ hrun
  have hprogram : ofTokens (Scan.tokens source) = .ok [node] t := by
    have hsingle := program_of_single (n := k) hne hrun hend
    rwa [show k + 2 = (Scan.tokens source).length + 1 by omega] at hsingle
  simp only [parse, hprogram, hquiet]

/-- The tokens of a text and those of the text in parentheses. -/
theorem exists_mates {source grouped : String} {ls : List Lexeme}
    (hsource : (Scan.tokens source).map Token.form = ls ++ [.endOfInput])
    (hgrouped : (Scan.tokens grouped).map Token.form = .leftParen ::
      (ls ++ [.rightParen, .endOfInput])) :
    ∃ (c : Closing) (o e : Token) (us : List Token), Scan.tokens grouped = o :: us ∧
      o.kind = .leftParen ∧
      Mates c .endOfInput (Scan.tokens source) us ∧ us.length = (Scan.tokens source).length + 1 ∧
      c.rest = [e] ∧ e.kind = .endOfInput ∧
      (c.last = .keyword .retKw ↔ ls.getLast?.map Lexeme.kind = some (.keyword .retKw)) := by
  have hends := Ends.of_tiled (Scan.tiled_tokens source)
  obtain ⟨ts, es, hts, rfl, hes⟩ := List.map_eq_append_iff.1 hsource
  obtain ⟨e, rfl, -⟩ := List.map_eq_singleton_iff.1 hes
  obtain ⟨o, us₀, hus₀, ho, hforms₀⟩ := List.map_eq_cons_iff.1 hgrouped
  obtain ⟨us, ps, rfl, hforms, hps⟩ := List.map_eq_append_iff.1 hforms₀
  obtain ⟨p, es', rfl, hp, hes'⟩ := List.map_eq_cons_iff.1 hps
  obtain ⟨e', rfl, he'⟩ := List.map_eq_singleton_iff.1 hes'
  rw [hts] at hends ⊢
  refine ⟨⟨(ts.map Token.kind).getLast?.getD .endOfInput, p, [e'], congrArg Lexeme.kind hp⟩, o, e',
    us ++ [p, e'], hus₀,
    congrArg Lexeme.kind ho, .of_forms hforms hends rfl, ?_, rfl, congrArg Lexeme.kind he', ?_⟩
  · have hsame : us.length = ts.length := by
      simpa only [List.length_map] using congrArg List.length hforms
    simp [hsame]
  · have hkinds : (ts.map Token.form).getLast?.map Lexeme.kind = (ts.map Token.kind).getLast? := by
      rw [List.getLast?_map, List.getLast?_map, Option.map_map]
      rfl
    rw [hkinds]
    cases (ts.map Token.kind).getLast? <;> simp

/-- Parentheses around an expression that makes up a whole text change nothing but positions, unless
its last token is `ret`: a `ret` with nothing after it is complete at the end of the text, but
before a closing parenthesis it wants a value. -/
theorem grouping_transparent {source grouped : String} {ls : List Lexeme} {n : Node}
    (hsource : (Scan.tokens source).map Token.form = ls ++ [.endOfInput])
    (hgrouped : (Scan.tokens grouped).map Token.form = .leftParen ::
      (ls ++ [.rightParen, .endOfInput]))
    (hreads : ReadsWhole source n) :
    parse source = ⟨[n], []⟩ ∧
      (((parse grouped).diagnostics = [] ∧ ∃ m, (parse grouped).items = [m] ∧ m.form = n.form) ↔
        ls.getLast?.map Lexeme.kind ≠ some (.keyword .retKw)) := by
  refine ⟨hreads.parse_eq, ?_⟩
  obtain ⟨t, hrun, hquiet, hend⟩ := hreads
  obtain ⟨c, o, e, us, hus, ho, hmates, hlength, hrest, he, hlast⟩ := exists_mates hsource hgrouped
  have hends := Ends.of_tiled (Scan.tiled_tokens grouped)
  rw [hus] at hends
  rw [Ne, ← hlast]
  rcases ofTokens_grouped hmates hends hlength ho hrest he hrun hquiet hend with
    ⟨hnot, m, u, hrun', hquiet', hform⟩ | ⟨hret, hmarred⟩
  · have hparse : parse grouped = ⟨[m], u.diagnostics⟩ := by simp only [parse, hus, hrun']
    rw [hparse]
    exact ⟨fun _ => hnot, fun _ => ⟨hquiet', m, rfl, hform⟩⟩
  · refine ⟨fun hclean => ?_, fun hnot => absurd hret hnot⟩
    obtain ⟨items, u, hread, -⟩ := exists_readWith hends
    have hrun' : ofTokens (o :: us) = .ok items u := hread _ (Nat.le_succ _)
    have hparse : parse grouped = ⟨items, u.diagnostics⟩ := by simp only [parse, hus, hrun']
    rw [hparse] at hclean
    exact absurd hclean.1 (hmarred items u hrun')

/-- Whether the text is a single expression. -/
def readsWhole (source : String) : Bool :=
  match readOne (Scan.tokens source) with
  | .ok _ s => s.diagnostics.isEmpty && s.current.kind == .endOfInput
  | .error _ _ => false

theorem exists_of_readsWhole (source : String) (h : readsWhole source = true) :
    ∃ n, ReadsWhole source n := by
  unfold readsWhole at h
  split at h
  · rename_i n s hrun
    rw [Bool.and_eq_true, List.isEmpty_iff, beq_iff_eq] at h
    exact ⟨n, s, hrun, h⟩
  · exact absurd h Bool.false_ne_true

/-- A `ret` that is not the last token is no matter. -/
theorem grouping_transparent_conditional : ∃ n, ReadsWhole "if x {ret} el f(1)" n ∧
    (parse "( if x { ret } el f(1) )").diagnostics = [] ∧
      ∃ m, (parse "( if x { ret } el f(1) )").items = [m] ∧ m.form = n.form := by
  obtain ⟨n, hn⟩ := exists_of_readsWhole "if x {ret} el f(1)" (by decide +kernel)
  have hsource : (Scan.tokens "if x {ret} el f(1)").map Token.form =
      ((Scan.tokens "if x {ret} el f(1)").map Token.form).dropLast ++ [.endOfInput] := by
    decide +kernel
  have hgrouped : (Scan.tokens "( if x { ret } el f(1) )").map Token.form =
      .leftParen :: (((Scan.tokens "if x {ret} el f(1)").map Token.form).dropLast ++
        [.rightParen, .endOfInput]) := by
    decide +kernel
  exact ⟨n, hn, (grouping_transparent hsource hgrouped hn).2.2 (by decide +kernel)⟩

/-- `ret` alone is an expression, and in parentheses it is not. -/
theorem grouped_ret_fails : (∃ n, ReadsWhole "ret" n ∧ parse "ret" = ⟨[n], []⟩) ∧
    (Scan.tokens "(ret)").map Token.form =
      .leftParen :: (((Scan.tokens "ret").map Token.form).dropLast ++ [.rightParen, .endOfInput]) ∧
    (parse "(ret)").diagnostics.length = 1 := by
  obtain ⟨n, hn⟩ := exists_of_readsWhole "ret" (by decide +kernel)
  exact ⟨⟨n, hn, hn.parse_eq⟩, by decide +kernel, by decide +kernel⟩

end Texts

end Parse
end Refscript
