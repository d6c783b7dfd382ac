import Refscript.Proofs.Source.Tiling
import Refscript.Proofs.Syntax.Agreement

/-!
# Refscript.Proofs.Syntax.Progress

Reading a program comes to an end on every text.

* `Parse.Advances`: the parser for the expressions inside a rule takes a token each time, or fails
  at the end of the text.
* `Parse.Fueled`: such parsers, with fuel for the tokens left. Every rule then ends, whatever the
  fuel (`runs_statements`, `runs_members`, `runs_startWith`), because each turn of a loop takes a
  token before the next.
* `parse_terminates`: so does the reading of a text, whatever is wrong with it.
-/

namespace Refscript
namespace Parse

variable {s : State} {prec : Precedence} {E : State → Prop} {ts : List Token} {f₁ f₂ n : Nat}
  {sub₁ sub₂ : Precedence → Parser Node}

/-- Below `n` tokens, the parsers for the expressions inside a rule take at least one token; if they
fail on the first, it is the end of the text. -/
def Advances (n : Nat) (sub₁ sub₂ : Precedence → Parser Node) : Prop :=
  ∀ prec, prec ≠ .none → ∀ k < n, ∀ s, s.Below (k + 1) →
    Agree (sub₁ prec) (sub₂ prec) s (fun _ => State.Below k)
      fun s' => s'.Below (k + 1) ∧ (s.current.kind ≠ .endOfInput → s'.Below k)

theorem Advances.mono {m : Nat} (h : Advances n sub₁ sub₂) (hm : m ≤ n) : Advances m sub₁ sub₂ :=
  fun prec hprec k hk => h prec hprec k (Nat.lt_of_lt_of_le hk hm)

theorem Advances.step (h : Advances (n + 1) sub₁ sub₂) (hprec : prec ≠ .none) :
    Runs (n + 1) n (sub₁ prec) (sub₂ prec) :=
  fun s hs => (h prec hprec n (Nat.lt_succ_self n) s hs).imp (fun _ _ h => h) fun _ h => h.1

/-- Parsers for the expressions inside a rule, and fuel enough for fewer than `n` tokens. -/
structure Fueled (n : Nat) (sub₁ : Precedence → Parser Node) (f₁ : Nat)
    (sub₂ : Precedence → Parser Node) (f₂ : Nat) : Prop where
  sub : Advances n sub₁ sub₂
  left : n ≤ f₁
  right : n ≤ f₂

section Rules

variable {sub₁ sub₂ : Precedence → Parser Node} {n f₁ f₂ : Nat}

theorem Fueled.pred (h : Fueled (n + 1) sub₁ f₁ sub₂ f₂) :
    ∃ g₁ g₂, f₁ = g₁ + 1 ∧ f₂ = g₂ + 1 ∧ Fueled n sub₁ g₁ sub₂ g₂ := by
  obtain ⟨hsub, hleft, hright⟩ := h
  exact ⟨f₁ - 1, f₂ - 1, by omega, by omega, hsub.mono (Nat.le_succ n), by omega, by omega⟩

theorem Fueled.runs (h : Fueled n sub₁ f₁ sub₂ f₂) (hprec : prec ≠ .none) :
    Runs n n (sub₁ prec) (sub₂ prec) := by
  cases n with
  | zero => exact .zero
  | succ n => exact (h.sub.step hprec).mono (Nat.le_succ n)

theorem Fueled.expression (h : Fueled n sub₁ f₁ sub₂ f₂) :
    Runs n n (expression sub₁) (expression sub₂) :=
  h.runs (by decide)

theorem runs_elements (h : Fueled n sub₁ f₁ sub₂ f₂) (close : TokenKind) :
    Runs n n (elements sub₁ close f₁) (elements sub₂ close f₂) := by
  induction n generalizing f₁ f₂ with
  | zero => exact .zero
  | succ n ih =>
    obtain ⟨g₁, g₂, rfl, rfl, hpred⟩ := h.pred
    refine (h.sub.step (by decide)).bind (Nat.le_succ n) fun first => Runs.mono ?_ (Nat.le_succ n)
    refine (Runs.accept .comma).seq fun _ => (Runs.check close).seq fun _ => ?_
    refine .ite (fun _ => .pure _) fun _ => ?_
    exact (ih hpred).seq fun _ => .pure _

theorem runs_commaSeparated (h : Fueled n sub₁ f₁ sub₂ f₂) {close : TokenKind}
    (hclose : close ≠ .endOfInput) (e : Expectation) :
    Runs n n (commaSeparated sub₁ f₁ close e) (commaSeparated sub₂ f₂ close e) := by
  have hend : ∀ items : List Node,
    Runs n n (do expect close e; pure items) (do expect close e; pure items) :=
    fun items => (Runs.expect hclose e).seq fun _ => .pure items
  refine (Runs.check close).seq fun _ => .ite (fun _ => ?_) fun _ => ?_
  · exact (Runs.pure []).seq hend
  · exact (runs_elements h close).seq hend

theorem runs_grouping (h : Fueled n sub₁ f₁ sub₂ f₂) (t : Token) :
    Runs n n (grouping sub₁ f₁ t) (grouping sub₂ f₂ t) := by
  refine (Runs.accept .rightParen).seq fun _ => .ite (fun _ => .pure _) fun _ => ?_
  refine h.expression.seq fun first => (Runs.accept .rightParen).seq fun _ =>
    .ite (fun _ => .pure _) fun _ => ?_
  have hend : ∀ more,
    Runs n n (do expect .rightParen .tupleEnd; pure (Node.make t.pos (.tuple (first :: more))))
      (do expect .rightParen .tupleEnd; pure (Node.make t.pos (.tuple (first :: more)))) :=
    fun more => (Runs.expect (by decide) .tupleEnd).seq fun _ => .pure _
  refine (Runs.accept .comma).seq fun _ => .ite (fun _ => ?_) fun _ => (Runs.pure []).seq hend
  refine (Runs.check .rightParen).seq fun _ => .ite (fun _ => (Runs.pure []).seq hend) fun _ => ?_
  exact (runs_elements h .rightParen).seq hend

theorem Agree.recovering {x y : Parser Node}
    (h : Agree x y s (fun _ => State.Below n) (State.Below n)) :
    Agree (Parse.recovering x) (Parse.recovering y) s (fun _ => State.Below n) E := by
  obtain ⟨hsame, hended⟩ := h
  refine ⟨by simp only [Parse.recovering, hsame], ?_⟩
  cases hrun : x s with
  | ok node s' =>
    rw [hrun] at hended
    simp only [Parse.recovering, hrun]
    exact hended
  | error e s' =>
    rw [hrun] at hended
    cases e with
    | grammar d =>
      have hreported : State.Below n { s' with diagnostics := s'.diagnostics ++ [d] } :=
        ⟨hended.ends, hended.short⟩
      simp only [Parse.recovering, hrun]
      exact hreported.synchronize
    | exhausted => exact hended.elim

/-- A statement that fails before the end of the text has taken a token, and so reading goes on
behind it. -/
theorem agree_recovering (h : Advances (n + 1) sub₁ sub₂) (hs : s.Below (n + 1))
    (hcurrent : s.current.kind ≠ .endOfInput) :
    Agree (recovering (expression sub₁)) (recovering (expression sub₂)) s
      (fun _ => State.Below n) E :=
  ((h .assignment (by decide) n (Nat.lt_succ_self n) s hs).imp (fun _ _ h => h) fun _ h =>
    h.2 hcurrent).recovering

theorem runs_statements (h : Fueled n sub₁ f₁ sub₂ f₂) :
    Runs n n (statements sub₁ f₁) (statements sub₂ f₂) := by
  induction n generalizing f₁ f₂ with
  | zero => exact .zero
  | succ n ih =>
    obtain ⟨g₁, g₂, rfl, rfl, hpred⟩ := h.pred
    intro s hs
    refine agree_current.bind fun t s' ht => ?_
    obtain ⟨rfl, rfl⟩ := ht
    split
    · exact Runs.pure [] s' hs
    · rename_i hkind
      refine (agree_recovering h.sub hs (not_or.1 hkind).2).andThen (Nat.le_succ n) fun _ =>
        Runs.mono ?_ (Nat.le_succ n)
      exact (Runs.skipKinds _).seq fun _ => (ih hpred).seq fun _ => .pure _

theorem runs_scope (h : Fueled n sub₁ f₁ sub₂ f₂) (t : Token) :
    Runs n n (scope sub₁ f₁ t) (scope sub₂ f₂ t) := by
  refine (runs_statements h).seq fun _ => ?_
  exact (Runs.expect (by decide) .blockEnd).seq fun _ => .pure _

theorem runs_unary (h : Fueled n sub₁ f₁ sub₂ f₂) (t : Token) (build : Node → Expr Node) :
    Runs n n (unary sub₁ t build) (unary sub₂ t build) :=
  (h.runs (by decide)).seq fun _ => .pure _

theorem rightPrecedence_ne_none (kind : TokenKind) : rightPrecedence kind ≠ .none := by
  unfold rightPrecedence
  split
  · decide
  · cases Precedence.ofToken kind <;> decide

theorem runs_binary (h : Fueled n sub₁ f₁ sub₂ f₂) (t : Token) (build : Node → Expr Node) :
    Runs n n (binary sub₁ t build) (binary sub₂ t build) :=
  (h.runs (rightPrecedence_ne_none t.kind)).seq fun _ => .pure _

theorem runs_continueWith (h : Fueled n sub₁ f₁ sub₂ f₂) (t : Token) (left : Node) :
    Runs n n (continueWith sub₁ f₁ t left) (continueWith sub₂ f₂ t left) := by
  unfold continueWith
  split
  · exact (runs_commaSeparated h (by decide) _).seq fun _ => .pure _
  · exact h.expression.seq fun _ => (Runs.expect (by decide) _).seq fun _ => .pure _
  · exact (Runs.of_step fun _ => runs_expectName _).seq fun _ => .pure _
  · exact runs_binary h t _
  · exact runs_binary h t _
  · exact runs_binary h t _
  · exact runs_binary h t _
  · exact runs_binary h t _
  · exact .pure left

theorem ne_endOfInput_of_le {kind : TokenKind} (hprec : prec ≠ .none)
    (h : prec ≤ Precedence.ofToken kind) : kind ≠ .endOfInput := by
  rintro rfl
  cases prec <;> first | exact hprec rfl | exact absurd h (by decide)

theorem runs_continuations (h : Fueled n sub₁ f₁ sub₂ f₂) (hprec : prec ≠ .none) (left : Node) :
    Runs n n (continuations sub₁ prec f₁ left) (continuations sub₂ prec f₂ left) := by
  induction n generalizing f₁ f₂ left with
  | zero => exact .zero
  | succ n ih =>
    obtain ⟨g₁, g₂, rfl, rfl, hpred⟩ := h.pred
    intro s hs
    refine agree_current.bind fun t s' ht => ?_
    obtain ⟨rfl, rfl⟩ := ht
    split
    · rename_i hle
      refine (agree_advance hs (ne_endOfInput_of_le hprec hle)).andThen (Nat.le_succ n) fun _ => ?_
      refine Runs.mono ?_ (Nat.le_succ n)
      exact Runs.previous.seq fun t =>
        (runs_continueWith hpred t left).seq fun node => ih hpred node
    · exact Runs.pure left s' hs

theorem runs_assignment (h : Fueled n sub₁ f₁ sub₂ f₂) (target : Node) :
    Runs n n (assignment sub₁ target) (assignment sub₂ target) := by
  refine Runs.current.seq fun t => ?_
  split
  · exact Runs.advance.seq fun _ => h.expression.seq fun _ => .pure _
  · exact Runs.advance.seq fun _ => h.expression.seq fun _ => .pure _
  · exact .pure target

theorem runs_bindings (h : Fueled n sub₁ f₁ sub₂ f₂) :
    Runs n n (bindings sub₁ f₁) (bindings sub₂ f₂) := by
  induction n generalizing f₁ f₂ with
  | zero => exact .zero
  | succ n ih =>
    obtain ⟨g₁, g₂, rfl, rfl, hpred⟩ := h.pred
    refine (runs_expectName _).bind (Nat.le_succ n) fun name => Runs.mono ?_ (Nat.le_succ n)
    refine Runs.previous.seq fun t => (Runs.accept .assign).seq fun _ => ?_
    have hend : ∀ value : Node, Runs n n
        (do
          if ← accept .comma then return ⟨name, value⟩ :: (← bindings sub₁ g₁)
          else return [⟨name, value⟩])
        (do
          if ← accept .comma then return ⟨name, value⟩ :: (← bindings sub₂ g₂)
          else return [⟨name, value⟩]) := by
      intro value
      refine (Runs.accept .comma).seq fun _ => .ite (fun _ => ?_) fun _ => .pure _
      exact (ih hpred).seq fun _ => .pure _
    refine .ite (fun _ => ?_) fun _ => ?_
    · exact (hpred.runs (by decide)).seq hend
    · exact (Runs.pure _).seq hend

theorem runs_parameters (h₁ : n ≤ f₁) (h₂ : n ≤ f₂) : Runs n n (parameters f₁) (parameters f₂) := by
  induction n generalizing f₁ f₂ with
  | zero => exact .zero
  | succ n ih =>
    obtain ⟨g₁, rfl⟩ : ∃ g, f₁ = g + 1 := ⟨f₁ - 1, by omega⟩
    obtain ⟨g₂, rfl⟩ : ∃ g, f₂ = g + 1 := ⟨f₂ - 1, by omega⟩
    refine (runs_expectName _).bind (Nat.le_succ n) fun name => Runs.mono ?_ (Nat.le_succ n)
    refine (Runs.accept .dotDot).seq fun variadic => (Runs.accept .comma).seq fun _ => ?_
    refine .ite (fun _ => ?_) fun _ => .pure _
    have hrest : Runs n n (do let p ← parameters g₁; return (name :: p.1, p.2))
        (do let p ← parameters g₂; return (name :: p.1, p.2)) :=
      (ih (by omega) (by omega)).seq fun _ => .pure _
    refine .ite (fun _ => ?_) fun _ => hrest
    exact Runs.current.seq fun t => (Runs.failAt t _).seq fun _ => hrest

theorem runs_function (h : Fueled n sub₁ f₁ sub₂ f₂) :
    Runs n n (function sub₁ f₁) (function sub₂ f₂) := by
  refine (Runs.expect (by decide) _).seq fun _ => (Runs.check .rightParen).seq fun _ => ?_
  have hend : ∀ p : List String × Bool, Runs n n
      (do
        expect .rightParen .parametersEnd
        return (⟨p.1, p.2, ← expression sub₁⟩ : Function Node))
      (do
        expect .rightParen .parametersEnd
        return ⟨p.1, p.2, ← expression sub₂⟩) :=
    fun p => (Runs.expect (by decide) _).seq fun _ => h.expression.seq fun _ => .pure _
  refine .ite (fun _ => ?_) fun _ => ?_
  · exact (Runs.pure _).seq hend
  · exact (runs_parameters h.left h.right).seq hend

theorem runs_functionExpr (h : Fueled n sub₁ f₁ sub₂ f₂) (t : Token) :
    Runs n n (functionExpr sub₁ f₁ t) (functionExpr sub₂ f₂ t) := by
  refine (Runs.accept .identifier).seq fun _ => .ite (fun _ => ?_) fun _ => ?_
  · exact Runs.previous.seq fun _ => (runs_function h).seq fun _ => .pure _
  · exact (runs_function h).seq fun _ => .pure _

theorem agree_checkName (word : String) :
    Agree (checkName word) (checkName word) s
      (fun found s' => s' = s ∧ (found = true → s.current.kind ≠ .endOfInput)) E := by
  refine ⟨rfl, rfl, fun hfound => ?_⟩
  have hname : (s.current.kind == .identifier && s.current.lexeme == word) = true := hfound
  rw [Bool.and_eq_true, beq_iff_eq] at hname
  rw [hname.1]
  decide

theorem runs_member (h : Fueled n sub₁ f₁ sub₂ f₂) (body : TypeBody Node) :
    Runs (n + 1) n (member sub₁ f₁ body) (member sub₂ f₂ body) := by
  have hdone : ∀ build : Function Node → TypeBody Node,
      Runs n n (do let f ← function sub₁ f₁; pure (build f))
        (do let f ← function sub₂ f₂; pure (build f)) :=
    fun build => (runs_function h).seq fun f => .pure (build f)
  intro s hs
  refine (agree_accept (by decide) hs).bind fun found s₁ hs₁ => ?_
  split
  · -- a method
    refine Runs.within ?_ (hs₁.2 ‹_›) (Nat.le_succ n)
    exact (Runs.of_step fun _ => runs_expectName _).seq fun name => hdone _
  obtain ⟨hs₁, -⟩ := hs₁
  refine (agree_checkName "ctor").bind fun found s₂ hs₂ => ?_
  obtain ⟨rfl, hfound⟩ := hs₂
  split
  · refine (agree_advance hs₁ (hfound ‹_›)).andThen (Nat.le_succ n) fun _ =>
      .ite (fun _ => ?_) fun _ => hdone _
    exact Runs.previous.seq fun t => (Runs.failAt t _).seq fun _ => hdone _
  refine (agree_checkName "invoke").bind fun found s₃ hs₃ => ?_
  obtain ⟨rfl, hfound⟩ := hs₃
  split
  · refine (agree_advance hs₁ (hfound ‹_›)).andThen (Nat.le_succ n) fun _ =>
      .ite (fun _ => ?_) fun _ => hdone _
    exact Runs.previous.seq fun t => (Runs.failAt t _).seq fun _ => hdone _
  refine (agree_checkName "prefix").bind fun isPrefix s₄ hs₄ =>
    (agree_checkName "infix").bind fun isInfix s₅ hs₅ => ?_
  obtain ⟨rfl, hprefix⟩ := hs₄
  obtain ⟨rfl, hinfix⟩ := hs₅
  split
  · have hname : s₅.current.kind ≠ .endOfInput := by
      rename_i hfound
      rcases Bool.or_eq_true_iff.1 hfound with hfound | hfound
      · exact hprefix hfound
      · exact hinfix hfound
    refine (agree_advance hs₁ hname).andThen (Nat.le_succ n) fun _ => ?_
    refine Runs.previous.seq fun place => Runs.current.seq fun t =>
      .ite (fun _ => Runs.current.seq fun t => (Runs.failAt t _).seq fun _ => ?_) fun _ => ?_
    all_goals
      refine Runs.advance.seq fun _ => Runs.previous.seq fun _ => (runs_function h).seq fun _ => ?_
      exact .ite (fun _ => .pure _) fun _ => .pure _
  · exact Runs.within (Runs.current.seq fun t => Runs.failAt t _) hs₁ (Nat.le_refl _)

theorem runs_members (h : Fueled n sub₁ f₁ sub₂ f₂) (body : TypeBody Node) :
    Runs n n (members sub₁ f₁ body) (members sub₂ f₂ body) := by
  induction n generalizing f₁ f₂ body with
  | zero => exact .zero
  | succ n ih =>
    obtain ⟨g₁, g₂, rfl, rfl, hpred⟩ := h.pred
    refine Runs.current.seq fun t => .ite (fun _ => .pure body) fun _ => ?_
    refine (runs_member hpred body).bind (Nat.le_succ n) fun body => Runs.mono ?_ (Nat.le_succ n)
    exact (Runs.skipKinds _).seq fun _ => ih hpred body

theorem runs_typeDefinition (h : Fueled n sub₁ f₁ sub₂ f₂) (t : Token) :
    Runs n n (typeDefinition sub₁ f₁ t) (typeDefinition sub₂ f₂ t) := by
  refine (Runs.of_step fun _ => runs_expectName _).seq fun _ =>
    (Runs.expect (by decide) _).seq fun _ => ?_
  exact (runs_members h _).seq fun _ => (Runs.expect (by decide) _).seq fun _ => .pure _

theorem runs_elseBranch (h : Fueled n sub₁ f₁ sub₂ f₂) :
    Runs n n (elseBranch sub₁) (elseBranch sub₂) := by
  refine (Runs.accept _).seq fun _ => .ite (fun _ => ?_) fun _ => .pure _
  exact h.expression.seq fun _ => .pure _

theorem runs_conditional (h : Fueled n sub₁ f₁ sub₂ f₂) (t : Token) :
    Runs n n (conditional sub₁ t) (conditional sub₂ t) :=
  h.expression.seq fun _ => h.expression.seq fun _ => (runs_elseBranch h).seq fun _ => .pure _

theorem runs_loop (h : Fueled n sub₁ f₁ sub₂ f₂) (t : Token) :
    Runs n n (loop sub₁ t) (loop sub₂ t) :=
  h.expression.seq fun _ => h.expression.seq fun _ => (runs_elseBranch h).seq fun _ => .pure _

theorem runs_pattern (h : Fueled (n + 1) sub₁ f₁ sub₂ f₂) :
    Runs (n + 1) n (pattern sub₁) (pattern sub₂) := by
  intro s hs
  refine (agree_checkName "_").bind fun found s' hs' => ?_
  obtain ⟨rfl, hfound⟩ := hs'
  split
  · exact (agree_advance hs (hfound ‹_›)).andThen (Nat.le_succ n) fun _ => .pure none
  · exact (h.sub.step (by decide) s' hs).andThen (Nat.le_succ n) fun _ => .pure _

theorem runs_arms (h : Fueled n sub₁ f₁ sub₂ f₂) : Runs n n (arms sub₁ f₁) (arms sub₂ f₂) := by
  induction n generalizing f₁ f₂ with
  | zero => exact .zero
  | succ n ih =>
    obtain ⟨g₁, g₂, rfl, rfl, hpred⟩ := h.pred
    refine Runs.current.seq fun t => .ite (fun _ => .pure []) fun _ => ?_
    refine (runs_pattern h).bind (Nat.le_succ n) fun _ => Runs.mono ?_ (Nat.le_succ n)
    refine (Runs.expect (by decide) _).seq fun _ => hpred.expression.seq fun _ =>
      (Runs.skipKinds _).seq fun _ => ?_
    exact (ih hpred).seq fun _ => .pure _

theorem runs_matchCases (h : Fueled n sub₁ f₁ sub₂ f₂) (t : Token) :
    Runs n n (matchCases sub₁ f₁ t) (matchCases sub₂ f₂ t) := by
  refine h.expression.seq fun _ => (Runs.expect (by decide) _).seq fun _ =>
    (runs_arms h).seq fun _ => ?_
  exact (Runs.expect (by decide) _).seq fun _ => .pure _

theorem runs_returnExpr (h : Fueled n sub₁ f₁ sub₂ f₂) (t : Token) :
    Runs n n (returnExpr sub₁ t) (returnExpr sub₂ t) := by
  refine Runs.current.seq fun _ => .ite (fun _ => .pure _) fun _ => ?_
  exact h.expression.seq fun _ => .pure _

theorem runs_intLiteral (t : Token) : Runs n n (intLiteral t) (intLiteral t) := by
  unfold intLiteral
  split
  · exact .pure _
  · exact .failAt t _

theorem runs_floatLiteral (t : Token) : Runs n n (floatLiteral t) (floatLiteral t) := by
  unfold floatLiteral
  split
  · exact .pure _
  · exact .failAt t _

theorem runs_stringLiteral (t : Token) : Runs n n (stringLiteral t) (stringLiteral t) := by
  unfold stringLiteral
  split
  · exact .pure _
  · exact .failAt t _

theorem runs_startWith (h : Fueled n sub₁ f₁ sub₂ f₂) (t : Token) :
    Runs n n (startWith sub₁ f₁ t) (startWith sub₂ f₂ t) := by
  unfold startWith
  split
  · exact runs_grouping h t
  · exact (runs_commaSeparated h (by decide) _).seq fun _ => .pure _
  · exact runs_scope h t
  · exact runs_unary h t _
  · exact runs_unary h t _
  · exact runs_unary h t _
  · exact runs_unary h t _
  · exact runs_unary h t _
  · exact runs_unary h t _
  · exact runs_intLiteral t
  · exact runs_floatLiteral t
  · exact runs_stringLiteral t
  · exact .pure _
  · exact .pure _
  · exact .pure _
  · exact .pure _
  · exact .pure _
  · exact (runs_bindings h).seq fun _ => .pure _
  · exact runs_functionExpr h t
  · exact runs_typeDefinition h t
  · exact runs_conditional h t
  · exact runs_loop h t
  · exact runs_matchCases h t
  · exact runs_returnExpr h t
  · exact .failAt t _

end Rules

theorem parsePrecedence_of_unopened
    (hstart : ∀ sub fuel, startWith sub fuel s.current = failAt s.current .expression) (fuel : Nat)
    (prec : Precedence) :
    parsePrecedence (fuel + 1) prec s = .error (.grammar (unmetAt s.current .expression))
      s.advance := by
  have hadvance : advance s = .ok () s.advance := rfl
  have hprevious : previous s.advance = .ok s.current s.advance := rfl
  rw [parsePrecedence, run_bind hadvance, run_bind hprevious, hstart]
  rfl

theorem parsePrecedence_of_end (hcurrent : s.current.kind = .endOfInput) (fuel : Nat)
    (prec : Precedence) : parsePrecedence (fuel + 1) prec s =
      .error (.grammar (unmetAt s.current .expression)) s.advance :=
  parsePrecedence_of_unopened (fun _ _ => by simp only [startWith, hcurrent]) fuel prec

theorem advances_parsePrecedence (h₁ : n ≤ f₁) (h₂ : n ≤ f₂) :
    Advances n (parsePrecedence f₁) (parsePrecedence f₂) := by
  induction n generalizing f₁ f₂ with
  | zero => exact fun _ _ k hk => absurd hk (Nat.not_lt_zero k)
  | succ n ih =>
    obtain ⟨g₁, rfl⟩ : ∃ g, f₁ = g + 1 := ⟨f₁ - 1, by omega⟩
    obtain ⟨g₂, rfl⟩ : ∃ g, f₂ = g + 1 := ⟨f₂ - 1, by omega⟩
    intro prec hprec k hk s hs
    by_cases hcurrent : s.current.kind = .endOfInput
    · refine ⟨?_, ?_⟩
      · rw [parsePrecedence_of_end hcurrent, parsePrecedence_of_end hcurrent]
      · rw [parsePrecedence_of_end hcurrent]
        exact ⟨hs.advance, fun hne => absurd hcurrent hne⟩
    · have hfueled : Fueled k (parsePrecedence g₁) g₁ (parsePrecedence g₂) g₂ :=
        ⟨(ih (by omega) (by omega)).mono (by omega), by omega, by omega⟩
      have hagree : Agree (parsePrecedence (g₁ + 1) prec) (parsePrecedence (g₂ + 1) prec) s
          (fun _ => State.Below k) (State.Below k) := by
        refine (agree_advance hs hcurrent).andThen (Nat.le_refl k) fun _ =>
          Runs.previous.seq fun t => ?_
        refine (runs_startWith hfueled t).seq fun first =>
          (runs_continuations hfueled hprec first).seq fun node => ?_
        exact .ite (fun _ => runs_assignment hfueled node) fun _ => .pure node
      exact hagree.imp (fun _ _ h => h) fun _ h => ⟨h.mono (Nat.le_succ k), fun _ => h⟩

theorem fueled_parsePrecedence (h₁ : n ≤ f₁) (h₂ : n ≤ f₂) :
    Fueled n (parsePrecedence f₁) f₁ (parsePrecedence f₂) f₂ :=
  ⟨advances_parsePrecedence h₁ h₂, h₁, h₂⟩

/-- A program is read to the end of the text, and nothing that goes wrong in it stops that. -/
theorem agree_program (h : Fueled n sub₁ f₁ sub₂ f₂) (hs : s.Below n) :
    Agree (program sub₁ f₁) (program sub₂ f₂) s
      (fun _ s' => s'.current.kind = .endOfInput ∧ s'.rest = []) fun _ => False := by
  induction n generalizing f₁ f₂ s with
  | zero => exact absurd hs.short (Nat.not_lt_zero _)
  | succ n ih =>
    obtain ⟨g₁, g₂, rfl, rfl, hpred⟩ := h.pred
    refine agree_current.bind fun t s' ht => ?_
    obtain ⟨rfl, rfl⟩ := ht
    split
    · rename_i hkind
      exact ⟨rfl, hkind, hs.rest_eq_nil hkind⟩
    · rename_i hkind
      refine (agree_recovering h.sub hs hkind).bind fun item s₁ hs₁ => ?_
      have hskip : Agree skipSemicolons skipSemicolons s₁ (fun _ => State.Below n) fun _ => False :=
        ⟨rfl, hs₁.skip _⟩
      refine hskip.bind fun _ s₂ hs₂ => (ih hpred hs₂).bind fun _ s₃ hs₃ => ⟨rfl, hs₃⟩

/-- Reads tokens as a program, with a given fuel. -/
def readWith (fuel : Nat) (tokens : List Token) : EStateM.Result Failure State (List Node) :=
  (do advance; program (parsePrecedence fuel) fuel : Parser (List Node)).run (.ofTokens tokens)

theorem Ends.of_tiled {before rest : List Char} (h : Scan.Tiled before rest ts) : Ends ts := by
  induction h with
  | last _ hkind => exact .last hkind
  | token _ _ hkind _ _ _ _ ih => exact .cons hkind ih

theorem agree_readWith (h : Ends ts) (h₁ : ts.length ≤ f₁) (h₂ : ts.length ≤ f₂) :
    Agree (do advance; program (parsePrecedence f₁) f₁)
      (do advance; program (parsePrecedence f₂) f₂) (.ofTokens ts)
      (fun _ s => s.current.kind = .endOfInput ∧ s.rest = []) fun _ => False := by
  have hfirst : Agree advance advance (.ofTokens ts) (fun _ => State.Below ts.length) fun _ =>
      False := by
    obtain ⟨hends, hshort⟩ := h.nextToken (State.ofTokens ts).current
    exact ⟨rfl, hends, hshort⟩
  exact hfirst.bind fun _ s hs => agree_program (fueled_parsePrecedence h₁ h₂) hs

/-- A parser that fails neither for the grammar nor for want of fuel gives a result. -/
theorem Agree.exists_ok {α : Type} {x y : Parser α} {Q : α → State → Prop}
    (h : Agree x y s Q fun _ => False) : ∃ a s', x s = .ok a s' ∧ Q a s' := by
  have hended := h.ended
  cases hrun : x s with
  | ok a s' =>
    rw [hrun] at hended
    exact ⟨a, s', rfl, hended⟩
  | error e s' =>
    rw [hrun] at hended
    cases e with
    | grammar d | exhausted => exact hended.elim

theorem exists_readWith (h : Ends ts) :
    ∃ items s, (∀ fuel, ts.length ≤ fuel → readWith fuel ts = .ok items s) ∧
      s.current.kind = .endOfInput ∧ s.rest = [] := by
  obtain ⟨items, s, hrun, hend⟩ := (agree_readWith h (Nat.le_refl _) (Nat.le_refl _)).exists_ok
  exact ⟨items, s, fun fuel hfuel => (agree_readWith h hfuel (Nat.le_refl _)).same.trans hrun, hend⟩

/-- Below any number of tokens, as much fuel is enough, and more of it changes nothing. -/
def Settles {α : Type} (x : Nat → Parser α) : Prop :=
  ∀ n f₁ f₂, n ≤ f₁ → n ≤ f₂ → Runs n n (x f₁) (x f₂)

theorem Settles.of_fueled {α : Type} {x : (Precedence → Parser Node) → Nat → Parser α}
    (h : ∀ {n sub₁ f₁ sub₂ f₂}, Fueled n sub₁ f₁ sub₂ f₂ → Runs n n (x sub₁ f₁) (x sub₂ f₂)) :
    Settles fun fuel => x (parsePrecedence fuel) fuel :=
  fun _ _ _ h₁ h₂ => h (fueled_parsePrecedence h₁ h₂)

/-- Reading a text comes to an end, at the end of the text, with any fuel for its tokens. That is
because every expression takes a token or fails at the end of the text, and every loop goes on only
after it has taken one; and the texts of the tokens can be cut out of the source, those of strings
between their quotes. -/
theorem parse_terminates (source : String) :
    (∃ items s, (∀ fuel, (Scan.tokens source).length ≤ fuel → readWith fuel (Scan.tokens source) =
      .ok items s) ∧
      s.current.kind = .endOfInput ∧ s.rest = [] ∧ parse source = ⟨items, s.diagnostics⟩) ∧
    (∀ n f₁ f₂, n ≤ f₁ → n ≤ f₂ → Advances n (parsePrecedence f₁) (parsePrecedence f₂)) ∧
    (Settles (fun fuel => statements (parsePrecedence fuel) fuel) ∧
      (∀ close, Settles fun fuel => elements (parsePrecedence fuel) close fuel) ∧
      (∀ prec left, prec ≠ .none →
        Settles fun fuel => continuations (parsePrecedence fuel) prec fuel left) ∧
      Settles (fun fuel => bindings (parsePrecedence fuel) fuel) ∧
      Settles parameters ∧
      (∀ body, Settles fun fuel => members (parsePrecedence fuel) fuel body) ∧
      Settles fun fuel => arms (parsePrecedence fuel) fuel) ∧
    ∀ t ∈ Scan.tokens source,
      (t.start ≤ t.stop ∧ String.Pos.Raw.IsValid source ⟨t.start⟩ ∧
        String.Pos.Raw.IsValid source ⟨t.stop⟩) ∧
      (t.kind = .string → ∃ body, t.lexeme = String.ofList ('"' :: (body ++ ['"']))) := by
  obtain ⟨items, s, hrun, hend⟩ := exists_readWith (.of_tiled (Scan.tiled_tokens source))
  refine ⟨⟨items, s, hrun, hend.1, hend.2, ?_⟩, ?_, ⟨?_, ?_, ?_, ?_, ?_, ?_, ?_⟩, ?_⟩
  · have hparse : ofTokens (Scan.tokens source) = .ok items s := hrun _ (Nat.le_succ _)
    simp only [parse, hparse]
  · exact fun n f₁ f₂ h₁ h₂ => advances_parsePrecedence h₁ h₂
  · exact .of_fueled runs_statements
  · exact fun close => .of_fueled fun h => runs_elements h close
  · exact fun prec left hprec => .of_fueled fun h => runs_continuations h hprec left
  · exact .of_fueled runs_bindings
  · exact fun n f₁ f₂ h₁ h₂ => runs_parameters h₁ h₂
  · exact fun body => .of_fueled fun h => runs_members h body
  · exact .of_fueled runs_arms
  · exact fun t ht => ⟨Scan.isValid_of_mem_tokens ht, Scan.quoted_of_mem_tokensFrom _ t ht⟩

end Parse
end Refscript
