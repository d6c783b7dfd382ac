import Refscript.Proofs.Syntax.Taking

/-!
# Refscript.Proofs.Syntax.Reading

Precedence climbing reads back what `Term.print` writes.

* `Parse.Climbs`: reading an expression comes to the point where its operators are continued, with
  all of it read. This is what an operator needs of the operand on its left.
* `Parse.ReadsAt`: reading at a precedence takes the tokens of an expression and no more.
* `parse_print`: the whole text of an expression is read as the expression, without complaints.
-/

namespace Refscript
namespace Parse

/-- The tokens after an expression do not continue it at the precedence. -/
def Bounded (prec : Precedence) (rest : List Token) : Prop :=
  ∀ t ∈ rest.head?, ¬prec ≤ .ofToken t.kind

/-- Whether a kind of token is the sign of an assignment. -/
def isAssigner : TokenKind → Bool
  | .assign | .compoundAssign _ => true
  | _ => false

/-- The tokens after an expression end it at the precedence. -/
structure Stops (prec : Precedence) (rest : List Token) : Prop where
  bounded : Bounded prec rest
  unassigned : prec ≤ .assignment → ∀ t ∈ rest.head?, isAssigner t.kind = false

end Parse

theorem Precedence.le_iff {p q : Precedence} : p ≤ q ↔ p.rank ≤ q.rank := .rfl

theorem Precedence.rank_next {p : Precedence} (h : p.rank < 16) : p.next.rank = p.rank + 1 := by
  cases p with
  | primary => exact absurd h (by decide)
  | _ => rfl

namespace Binary

theorem ofToken_lexeme (op : Binary) : Precedence.ofToken op.lexeme.kind = op.level := by
  cases op with
  | symbol s => cases s <;> rfl
  | and | or => rfl

theorem rightPrecedence_lexeme (op : Binary) :
    Parse.rightPrecedence op.lexeme.kind = op.rightLevel := by
  cases op with
  | symbol s =>
    cases s with
    | operator o => cases o <;> rfl
    | equal | notEqual => rfl
  | and | or => rfl

/-- Operators bind tighter than assignments, and looser than anything but operators; only those that
group from the right have the tightest level. -/
theorem level_bounds (op : Binary) :
    2 ≤ op.level.rank ∧ op.level.rank ≤ (if op.groupsRight then 13 else 12) := by
  cases op with
  | symbol s =>
    cases s with
    | operator o => cases o <;> decide
    | equal | notEqual => decide
  | and | or => decide

theorem level_of_groupsRight {op : Binary} (h : op.groupsRight = true) : op.level = .power := by
  unfold groupsRight at h
  split at h
  · rfl
  · cases h

theorem rank_leftLevel (op : Binary) :
    op.leftLevel.rank = if op.groupsRight then 14 else op.level.rank := by
  unfold leftLevel
  split
  · rename_i h
    rw [level_of_groupsRight h]
    rfl
  · rfl

theorem rank_rightLevel (op : Binary) :
    op.rightLevel.rank = if op.groupsRight then 13 else op.level.rank + 1 := by
  have hbounds := op.level_bounds
  unfold rightLevel
  split
  · rename_i h
    rw [level_of_groupsRight h]
    rfl
  · exact Precedence.rank_next (by split at hbounds <;> omega)

end Binary

namespace Term

/-- The precedence at which the last operand of an expression is read; what binds as tightly would
go to it. -/
def tail : Term → Precedence
  | .unary .. => .unary
  | .binary op .. => op.rightLevel
  | .assign .. => .assignment
  | _ => .primary

/-- The same for an expression that may stand in parentheses. -/
def reach (p : Precedence) (t : Term) : Precedence :=
  if p ≤ t.level then t.tail else .primary

theorem level_le_tail (t : Term) : t.level.rank ≤ t.tail.rank := by
  cases t with
  | binary op l r =>
    have hlevel := op.level_bounds
    have hright := op.rank_rightLevel
    simp only [level, tail]
    grind
  | _ => exact Nat.le_of_ble_eq_true rfl

theorem le_reach (p : Precedence) (t : Term) : p.rank ≤ (t.reach p).rank := by
  unfold reach
  split
  · rename_i h
    exact Nat.le_trans h t.level_le_tail
  · cases p <;> decide

theorem call_lt_reach (t : Term) : Precedence.call.rank < (t.reach .call).rank := by
  unfold reach
  split
  · rename_i h
    cases t with
    | binary op l r =>
      have hlevel := op.level_bounds
      have hcall : 15 ≤ op.level.rank := h
      split at hlevel <;> omega
    | unary op x => exact absurd (show 15 ≤ 14 from h) (by decide)
    | assign op x v => exact absurd (show 15 ≤ 1 from h) (by decide)
    | _ => exact Nat.lt_succ_self 15
  · exact Nat.lt_succ_self 15

theorem level_lt_reach (op : Binary) (l : Term) : op.level.rank < (l.reach op.leftLevel).rank := by
  have hlevel := op.level_bounds
  have hleft := op.rank_leftLevel
  unfold reach
  split
  · rename_i h
    rw [Precedence.le_iff, hleft] at h
    cases l with
    | binary op' a b =>
      have hlevel' := op'.level_bounds
      have hright := op'.rank_rightLevel
      simp only [level, tail] at h ⊢
      rw [hright]
      grind
    | unary op' x =>
      have : (tail (.unary op' x)).rank = 14 := rfl
      grind
    | assign op' x v =>
      have : (level (.assign op' x v)).rank = 1 := rfl
      grind
    | _ =>
      have hprimary : Precedence.primary.rank = 16 := rfl
      simp only [tail]
      grind
  · have hprimary : Precedence.primary.rank = 16 := rfl
    grind

end Term

namespace Parse

/-- Tokens that end an expression at any precedence. -/
def isEnd : TokenKind → Bool
  | .rightParen | .rightBracket | .comma | .endOfInput => true
  | _ => false

theorem stops_of_isEnd {p : Precedence} {t : Token} {rest : List Token} (h : isEnd t.kind = true)
    (hp : Precedence.assignment ≤ p) : Stops p (t :: rest) := by
  have hnone : Precedence.ofToken t.kind = .none ∧ isAssigner t.kind = false := by
    cases hkind : t.kind <;> simp_all [isEnd, Precedence.ofToken, isAssigner]
  constructor
  · rintro u ⟨⟩
    rw [hnone.1]
    exact Nat.not_le.2 hp
  · rintro - u ⟨⟩
    exact hnone.2

theorem Bounded.of_le {p q : Precedence} {rest : List Token} (h : Bounded p rest)
    (hpq : p.rank ≤ q.rank) : Bounded q rest :=
  fun t ht hle => h t ht (Nat.le_trans hpq hle)

theorem bounded_cons {p : Precedence} {t : Token} {rest : List Token}
    (h : (Precedence.ofToken t.kind).rank < p.rank) : Bounded p (t :: rest) := by
  rintro u ⟨⟩
  exact Nat.not_le.2 h

/-- An expression up to where its operators are continued. -/
def climb (fuel : Nat) (prec : Precedence) : Parser Node := do
  advance
  let first ← startWith (parsePrecedence fuel) fuel (← previous)
  continuations (parsePrecedence fuel) prec fuel first

theorem parsePrecedence_succ (fuel : Nat) (prec : Precedence) :
    parsePrecedence (fuel + 1) prec = (do
      let node ← climb fuel prec
      if prec ≤ .assignment then assignment (parsePrecedence fuel) node else return node) := by
  simp only [parsePrecedence, climb, bind_assoc]

/-- Reading at the precedence takes the tokens of the expression and no more. -/
def ReadsAt (prec : Precedence) (t : Term) : Prop :=
  ∀ ⦃fuel : Nat⦄ ⦃prev : Token⦄ ⦃ds : List Diagnostic⦄ ⦃ts rest : List Token⦄,
    Supply (t.printed prec) fuel ts rest → Stops prec rest →
      Takes (parsePrecedence fuel prec) (.ahead prev (ts ++ rest) ds) t.Describes rest

/-- Reading at a precedence up to `level` comes to where operators are continued, with the given
tokens read as the expression; what comes after them does not bind as tightly as `tail`. -/
def Climbs (ls : List Lexeme) (level tail : Precedence) (t : Term) : Prop :=
  ∀ ⦃fuel : Nat⦄ ⦃prec : Precedence⦄ ⦃ts rest : List Token⦄,
    prec ≤ level → Supply ls (fuel + 1) ts rest → Bounded tail rest →
      ∀ (prev : Token) (ds : List Diagnostic),
      ∃ n prev' k, rest.length ≤ k ∧ k ≤ fuel ∧ t.Describes n ∧
        climb fuel prec (.ahead prev (ts ++ rest) ds) =
          continuations (parsePrecedence fuel) prec k n (.ahead prev' rest ds)

section Climbs

variable {t x : Term} {l : Lexeme} {ls : List Lexeme} {level tail p : Precedence}

theorem climbs_of_start
    (h : ∀ ⦃fuel : Nat⦄ ⦃tok : Token⦄ ⦃ds : List Diagnostic⦄ ⦃us rest : List Token⦄,
      tok.kind = l.kind → tok.form.Alike l → Supply ls fuel us rest → Bounded tail rest →
        Takes (startWith (parsePrecedence fuel) fuel tok) (.ahead tok (us ++ rest) ds)
          t.Describes rest) :
    Climbs (l :: ls) level tail t := by
  intro fuel prec ts rest _ hfeed hbound prev ds
  obtain ⟨tok, us, rfl, hkind, htok, hus⟩ := hfeed.uncons
  obtain ⟨n, prev', hrun, hn⟩ :
      Takes (startWith (parsePrecedence fuel) fuel tok) (.ahead tok (us ++ rest) ds)
        t.Describes rest :=
    h hkind htok hus hbound
  refine ⟨n, prev', fuel, hus.length_rest, Nat.le_refl _, hn, ?_⟩
  rw [climb, List.cons_append, run_bind (run_advance hus.ahead), run_bind run_previous,
    run_bind hrun]
  rfl

/-- One turn: a token that binds at `level` continues an expression that was printed for it. -/
theorem climbs_of_turn (hx : Climbs (x.printed p) p (x.reach p) x)
    (hlevel : Precedence.ofToken l.kind = level) (hp : level.rank ≤ p.rank)
    (hreach : level.rank < (x.reach p).rank)
    (h : ∀ ⦃fuel k : Nat⦄ ⦃tok : Token⦄ ⦃m : Node⦄ ⦃ds : List Diagnostic⦄ ⦃us rest : List Token⦄,
      tok.kind = l.kind → tok.form.Alike l → k ≤ fuel → Supply ls k us rest → Bounded tail rest →
      x.Describes m →
        Takes (continueWith (parsePrecedence fuel) k tok m) (.ahead tok (us ++ rest) ds)
          t.Describes rest) :
    Climbs (x.printed p ++ l :: ls) level tail t := by
  intro fuel prec ts rest hprec hfeed hbound prev ds
  obtain ⟨ts₁, ts₂, rfl, hfeed₁, hfeed₂⟩ := hfeed.split
  obtain ⟨tok, us, rfl, hkind, htok, hus⟩ := hfeed₂.uncons
  -- the last operand of `x` does not take the token for itself
  have hafter : Bounded (x.reach p) (tok :: us ++ rest) := by
    apply bounded_cons
    rw [hkind, hlevel]
    exact hreach
  obtain ⟨m, prev₁, k, hk, hkfuel, hm, hclimb⟩ := hx (Nat.le_trans hprec hp) hfeed₁ hafter prev ds
  rw [List.cons_append, List.length_cons] at hk
  obtain ⟨k, rfl⟩ : ∃ k', k = k' + 1 := ⟨k - 1, by omega⟩
  have hus' : Supply ls k us rest := hus.within (by omega)
  obtain ⟨n, prev', hrun, hn⟩ :
      Takes (continueWith (parsePrecedence fuel) k tok m) (.ahead tok (us ++ rest) ds)
        t.Describes rest :=
    h hkind htok (by omega) hus' hbound hm
  refine ⟨n, prev', k, hus'.length_rest, by omega, hn, ?_⟩
  rw [List.append_assoc, hclimb, List.cons_append, continuations, run_bind run_current, hkind,
    hlevel, if_pos hprec, run_bind (run_advance hus.ahead), run_bind run_previous, run_bind hrun]
  rfl

theorem run_continuations {fuel k : Nat} {prev : Token} {rest : List Token} {ds : List Diagnostic}
    {n : Node} (hrest : Ready rest) (hbound : Bounded p rest) (hk : rest.length ≤ k) :
    continuations (parsePrecedence fuel) p k n (.ahead prev rest ds) =
      .ok n (.ahead prev rest ds) := by
  obtain ⟨tok, us, rfl⟩ := List.exists_cons_of_ne_nil hrest.more
  obtain ⟨k, rfl⟩ : ∃ k', k = k' + 1 := ⟨k - 1, by simp only [List.length_cons] at hk; omega⟩
  rw [continuations, run_bind run_current, if_neg (hbound tok rfl)]
  rfl

theorem run_assignment {sub : Precedence → Parser Node} {prev : Token} {rest : List Token}
    {ds : List Diagnostic} {n : Node} (hrest : Ready rest)
    (hassign : ∀ t ∈ rest.head?, isAssigner t.kind = false) :
    assignment sub n (.ahead prev rest ds) = .ok n (.ahead prev rest ds) := by
  obtain ⟨tok, us, rfl⟩ := List.exists_cons_of_ne_nil hrest.more
  have htok := hassign tok rfl
  rw [assignment, run_bind run_current]
  cases hkind : tok.kind with
  | assign | compoundAssign op =>
    rw [hkind] at htok
    cases htok
  | _ => rfl

theorem readsAt_of_climbs (h : Climbs (t.printed p) level tail t) (hlevel : p ≤ level)
    (htail : p.rank ≤ tail.rank) : ReadsAt p t := by
  intro fuel prev ds ts rest hfeed hstops
  obtain ⟨fuel, rfl⟩ := hfeed.fuel_eq
  obtain ⟨n, prev', k, hk, -, hn, hclimb⟩ := h hlevel hfeed (hstops.bounded.of_le htail) prev ds
  refine ⟨n, prev', ?_, hn⟩
  rw [parsePrecedence_succ,
    run_bind (hclimb.trans (run_continuations hfeed.ready hstops.bounded hk))]
  split
  · rename_i hp
    exact run_assignment hfeed.ready (hstops.unassigned hp)
  · rfl

end Climbs

theorem unescape_escaped (cs : List Char) : unescape (Scan.escaped cs) = some cs := by
  induction cs with
  | nil => rfl
  | cons c cs ih =>
    rw [Scan.escaped]
    split
    · rename_i hc
      have hchar : unescape.escapedChar c = c := by
        rcases hc with rfl | rfl <;> rfl
      rw [unescape, ih, hchar, Option.map_some]
    · rename_i hc
      rw [not_or] at hc
      rw [unescape, ih, Option.map_some]
      · exact fun h => absurd h hc.2
      · exact fun _ _ h => absurd h hc.2

theorem quotedBody_enclosed (body : List Char) :
    quotedBody (String.ofList ('"' :: (body ++ ['"']))) = body := by
  rw [quotedBody, String.toList_ofList, List.drop_one, List.tail_cons, List.dropLast_concat]

theorem quotedBody_quoted (s : String) : quotedBody (Scan.quoted s) = Scan.escaped s.toList :=
  quotedBody_enclosed _

theorem fit?_toInt (i : Int64) : Number.fit? i.toInt = some i := by
  rw [Number.fit?, if_pos ⟨i.minValue_le_toInt, i.toInt_le⟩, Int64.ofInt_toInt]

theorem fit?_natOfDigits (i : Int64) (h : 0 ≤ i.toInt) :
    Number.fit? (Decimal.natOfDigits (Decimal.digits i.toInt.toNat)) = some i := by
  have hdigits : Decimal.natOfDigits (Decimal.digits i.toInt.toNat) = i.toInt.toNat :=
    Nat.ofDigitChars_toDigits (by decide) (by decide)
  rw [hdigits, Int.toNat_of_nonneg h, fit?_toInt]

/-- The first of the lexemes ends no expression. -/
def Opens (ls : List Lexeme) : Prop :=
  ∃ l ∈ ls.head?, isEnd l.kind = false

theorem opens_cons {l : Lexeme} {ls : List Lexeme} (h : isEnd l.kind = false) : Opens (l :: ls) :=
  ⟨l, rfl, h⟩

theorem Opens.append {ls : List Lexeme} (h : Opens ls) (ls' : List Lexeme) : Opens (ls ++ ls') := by
  obtain ⟨l, hl, hkind⟩ := h
  exact ⟨l, by rw [List.head?_append, Option.mem_def.1 hl]; rfl, hkind⟩

theorem Opens.enclosed {ls : List Lexeme} (h : Opens ls) (p level : Precedence) :
    Opens (enclosed p level ls) := by
  unfold Refscript.enclosed
  split
  · exact h
  · exact opens_cons rfl

theorem opens_lexemes (t : Term) : Opens t.lexemes := by
  induction t using Term.induction_parts with
  | step t ih =>
    cases t with
    | unary op x => exact opens_cons (by cases op <;> rfl)
    | binary op x y | assign op x y | call x args | index x k | field x name =>
      exact ((ih x (by simp [Term.parts])).enclosed _ _).append _
    | _ => exact opens_cons rfl

section Opens

variable {ls : List Lexeme} {fuel : Nat} {ts rest : List Token} {prev : Token}
  {ds : List Diagnostic} {kind : TokenKind}

theorem Supply.first (h : Supply ls fuel ts rest) (ho : Opens ls) :
    ∃ t us, ts = t :: us ∧ isEnd t.kind = false := by
  obtain ⟨l, hl, hkind⟩ := ho
  obtain ⟨ls, rfl⟩ := List.head?_eq_some_iff.1 hl
  obtain ⟨t, us, rfl, ht, -⟩ := h.spelled.uncons
  exact ⟨t, us, rfl, (congrArg isEnd ht.kind).trans hkind⟩

theorem run_check_first (h : Supply ls fuel ts rest) (ho : Opens ls) (hend : isEnd kind = true) :
    check kind (.ahead prev (ts ++ rest) ds) = .ok false (.ahead prev (ts ++ rest) ds) := by
  obtain ⟨t, us, rfl, ht⟩ := h.first ho
  have hne : t.kind ≠ kind := fun heq => by rw [heq, hend] at ht; cases ht
  rw [List.cons_append, run_check, beq_eq_false_iff_ne.2 hne]

theorem run_accept_first (h : Supply ls fuel ts rest) (ho : Opens ls) (hend : isEnd kind = true) :
    accept kind (.ahead prev (ts ++ rest) ds) = .ok false (.ahead prev (ts ++ rest) ds) := by
  rw [accept, run_bind (run_check_first h ho hend)]
  rfl

end Opens

end Parse

theorem Term.assign_or_lt_level (t : Term) :
    (∃ op x v, t = .assign op x v) ∨ Precedence.assignment < t.level := by
  cases t with
  | assign op x v => exact .inl ⟨op, x, v, rfl⟩
  | binary op l r => exact .inr op.level_bounds.1
  | _ => exact .inr (Nat.le_of_ble_eq_true rfl)

theorem Term.printed_assignment (t : Term) : t.printed .assignment = t.lexemes := by
  rcases t.assign_or_lt_level with ⟨op, x, v, rfl⟩ | hlt
  · rfl
  · exact if_pos (Nat.le_of_lt hlt)

namespace Parse

section Lists

variable {x : Term} {items : List Term} {fuel k : Nat} {prev c : Token} {us rest : List Token}
  {ds : List Diagnostic}
variable {close : TokenKind}

theorem takes_expression (hx : ReadsAt .assignment x) (hfeed : Supply x.lexemes k us (c :: rest))
    (hk : k ≤ fuel) (hend : isEnd c.kind = true) :
    Takes (expression (parsePrecedence fuel)) (.ahead prev (us ++ c :: rest) ds) x.Describes
      (c :: rest) := by
  rw [← x.printed_assignment] at hfeed
  exact hx (hfeed.mono hk) (stops_of_isEnd hend (Nat.le_refl _))

theorem takes_elements (hclose : isEnd close = true) (hcomma : close ≠ .comma) (hk : k ≤ fuel)
    (hc : c.kind = close) (hread : ∀ y ∈ x :: items, ReadsAt .assignment y)
    (hfeed : Supply (Term.separated (x :: items)) k us (c :: rest)) :
    Takes (elements (parsePrecedence fuel) close k) (.ahead prev (us ++ c :: rest) ds)
      (List.Forall₂ Term.Describes (x :: items)) (c :: rest) := by
  induction items generalizing x k us prev with
  | nil =>
    obtain ⟨k, rfl⟩ := hfeed.fuel_eq
    rw [Term.separated, Term.continued, List.append_nil] at hfeed
    refine Takes.bind (takes_expression (hread x List.mem_cons_self) hfeed hk (hc ▸ hclose))
      fun n prev hn => ?_
    refine Takes.after (run_refuse (hc ▸ hcomma)) rfl ?_
    refine Takes.after run_check rfl ?_
    exact takes_pure (.cons hn .nil)
  | cons y ys ih =>
    obtain ⟨k, rfl⟩ := hfeed.fuel_eq
    obtain ⟨us₁, us₂, rfl, hfeed₁, hfeed₂⟩ := Supply.split hfeed
    obtain ⟨tok, us, rfl, hkind, -, hus⟩ := hfeed₂.uncons
    obtain ⟨hreadx, hread⟩ := List.forall_mem_cons.1 hread
    have hopens : Opens (Term.separated (y :: ys)) := (opens_lexemes y).append _
    rw [List.append_assoc]
    refine Takes.bind (takes_expression hreadx hfeed₁ hk (by rw [hkind]; rfl)) fun n prev hn => ?_
    refine Takes.after (run_accept hus.ahead hkind) rfl ?_
    refine Takes.after (run_check_first hus hopens hclose) rfl ?_
    refine (ih (by omega) hread hus).bind fun ns prev hns => ?_
    exact takes_pure (.cons hn hns)

theorem takes_listed {β : Type} {f : List Node → Parser β} {Q : β → Prop} {rest' : List Token}
    (hclose : isEnd close = true) (hcomma : close ≠ .comma) (hk : k ≤ fuel) (hc : c.kind = close)
    (hread : ∀ y ∈ items, ReadsAt .assignment y)
      (hfeed : Supply (Term.separated items) k us (c :: rest))
    (hf : ∀ ns prev, List.Forall₂ Term.Describes items ns →
      Takes (f ns) (.ahead prev (c :: rest) ds) Q rest') :
    Takes
      (do if ← check close then pure [] >>= f else elements (parsePrecedence fuel) close k >>= f)
      (.ahead prev (us ++ c :: rest) ds) Q rest' := by
  cases items with
  | nil =>
    cases hfeed.spelled.nil
    refine Takes.after run_check rfl ?_
    rw [hc, beq_self_eq_true, if_pos rfl, pure_bind]
    exact hf [] prev .nil
  | cons y ys =>
    have hopens : Opens (Term.separated (y :: ys)) := (opens_lexemes y).append _
    refine Takes.after (run_check_first hfeed hopens hclose) rfl ?_
    exact Takes.bind (takes_elements hclose hcomma hk hc hread hfeed) hf

theorem takes_commaSeparated {l : Lexeme} {e : Expectation} (hclose : isEnd l.kind = true)
    (hcomma : l.kind ≠ .comma) (hk : k ≤ fuel) (hread : ∀ y ∈ items, ReadsAt .assignment y)
    (hfeed : Supply (Term.separated items ++ [l]) k us rest) :
    Takes (commaSeparated (parsePrecedence fuel) k l.kind e) (.ahead prev (us ++ rest) ds)
      (List.Forall₂ Term.Describes items) rest := by
  obtain ⟨us, c, rfl, hc, hus⟩ := hfeed.last
  rw [List.append_assoc]
  refine takes_listed hclose hcomma hk hc hread hus fun ns prev hns => ?_
  exact Takes.after (run_expect hfeed.ready hc e) rfl (takes_pure hns)

theorem takes_group {tok : Token} (hx : ReadsAt .assignment x)
    (hfeed : Supply (x.lexemes ++ [Lexeme.rightParen]) fuel us rest) :
    Takes (grouping (parsePrecedence fuel) fuel tok) (.ahead prev (us ++ rest) ds)
      x.Describes rest := by
  obtain ⟨us, c, rfl, hc, hus⟩ := hfeed.last
  rw [List.append_assoc]
  refine Takes.after (run_accept_first hus (opens_lexemes x) rfl) rfl ?_
  refine Takes.bind (takes_expression hx hus (Nat.le_refl _) (by rw [hc]; rfl)) fun n prev hn => ?_
  exact Takes.after (run_accept hfeed.ready hc) rfl (takes_pure hn)

theorem lexemes_tuple_cons (x : Term) (items : List Term) :
    (Term.tuple (x :: items)).lexemes =
      .leftParen :: ((x.lexemes ++ .comma :: Term.separated items) ++ [.rightParen]) := by
  cases items with
  | nil | cons y ys => simp [Term.lexemes, Term.separated, Term.continued]

theorem takes_tuple_cons {tok : Token} (hread : ∀ y ∈ x :: items, ReadsAt .assignment y)
    (hfeed : Supply ((x.lexemes ++ .comma :: Term.separated items) ++ [Lexeme.rightParen])
      fuel us rest) :
    Takes (grouping (parsePrecedence fuel) fuel tok) (.ahead prev (us ++ rest) ds)
      (Term.tuple (x :: items)).Describes rest := by
  obtain ⟨hx, hread⟩ := List.forall_mem_cons.1 hread
  obtain ⟨us, c, rfl, hc, hus⟩ := hfeed.last
  obtain ⟨us₁, us₂, rfl, hus₁, hus₂⟩ := hus.split
  obtain ⟨fuel, rfl⟩ := hfeed.fuel_eq
  obtain ⟨tok', us₃, rfl, hkind, -, hus₃⟩ := hus₂.uncons
  have hnot : tok'.kind ≠ .rightParen := by rw [hkind]; decide
  have hend : isEnd tok'.kind = true := by rw [hkind]; rfl
  simp only [List.append_assoc, List.cons_append, List.nil_append] at hus₁ ⊢
  refine Takes.after (run_accept_first hus₁ (opens_lexemes x) rfl) rfl ?_
  refine Takes.bind (takes_expression hx hus₁ (Nat.le_refl _) hend) fun n prev hn => ?_
  refine Takes.after (run_refuse hnot) rfl ?_
  refine Takes.after (run_accept hus₃.ahead hkind) rfl ?_
  refine takes_listed rfl (by decide) (Nat.le_refl _) hc hread (hus₃.mono (Nat.le_succ _))
    fun ns prev hns => ?_
  exact Takes.after (run_expect hfeed.ready hc _) rfl (takes_pure (.tuple tok.pos (.cons hn hns)))

end Lists

section Rules

variable {sub : Precedence → Parser Node} {fuel : Nat} {tok : Token} {us : List Token}
  {ds : List Diagnostic}

theorem startWith_unary (op : Unary) (h : tok.kind = op.lexeme.kind) :
    startWith sub fuel tok = unary sub tok fun operand => op.build operand := by
  cases op <;> rw [startWith, h] <;> rfl

theorem startWith_leftParen (h : tok.kind = .leftParen) :
    startWith sub fuel tok = grouping sub fuel tok := by
  rw [startWith, h]

theorem continueWith_binary (op : Binary) (h : tok.kind = op.lexeme.kind) (left : Node) :
    continueWith sub fuel tok left = binary sub tok fun right => op.build left right := by
  cases op with
  | symbol s => cases s <;> rw [continueWith, h] <;> rfl
  | and | or => rw [continueWith, h]; rfl

theorem assignment_assigner (op : Assigner) (h : tok.kind = op.lexeme.kind) (target : Node)
    (prev : Token) : assignment sub target (.ahead prev (tok :: us) ds) =
      (do advance
          let value ← expression sub
          return .make tok.pos (op.build target value) : Parser Node)
            (.ahead prev (tok :: us) ds) := by
  cases op <;> rw [assignment, run_bind run_current, h] <;> rfl

end Rules

/-- The expression is read wherever it may stand: before an operator, and where an operand or a
value is expected. -/
structure Readable (t : Term) : Prop where
  climbs : ∀ p, Precedence.assignment < p → Climbs (t.printed p) p (t.reach p) t
  reads : ∀ p, Precedence.assignment ≤ p → ReadsAt p t

theorem climbs_atom {t : Term} {l : Lexeme} {level tail : Precedence}
    (h : ∀ (sub : Precedence → Parser Node) (fuel : Nat) (tok : Token), tok.kind = l.kind →
      tok.form.Alike l →
      ∃ n, startWith sub fuel tok = pure n ∧ t.Describes n) : Climbs [l] level tail t := by
  refine climbs_of_start fun fuel tok ds us rest hkind htok hus _ => ?_
  obtain ⟨n, hrun, hn⟩ := h (parsePrecedence fuel) fuel tok hkind htok
  cases hus.spelled.nil
  rw [hrun]
  exact takes_pure hn

section Constructs

variable {x y : Term}

theorem climbs_int (i : Int64) (h : 0 ≤ i.toInt) :
    Climbs (Term.int i h).lexemes .primary .primary (.int i h) := by
  refine climbs_atom fun sub fuel tok hkind htok => ⟨_, ?_, .int tok.pos i h⟩
  have htext : tok.lexeme = String.ofList (Decimal.digits i.toInt.toNat) := htok.text (by simp)
  have hrule : startWith sub fuel tok = intLiteral tok := by rw [startWith, hkind]
  rw [hrule, intLiteral, htext, String.toList_ofList, fit?_natOfDigits i h]

theorem climbs_str (s : String) : Climbs (Term.str s).lexemes .primary .primary (.str s) := by
  refine climbs_atom fun sub fuel tok hkind htok => ⟨_, ?_, .str tok.pos s⟩
  have hbody : unescape (quotedBody tok.lexeme) = some s.toList := by
    rw [← unescape_escaped, ← quotedBody_quoted]
    exact htok.body rfl
  have hrule : startWith sub fuel tok = stringLiteral tok := by rw [startWith, hkind]
  rw [hrule, stringLiteral, hbody]
  simp only [String.ofList_toList]

theorem climbs_unary (op : Unary) (hx : Readable x) :
    Climbs (Term.unary op x).lexemes .unary .unary (.unary op x) := by
  rw [Term.lexemes]
  refine climbs_of_start fun fuel tok ds us rest hkind _ hus hbound => ?_
  rw [startWith_unary op hkind]
  have hstops : Stops .unary rest := ⟨hbound, fun h => absurd h (by decide)⟩
  refine Takes.bind (hx.reads .unary (by decide) hus hstops) fun m prev hm => ?_
  exact takes_pure (.unary tok.pos op hm)

theorem climbs_binary (op : Binary) (hx : Readable x) (hy : Readable y) :
    Climbs (Term.binary op x y).lexemes op.level op.rightLevel (.binary op x y) := by
  have hbounds := op.level_bounds
  have hright : 1 < op.rightLevel.rank := by
    have := op.rank_rightLevel
    grind
  have hleft : op.level.rank ≤ op.leftLevel.rank := by
    have := op.rank_leftLevel
    grind
  have hclimbs := hx.climbs op.leftLevel (show 1 < op.leftLevel.rank by omega)
  rw [Term.lexemes]
  refine climbs_of_turn hclimbs op.ofToken_lexeme hleft (x.level_lt_reach op) ?_
  intro fuel k tok m ds us rest hkind _ hk hus hbound hm
  rw [continueWith_binary op hkind, binary, hkind, op.rightPrecedence_lexeme]
  have hstops : Stops op.rightLevel rest := ⟨hbound, fun h => absurd h (Nat.not_le.2 hright)⟩
  refine Takes.bind (hy.reads op.rightLevel (Nat.le_of_lt hright) (hus.mono hk) hstops)
    fun n prev hn => ?_
  exact takes_pure (.binary tok.pos op hm hn)

theorem climbs_call {args : List Term} (hx : Readable x) (hargs : ∀ y ∈ args, Readable y) :
    Climbs (Term.call x args).lexemes .call .primary (.call x args) := by
  rw [Term.lexemes]
  refine climbs_of_turn (hx.climbs .call (by decide)) rfl (Nat.le_refl _) x.call_lt_reach ?_
  intro fuel k tok m ds us rest hkind _ hk hus _ hm
  have hrule : continueWith (parsePrecedence fuel) k tok m =
      call (parsePrecedence fuel) k tok m := by
    rw [continueWith, hkind]
    rfl
  have hread : ∀ y ∈ args, ReadsAt .assignment y :=
    fun y hy => (hargs y hy).reads .assignment (Nat.le_refl _)
  rw [hrule]
  refine Takes.bind (takes_commaSeparated rfl (by decide) hk hread hus) fun ns prev hns => ?_
  exact takes_pure (.call tok.pos hm hns)

theorem climbs_index (hx : Readable x) (hy : Readable y) :
    Climbs (Term.index x y).lexemes .call .primary (.index x y) := by
  rw [Term.lexemes]
  refine climbs_of_turn (hx.climbs .call (by decide)) rfl (Nat.le_refl _) x.call_lt_reach ?_
  intro fuel k tok m ds us rest hkind _ hk hus _ hm
  have hrule : continueWith (parsePrecedence fuel) k tok m =
      index (parsePrecedence fuel) tok m := by
    rw [continueWith, hkind]
    rfl
  have hread := hy.reads .assignment (Nat.le_refl _)
  obtain ⟨us, c, rfl, hc, hfeed⟩ := hus.last
  rw [hrule, List.append_assoc]
  refine Takes.bind (takes_expression hread hfeed hk (by rw [hc]; rfl)) fun n prev hn => ?_
  exact Takes.after (run_expect hus.ready hc _) rfl (takes_pure (.index tok.pos hm hn))

theorem climbs_field (name : Ident) (hx : Readable x) :
    Climbs (Term.field x name).lexemes .call .primary (.field x name) := by
  rw [Term.lexemes]
  refine climbs_of_turn (hx.climbs .call (by decide)) rfl (Nat.le_refl _) x.call_lt_reach ?_
  intro fuel k tok m ds us rest hkind _ hk hus _ hm
  have hrule : continueWith (parsePrecedence fuel) k tok m = field tok m := by
    rw [continueWith, hkind]
    rfl
  obtain ⟨c, rfl, hc⟩ := hus.spelled.single
  have hident : c.kind = .identifier := hc.kind
  have hword : c.lexeme = name.word := hc.text (by simp [Lexeme.ident])
  have hname : expectName .fieldName (.ahead tok (c :: rest) ds) =
      .ok name.word (.ahead c rest ds) := by
    rw [expectName, run_bind (run_expect hus.ready hident _), ← hword]
    rfl
  rw [hrule]
  exact Takes.after hname rfl (takes_pure (.field tok.pos name hm))

theorem climbs_list {items : List Term} (hitems : ∀ y ∈ items, Readable y) :
    Climbs (Term.list items).lexemes .primary .primary (.list items) := by
  rw [Term.lexemes]
  refine climbs_of_start fun fuel tok ds us rest hkind _ hus _ => ?_
  have hread : ∀ y ∈ items, ReadsAt .assignment y :=
    fun y hy => (hitems y hy).reads .assignment (Nat.le_refl _)
  have hrule : startWith (parsePrecedence fuel) fuel tok =
      (do
        return .make tok.pos
          (.list (← commaSeparated (parsePrecedence fuel) fuel .rightBracket .listEnd))) := by
    rw [startWith, hkind]
    rfl
  rw [hrule]
  refine Takes.bind (takes_commaSeparated rfl (by decide) (Nat.le_refl _) hread hus)
    fun ns prev hns => ?_
  exact takes_pure (.list tok.pos hns)

theorem climbs_tuple {items : List Term} (hitems : ∀ y ∈ items, Readable y) :
    Climbs (Term.tuple items).lexemes .primary .primary (.tuple items) := by
  have hread : ∀ y ∈ items, ReadsAt .assignment y :=
    fun y hy => (hitems y hy).reads .assignment (Nat.le_refl _)
  cases items with
  | nil =>
    refine climbs_of_start fun fuel tok ds us rest hkind _ hus _ => ?_
    obtain ⟨c, rfl, hc⟩ := hus.spelled.single
    rw [startWith_leftParen hkind]
    exact Takes.after (run_accept hus.ready hc.kind) rfl (takes_pure (.tuple tok.pos .nil))
  | cons x xs =>
    rw [lexemes_tuple_cons]
    refine climbs_of_start fun fuel tok ds us rest hkind _ hus _ => ?_
    rw [startWith_leftParen hkind]
    exact takes_tuple_cons hread hus

end Constructs

/-- An expression that is no assignment is read without parentheses around it. -/
theorem climbs_lexemes {t : Term} (ht : Precedence.assignment < t.level)
    (ih : ∀ x ∈ t.parts, Readable x) : Climbs t.lexemes t.level t.tail t := by
  cases t with
  | null =>
    exact climbs_atom fun sub fuel tok hkind _ => ⟨_, by rw [startWith, hkind]; rfl, .null tok.pos⟩
  | this =>
    exact climbs_atom fun sub fuel tok hkind _ => ⟨_, by rw [startWith, hkind]; rfl, .this tok.pos⟩
  | bool b =>
    exact climbs_atom fun sub fuel tok hkind _ =>
      ⟨_, by cases b <;> rw [startWith, hkind] <;> rfl, .bool tok.pos b⟩
  | name x =>
    refine climbs_atom fun sub fuel tok hkind htok => ⟨_, ?_, .name tok.pos x⟩
    have htext : tok.lexeme = x.word := htok.text (by simp [Lexeme.ident])
    rw [startWith, hkind, htext]
    rfl
  | int i h => exact climbs_int i h
  | str s => exact climbs_str s
  | unary op x => exact climbs_unary op (ih x (by simp [Term.parts]))
  | binary op x y =>
    exact climbs_binary op (ih x (by simp [Term.parts])) (ih y (by simp [Term.parts]))
  | assign op x v => exact absurd ht (Nat.lt_irrefl _)
  | call x args =>
    exact climbs_call (ih x List.mem_cons_self) fun y hy => ih y (List.mem_cons_of_mem _ hy)
  | index x y => exact climbs_index (ih x (by simp [Term.parts])) (ih y (by simp [Term.parts]))
  | field x name => exact climbs_field name (ih x (by simp [Term.parts]))
  | list items => exact climbs_list ih
  | tuple items => exact climbs_tuple ih

theorem climbs_enclosed {t : Term} {p tail : Precedence} (h : ReadsAt .assignment t) :
    Climbs (.leftParen :: (t.lexemes ++ [.rightParen])) p tail t := by
  refine climbs_of_start fun fuel tok ds us rest hkind _ hus _ => ?_
  rw [startWith_leftParen hkind]
  exact takes_group h hus

theorem readsAt_assign {x v : Term} (op : Assigner) (hx : Readable x) (hv : Readable v) :
    ReadsAt .assignment (.assign op x v) := by
  intro fuel prev ds ts rest hfeed hstops
  rw [Term.printed_assignment, Term.lexemes] at hfeed
  obtain ⟨fuel, rfl⟩ := hfeed.fuel_eq
  obtain ⟨ts₁, ts₂, rfl, hfeed₁, hfeed₂⟩ := hfeed.split
  obtain ⟨tok, us, rfl, hkind, -, hus⟩ := hfeed₂.uncons
  have hor : Precedence.assignment ≤ Precedence.or := by decide
  have hnone : (Precedence.ofToken tok.kind).rank = 0 := by rw [hkind]; cases op <;> rfl
  have hreach : 2 ≤ (x.reach .or).rank := x.le_reach .or
  have hbound : Bounded (x.reach .or) (tok :: us ++ rest) := bounded_cons (by omega)
  have hafter : Bounded .assignment (tok :: us ++ rest) := bounded_cons (hnone ▸ Nat.zero_lt_one)
  obtain ⟨m, prev', k, hk, -, hm, hclimb⟩ := hx.climbs .or (by decide) hor hfeed₁ hbound prev ds
  have htarget := hclimb.trans (run_continuations hfeed₁.ready hafter hk)
  rw [← v.printed_assignment] at hus
  obtain ⟨n, prev'', hrun, hn⟩ :
      Takes (parsePrecedence fuel .assignment) (.ahead tok (us ++ rest) ds) v.Describes rest :=
    hv.reads .assignment (Nat.le_refl _) hus hstops
  have hself : Precedence.assignment ≤ Precedence.assignment := Nat.le_refl _
  refine ⟨_, prev'', ?_, .assign tok.pos op hm hn⟩
  rw [List.append_assoc, parsePrecedence_succ, run_bind htarget, if_pos hself, List.cons_append,
    assignment_assigner op hkind, run_bind (run_advance hus.ahead), expression, run_bind hrun]
  rfl

/-- Every expression is read wherever it may stand. -/
theorem readable (t : Term) : Readable t := by
  induction t using Term.induction_parts with
  | step t ih =>
    -- first without parentheses; what stands in them is read at the loosest precedence
    have hread : ReadsAt .assignment t := by
      rcases t.assign_or_lt_level with ⟨op, x, v, rfl⟩ | ht
      · exact readsAt_assign op (ih x (by simp [Term.parts])) (ih v (by simp [Term.parts]))
      · have hbare := climbs_lexemes ht ih
        rw [← t.printed_assignment] at hbare
        exact readsAt_of_climbs hbare (Nat.le_of_lt ht)
          (Nat.le_trans (Nat.le_of_lt ht) t.level_le_tail)
    have hclimbs : ∀ p, Precedence.assignment < p → Climbs (t.printed p) p (t.reach p) t := by
      intro p hp
      unfold Term.printed enclosed Term.reach
      split
      · rename_i hle
        intro fuel prec ts rest hprec
        exact climbs_lexemes (Nat.lt_of_lt_of_le hp hle) ih (Nat.le_trans hprec hle)
      · exact climbs_enclosed hread
    refine ⟨hclimbs, fun p hp => ?_⟩
    by_cases heq : p = .assignment
    · rw [heq]
      exact hread
    · have hlt : Precedence.assignment < p := by
        cases p <;> first | exact absurd rfl heq | exact absurd hp (by decide) | decide
      exact readsAt_of_climbs (hclimbs p hlt) (Nat.le_refl _) (t.le_reach p)

theorem takes_single {t : Term} {fuel k : Nat} {ts : List Token} {eof prev : Token}
    {ds : List Diagnostic} (hfeed : Supply t.lexemes fuel ts [eof])
    (heof : eof.kind = .endOfInput) :
    Takes (program (parsePrecedence fuel) (k + 2)) (.ahead prev (ts ++ [eof]) ds)
      (fun items => ∃ n, items = [n] ∧ t.Describes n) [eof] := by
  obtain ⟨first, us, rfl, hfirst⟩ := hfeed.first (opens_lexemes t)
  have hne : first.kind ≠ .endOfInput := fun h => by rw [h] at hfirst; cases hfirst
  obtain ⟨n, prev', hrun, hn⟩ :
      Takes (expression (parsePrecedence fuel)) (.ahead prev (first :: us ++ [eof]) ds)
        t.Describes [eof] :=
    takes_expression ((readable t).reads .assignment (Nat.le_refl _)) hfeed (Nat.le_refl _)
      (by rw [heof]; rfl)
  have hitem :
    recovering (expression (parsePrecedence fuel)) (.ahead prev (first :: us ++ [eof]) ds) =
      .ok (some n) (.ahead prev' [eof] ds) := by
    rw [recovering, hrun]
    rfl
  have hskip : State.skip [.semicolon] (.ahead prev' [eof] ds) = .ahead prev' [eof] ds := by
    rw [State.skip, if_neg]
    show ¬[TokenKind.semicolon].contains eof.kind = true
    rw [heof]
    decide
  have hend : program (parsePrecedence fuel) (k + 1) (.ahead prev' [eof] ds) =
      .ok [] (.ahead prev' [eof] ds) := by
    rw [program, run_bind run_current, if_pos heof]
    rfl
  rw [program]
  refine Takes.after run_current rfl ?_
  rw [if_neg hne]
  refine Takes.after hitem rfl ?_
  refine Takes.after (congrArg (EStateM.Result.ok ()) hskip) rfl ?_
  refine Takes.after hend rfl ?_
  exact takes_pure ⟨n, rfl, hn⟩

theorem parse_of_spelled {t : Term} {source : String}
    (h : Spelled (Scan.tokens source) (t.lexemes ++ [.endOfInput])) :
    (parse source).diagnostics = [] ∧ ∃ n, (parse source).items = [n] ∧ t.Describes n := by
  obtain ⟨ts, us, htokens, hts, hus⟩ := h.split
  obtain ⟨eof, rfl, heof⟩ := hus.single
  have hend : eof.kind = .endOfInput := heof.kind
  have hproper : ∀ l ∈ t.lexemes, ∀ e, l.kind ≠ .error e := by
    intro l hl e he
    have := (t.proper_lexemes l hl).kind
    rw [he] at this
    cases this
  have hsupply : Supply t.lexemes (ts.length + 2) ts [eof] :=
    ⟨hts, ⟨by simp, by simp [hend]⟩, hts.clean hproper, by simp⟩
  obtain ⟨items, prev, hrun, n, hitems, hn⟩ := takes_single hsupply hend
  have hread : ofTokens (Scan.tokens source) = .ok items (.ahead prev [eof] []) := by
    rw [ofTokens, htokens, List.length_append]
    exact (run_bind (run_advance hsupply.ahead)).trans hrun
  rw [parse, hread]
  exact ⟨rfl, n, hitems, hn⟩

end Parse

/-- Reading inverts printing: the text of an expression, with no more parentheses than the
precedences ask for, is read without complaints, as a single item, and as that expression. -/
theorem parse_print (t : Term) :
    (parse t.print).diagnostics = [] ∧ ∃ n, (parse t.print).items = [n] ∧ t.Describes n :=
  Parse.parse_of_spelled (.of_form (Scan.form_tokens t.proper_lexemes))

end Refscript
