import Refscript.Proofs.Syntax.Taking

/-!
# Refscript.Proofs.Syntax.Agreement

Parsers that differ in their fuel alone, run side by side.

* `Parse.State.Below`: how many tokens are left at most. Taking a token before the end of the text
  leaves fewer.
* `Parse.Agree`: two parsers end in the same way from a state, and not for want of fuel.
* `Parse.Runs`: they agree from every state below a number of tokens, and leave one below another
  number; `Runs.bind` and `Runs.ite` put such parsers together.
-/

namespace Refscript
namespace Parse

/-- Tokens of which the last one, and no other, is the end of the text. -/
inductive Ends : List Token → Prop where
  | last {t : Token} (ht : t.kind = .endOfInput) : Ends [t]
  | cons {t : Token} {ts : List Token} (ht : t.kind ≠ .endOfInput) (hts : Ends ts) : Ends (t :: ts)

theorem Ends.uncons {t : Token} {ts : List Token} (h : Ends (t :: ts)) :
    (t.kind = .endOfInput ∧ ts = []) ∨ (t.kind ≠ .endOfInput ∧ Ends ts) := by
  cases h with
  | last ht => exact .inl ⟨ht, rfl⟩
  | cons ht hts => exact .inr ⟨ht, hts⟩

theorem Ends.nextToken (eof : Token) {ts : List Token} (h : Ends ts) :
    Ends ((nextToken eof ts).2.1 :: (nextToken eof ts).2.2) ∧
      (nextToken eof ts).2.2.length < ts.length := by
  induction h with
  | last ht => simp [Parse.nextToken, ht, Ends.last ht]
  | @cons t ts ht hts ih =>
    rw [Parse.nextToken]
    split
    · exact ⟨ih.1, Nat.lt_succ_of_lt ih.2⟩
    · exact ⟨.cons ht hts, Nat.lt_succ_self _⟩

namespace State

/-- Fewer than `n` tokens are left after the token at hand, and they end with the end of the
text. -/
structure Below (n : Nat) (s : State) : Prop where
  ends : Ends (s.current :: s.rest)
  short : s.rest.length < n

namespace Below

variable {m n : Nat} {s : State}

theorem mono (h : Below m s) (hmn : m ≤ n) : Below n s :=
  ⟨h.ends, Nat.lt_of_lt_of_le h.short hmn⟩

theorem rest_eq_nil (h : Below n s) (hcurrent : s.current.kind = .endOfInput) : s.rest = [] := by
  rcases h.ends.uncons with ⟨-, hrest⟩ | ⟨hne, -⟩
  · exact hrest
  · exact absurd hcurrent hne

theorem advance_of_ne (h : Below (n + 1) s) (hcurrent : s.current.kind ≠ .endOfInput) :
    Below n s.advance := by
  rcases h.ends.uncons with ⟨hend, -⟩ | ⟨-, hrest⟩
  · exact absurd hend hcurrent
  · obtain ⟨hnext, hlength⟩ := hrest.nextToken s.current
    exact ⟨hnext, Nat.lt_of_lt_of_le hlength (Nat.le_of_lt_succ h.short)⟩

theorem advance_of_eq (h : Below n s) (hcurrent : s.current.kind = .endOfInput) :
    s.advance = ⟨s.current, s.current, [], s.diagnostics⟩ := by
  simp [State.advance, h.rest_eq_nil hcurrent, Parse.nextToken]

theorem advance (h : Below n s) : Below n s.advance := by
  by_cases hcurrent : s.current.kind = .endOfInput
  · rw [h.advance_of_eq hcurrent]
    exact ⟨.last hcurrent, Nat.zero_lt_of_lt h.short⟩
  · exact (h.mono (Nat.le_succ n)).advance_of_ne hcurrent

theorem skip (kinds : List TokenKind) (h : Below n s) : Below n (s.skip kinds) := by
  induction s using State.skip.induct kinds with
  | case1 s hkind hrest =>
    rw [State.skip, if_pos hkind, dif_pos hrest]
    exact h.advance
  | case2 s hkind hrest ih =>
    rw [State.skip, if_pos hkind, dif_neg hrest]
    exact ih h.advance
  | case3 s hkind =>
    rw [State.skip, if_neg hkind]
    exact h

theorem synchronize (h : Below n s) : Below n s.synchronize := by
  induction s using State.synchronize.induct with
  | case1 s hstop =>
    rw [State.synchronize, if_pos hstop]
    exact h
  | case2 s hstop hrest =>
    rw [State.synchronize, if_neg hstop, dif_pos hrest]
    exact h.advance
  | case3 s hstop hrest ih =>
    rw [State.synchronize, if_neg hstop, dif_neg hrest]
    exact ih h.advance

end Below
end State

/-- What holds of the state in which a parser ends; it does not end for want of fuel. -/
def Ended {α : Type} (Q : α → State → Prop) (E : State → Prop) :
    EStateM.Result Failure State α → Prop
  | .ok a s => Q a s
  | .error (.grammar _) s => E s
  | .error .exhausted _ => False

/-- The parsers end in the same way, and with what is asked for. -/
structure Agree {α : Type} (x y : Parser α) (s : State) (Q : α → State → Prop) (E : State → Prop) :
    Prop where
  same : x s = y s
  ended : Ended Q E (x s)

namespace Agree

variable {α β : Type} {x y : Parser α} {f g : α → Parser β} {s : State}
variable {P Q : α → State → Prop} {R : β → State → Prop} {E E' : State → Prop}

theorem imp (h : Agree x y s P E) (hQ : ∀ a s', P a s' → Q a s') (hE : ∀ s', E s' → E' s') :
    Agree x y s Q E' := by
  obtain ⟨hsame, hended⟩ := h
  refine ⟨hsame, ?_⟩
  cases hx : x s with
  | ok a s' =>
    rw [hx] at hended
    exact hQ a s' hended
  | error e s' =>
    rw [hx] at hended
    cases e with
    | grammar d => exact hE s' hended
    | exhausted => exact hended

theorem bind (hx : Agree x y s P E) (hf : ∀ a s', P a s' → Agree (f a) (g a) s' R E) :
    Agree (x >>= f) (y >>= g) s R E := by
  obtain ⟨hsame, hended⟩ := hx
  cases hrun : x s with
  | ok a s' =>
    rw [hrun] at hended hsame
    obtain ⟨hsame', hended'⟩ := hf a s' hended
    refine ⟨?_, ?_⟩
    · simp only [Bind.bind, EStateM.bind, hrun, ← hsame, hsame']
    · simpa only [Bind.bind, EStateM.bind, hrun] using hended'
  | error e s' =>
    rw [hrun] at hended hsame
    refine ⟨?_, ?_⟩
    · simp only [Bind.bind, EStateM.bind, hrun, ← hsame]
    · simp only [Bind.bind, EStateM.bind, hrun]
      cases e with
      | grammar d | exhausted => exact hended

end Agree

/-- From a state with fewer than `m` tokens left the parsers go the same way to one with fewer than
`n`. -/
def Runs {α : Type} (m n : Nat) (x y : Parser α) : Prop :=
  ∀ s, s.Below m → Agree x y s (fun _ => State.Below n) (State.Below m)

theorem Agree.andThen {α β : Type} {x y : Parser α} {f g : α → Parser β} {i j k : Nat} {s : State}
    (hx : Agree x y s (fun _ => State.Below j) (State.Below i)) (hj : j ≤ i)
    (hf : ∀ a, Runs j k (f a) (g a)) :
    Agree (x >>= f) (y >>= g) s (fun _ => State.Below k) (State.Below i) := by
  refine hx.bind fun a s' hs' => ?_
  exact (hf a s' hs').imp (fun _ _ h => h) fun _ h => h.mono hj

namespace Runs

variable {α β : Type} {x y x' y' : Parser α} {f g : α → Parser β} {i j k m n : Nat}

theorem mono (h : Runs m n x y) (hk : n ≤ k) : Runs m k x y :=
  fun s hs => (h s hs).imp (fun _ _ hs' => hs'.mono hk) fun _ hs' => hs'

theorem bind (hx : Runs i j x y) (hj : j ≤ i) (hf : ∀ a, Runs j k (f a) (g a)) :
    Runs i k (x >>= f) (y >>= g) :=
  fun s hs => (hx s hs).andThen hj hf

theorem within {s : State} (h : Runs j k x y) (hs : s.Below j) (hj : j ≤ i) :
    Agree x y s (fun _ => State.Below k) (State.Below i) :=
  (h s hs).imp (fun _ _ h => h) fun _ h => h.mono hj

theorem seq (hx : Runs m m x y) (hf : ∀ a, Runs m n (f a) (g a)) : Runs m n (x >>= f) (y >>= g) :=
  hx.bind (Nat.le_refl m) hf

theorem zero : Runs 0 n x y :=
  fun _ hs => absurd hs.short (Nat.not_lt_zero _)

theorem ite {c : Prop} [Decidable c] (hx : c → Runs m n x y) (hx' : ¬c → Runs m n x' y') :
    Runs m n (if c then x else x') (if c then y else y') := by
  split
  · exact hx ‹c›
  · exact hx' ‹¬c›

theorem pure (a : α) : Runs n n (Pure.pure a) (Pure.pure a) :=
  fun _ hs => ⟨rfl, hs⟩

theorem failAt (t : Token) (e : Expectation) :
    Runs m n (Parse.failAt t e : Parser α) (Parse.failAt t e) :=
  fun _ hs => ⟨rfl, hs⟩

theorem current : Runs n n Parse.current Parse.current :=
  fun _ hs => ⟨rfl, hs⟩

theorem previous : Runs n n Parse.previous Parse.previous :=
  fun _ hs => ⟨rfl, hs⟩

theorem check (kind : TokenKind) : Runs n n (Parse.check kind) (Parse.check kind) :=
  fun _ hs => ⟨rfl, hs⟩

theorem advance : Runs n n Parse.advance Parse.advance :=
  fun _ hs => ⟨rfl, hs.advance⟩

theorem skipKinds (kinds : List TokenKind) :
    Runs n n (Parse.skipKinds kinds) (Parse.skipKinds kinds) :=
  fun _ hs => ⟨rfl, hs.skip kinds⟩

theorem of_step (h : ∀ k, Runs (k + 1) k x y) : Runs n n x y := by
  cases n with
  | zero => exact .zero
  | succ n => exact (h n).mono (Nat.le_succ n)

end Runs

section Asked

variable {s : State} {kind : TokenKind} {n : Nat} {E : State → Prop}

theorem agree_current : Agree current current s (fun t s' => t = s.current ∧ s' = s) E :=
  ⟨rfl, rfl, rfl⟩

theorem agree_advance (hs : s.Below (n + 1)) (hcurrent : s.current.kind ≠ .endOfInput) :
    Agree advance advance s (fun _ => State.Below n) E :=
  ⟨rfl, hs.advance_of_ne hcurrent⟩

theorem accept_of_eq (h : s.current.kind = kind) : accept kind s = .ok true s.advance := by
  have hcheck : check kind s = .ok true s := congrArg (EStateM.Result.ok · s) (beq_iff_eq.2 h)
  rw [accept, run_bind hcheck]
  rfl

theorem accept_of_ne (h : s.current.kind ≠ kind) : accept kind s = .ok false s := by
  have hcheck : check kind s = .ok false s :=
    congrArg (EStateM.Result.ok · s) (beq_eq_false_iff_ne.2 h)
  rw [accept, run_bind hcheck]
  rfl

theorem agree_accept (hkind : kind ≠ .endOfInput) (hs : s.Below (n + 1)) :
    Agree (accept kind) (accept kind) s
      (fun taken s' => s'.Below (n + 1) ∧ (taken = true → s'.Below n)) E := by
  refine ⟨rfl, ?_⟩
  by_cases h : s.current.kind = kind
  · rw [accept_of_eq h]
    exact ⟨hs.advance, fun _ => hs.advance_of_ne (h ▸ hkind)⟩
  · rw [accept_of_ne h]
    exact ⟨hs, fun htaken => absurd htaken Bool.false_ne_true⟩

theorem Runs.accept (kind : TokenKind) : Runs n n (Parse.accept kind) (Parse.accept kind) := by
  intro s hs
  refine ⟨rfl, ?_⟩
  by_cases h : s.current.kind = kind
  · rw [accept_of_eq h]
    exact hs.advance
  · rw [accept_of_ne h]
    exact hs

theorem runs_expect (hkind : kind ≠ .endOfInput) (e : Expectation) :
    Runs (n + 1) n (expect kind e) (expect kind e) := by
  intro s hs
  refine (agree_accept hkind hs).bind fun taken s' hs' => ?_
  cases taken with
  | false => exact ⟨rfl, hs'.1⟩
  | true => exact ⟨rfl, hs'.2 rfl⟩

theorem Runs.expect (hkind : kind ≠ .endOfInput) (e : Expectation) :
    Runs n n (Parse.expect kind e) (Parse.expect kind e) :=
  .of_step fun _ => runs_expect hkind e

theorem runs_expectName (e : Expectation) : Runs (n + 1) n (expectName e) (expectName e) := by
  refine (runs_expect (by decide) e).bind (Nat.le_succ n) fun _ => ?_
  exact Runs.previous.seq fun _ => .pure _

end Asked

end Parse
end Refscript
