import Refscript.Proofs.Syntax.Agreement

/-!
# Refscript.Proofs.Syntax.Echo

The same tokens read twice: once up to the end of the text, once with a closing parenthesis in its
place.

* `Parse.Closing`, `Parse.Mates`: the parenthesis with what comes after it, and tokens that are the
  same up to there.
* `Parse.Twin`: two states side by side. The one thing a parser can tell them apart by is the token
  at the end.
* `Parse.Echoes`: whatever the first parser reads without complaint, the second reads too, and the
  results are the same under a given view. There is one way out: the text ends with `ret`, the first
  run is at its end, and the second has failed. `Echoes.bind`, `Echoes.take` and `Echoes.acceptOr`
  put such parsers together. Loops that also stop at the end of the text are looked at only before
  it, and `Echoes.closed` ends them.
-/

namespace Refscript
namespace Parse

/-- The parenthesis after a text, the tokens after it, and the kind of the last token of the
text. -/
structure Closing where
  last : TokenKind
  paren : Token
  rest : List Token
  isParen : paren.kind = .rightParen

/-- `ts` runs to the end of the text, and `us` are the same tokens up to there. The token before
them is of the given kind. -/
inductive Mates (c : Closing) : TokenKind → List Token → List Token → Prop where
  | last {t : Token} (ht : t.kind = .endOfInput) : Mates c c.last [t] (c.paren :: c.rest)
  | cons {before : TokenKind} {t u : Token} {ts us : List Token} (hform : u.form = t.form)
      (ht : t.kind ≠ .endOfInput) (h : Mates c t.kind ts us) : Mates c before (t :: ts) (u :: us)

section Mates

variable {c : Closing} {before : TokenKind} {t u : Token} {ts us : List Token}

theorem kind_of_form (h : u.form = t.form) : u.kind = t.kind :=
  congrArg Lexeme.kind h

theorem lexeme_of_form (h : u.form = t.form) : u.lexeme = t.lexeme :=
  congrArg Lexeme.text h

theorem Mates.ne_nil (h : Mates c before ts us) : ts ≠ [] ∧ us ≠ [] := by
  cases h <;> simp

theorem Mates.of_end (h : Mates c before (t :: ts) (u :: us)) (ht : t.kind = .endOfInput) :
    ts = [] ∧ before = c.last ∧ u = c.paren ∧ us = c.rest := by
  cases h with
  | last _ => exact ⟨rfl, rfl, rfl, rfl⟩
  | cons _ hne _ => exact absurd ht hne

theorem Mates.of_ne (h : Mates c before (t :: ts) (u :: us)) (ht : t.kind ≠ .endOfInput) :
    u.form = t.form ∧ Mates c t.kind ts us := by
  cases h with
  | last hend => exact absurd hend ht
  | cons hform _ hrest => exact ⟨hform, hrest⟩

theorem clean_of_nextToken {eof : Token} (h : (nextToken eof (t :: ts)).1 = []) :
    ∀ e, t.kind ≠ .error e := by
  intro e he
  simp [nextToken, he] at h

theorem Mates.nextToken {eof : Token} (h : Mates c before ts us)
    (hquiet : (nextToken eof ts).1 = []) (eof' : Token) :
    ∃ t' u' ts' us', ts = t' :: ts' ∧ us = u' :: us' ∧
      Parse.nextToken eof ts = ([], t', ts') ∧ Parse.nextToken eof' us = ([], u', us') := by
  cases h with
  | @last t ht =>
    refine ⟨t, c.paren, [], c.rest, rfl, rfl, nextToken_of_clean ?_, nextToken_of_clean ?_⟩
    · simp [ht]
    · simp [c.isParen]
  | @cons _ t u ts us hform ht h =>
    have hclean := clean_of_nextToken hquiet
    refine ⟨t, u, ts, us, rfl, rfl, nextToken_of_clean hclean, nextToken_of_clean ?_⟩
    rwa [kind_of_form hform]

end Mates

namespace State

/-- All tokens are taken. -/
def Over (s : State) : Prop :=
  s.current.kind = .endOfInput ∧ s.rest = []

end State

/-- The states have the same tokens ahead, and nothing has been reported. -/
structure Abreast (c : Closing) (s s' : State) : Prop where
  mates : Mates c s.previous.kind (s.current :: s.rest) (s'.current :: s'.rest)
  quiet : s.diagnostics = []
  quiet' : s'.diagnostics = []

/-- The same token was taken last, too, and it is not a `ret` at the end of the text. -/
structure Twin (c : Closing) (s s' : State) : Prop extends Abreast c s s' where
  previous : s'.previous.form = s.previous.form
  held : c.last = .keyword .retKw → s.current.kind ≠ .endOfInput

section States

variable {c : Closing} {s s' : State}

theorem Abreast.isOver (h : Abreast c s s') (hend : s.current.kind = .endOfInput) : s.Over :=
  ⟨hend, (h.mates.of_end hend).1⟩

theorem Abreast.form (h : Abreast c s s') (hne : s.current.kind ≠ .endOfInput) :
    s'.current.form = s.current.form :=
  (h.mates.of_ne hne).1

theorem Abreast.advance (h : Abreast c s s') (hne : s.current.kind ≠ .endOfInput)
    (hquiet : s.advance.diagnostics = []) : Abreast c s.advance s'.advance := by
  have hnext : (nextToken s.current s.rest).1 = [] := (List.append_eq_nil_iff.1 hquiet).2
  have hmates := (h.mates.of_ne hne).2
  obtain ⟨t, u, ts, us, hts, hus, ht, hu⟩ := hmates.nextToken hnext s'.current
  have hstate : s.advance = ⟨s.current, t, ts, []⟩ := by simp [State.advance, ht, h.quiet]
  have hstate' : s'.advance = ⟨s'.current, u, us, []⟩ := by simp [State.advance, hu, h.quiet']
  rw [hstate, hstate']
  refine ⟨?_, rfl, rfl⟩
  rw [hts, hus] at hmates
  exact hmates

theorem Abreast.twin_advance (h : Abreast c s s') (hne : s.current.kind ≠ .endOfInput)
    (hret : s.current.kind ≠ .keyword .retKw) (hquiet : s.advance.diagnostics = []) :
    Twin c s.advance s'.advance := by
  have hnext := h.advance hne hquiet
  refine ⟨hnext, h.form hne, fun hlast hend => hret ?_⟩
  -- a token after which the text is over is its last one
  exact (hnext.mates.of_end hend).2.1.trans hlast

theorem State.marred_advance (h : s.diagnostics ≠ []) : s.advance.diagnostics ≠ [] :=
  fun hnil => h (List.append_eq_nil_iff.1 hnil).1

theorem State.marred_skip (kinds : List TokenKind) (h : s.diagnostics ≠ []) :
    (s.skip kinds).diagnostics ≠ [] := by
  induction s using State.skip.induct kinds with
  | case1 s hkind hrest =>
    rw [State.skip, if_pos hkind, dif_pos hrest]
    exact State.marred_advance h
  | case2 s hkind hrest ih =>
    rw [State.skip, if_pos hkind, dif_neg hrest]
    exact ih (State.marred_advance h)
  | case3 s hkind =>
    rw [State.skip, if_neg hkind]
    exact h

/-- Both states skip the same tokens, and stop at the latest at the end or at the parenthesis. -/
theorem Twin.skip {kinds : List TokenKind} (hend : .endOfInput ∉ kinds)
    (hparen : .rightParen ∉ kinds) (hret : .keyword .retKw ∉ kinds) (h : Twin c s s')
    (hquiet : (s.skip kinds).diagnostics = []) : Twin c (s.skip kinds) (s'.skip kinds) := by
  induction s using State.skip.induct kinds generalizing s' with
  | case1 s hkind hrest =>
    have hne : s.current.kind ≠ .endOfInput := fun he => hend (he ▸ List.contains_iff_mem.1 hkind)
    exact absurd hrest (h.mates.of_ne hne).2.ne_nil.1
  | case2 s hkind hrest ih =>
    have hmem := List.contains_iff_mem.1 hkind
    have hne : s.current.kind ≠ .endOfInput := fun he => hend (he ▸ hmem)
    have hkind' : kinds.contains s'.current.kind := by rwa [kind_of_form (h.form hne)]
    have hrest' : s'.rest ≠ [] := (h.mates.of_ne hne).2.ne_nil.2
    rw [State.skip, if_pos hkind, dif_neg hrest] at hquiet ⊢
    rw [State.skip.eq_1 kinds s', if_pos hkind', dif_neg hrest']
    have hadvance : s.advance.diagnostics = [] :=
      Decidable.byContradiction fun hm => State.marred_skip kinds hm hquiet
    exact ih (h.twin_advance hne (fun he => hret (he ▸ hmem)) hadvance) hquiet
  | case3 s hkind =>
    have hkind' : ¬kinds.contains s'.current.kind := by
      by_cases hover : s.current.kind = .endOfInput
      · rw [(h.mates.of_end hover).2.2.1, c.isParen]
        exact fun hmem => hparen (List.contains_iff_mem.1 hmem)
      · rwa [kind_of_form (h.form hover)]
    rw [State.skip, if_neg hkind, State.skip.eq_1 kinds s', if_neg hkind']
    exact h

theorem State.marred_synchronize (h : s.diagnostics ≠ []) : s.synchronize.diagnostics ≠ [] := by
  induction s using State.synchronize.induct with
  | case1 s hstop =>
    rw [State.synchronize, if_pos hstop]
    exact h
  | case2 s hstop hrest =>
    rw [State.synchronize, if_neg hstop, dif_pos hrest]
    exact State.marred_advance h
  | case3 s hstop hrest ih =>
    rw [State.synchronize, if_neg hstop, dif_neg hrest]
    exact ih (State.marred_advance h)

end States

/-- How two runs stand: something was reported in the first, or it is at the end of the text and the
second has failed, or they are side by side. -/
inductive Standing where
  | marred
  | ended
  | paired

def Stand (c : Closing) : Standing → State → State → Prop
  | .marred, s, _ => s.diagnostics ≠ []
  | .ended, s, _ => s.Over
  | .paired, s, s' => Twin c s s'

/-- How far the second run is looked at: up to where the first is at the end of the text, or only
before. -/
inductive Extent where
  | whole
  | inside

/-- What a run from `s` that gave `a` in the state `t` says about the second one. -/
def Tells {α γ : Type} (c : Closing) (extent : Extent) (view : α → γ) (s : State) (a : α)
    (t : State) (r' : EStateM.Result Failure State α) : Standing → Prop
  | .marred => False
  | .ended => t = s
  | .paired => (∃ b t', r' = .ok b t' ∧ view b = view a ∧ Twin c t t') ∨
      (t.Over ∧ (extent = .inside ∨ c.last = .keyword .retKw ∧ ∃ e t', r' = .error e t'))

/-- A run that reports nothing tells what the other one does. -/
def EchoesAt {α γ : Type} (c : Closing) (extent : Extent) (view : α → γ) (m : Standing)
    (s s' : State) (x y : Parser α) : Prop :=
  ∀ a t, x s = .ok a t → t.diagnostics = [] → Tells c extent view s a t (y s') m

/-- What the first parser reads without complaint, the second reads too: up to the parenthesis where
the first one comes to the end of the text, or only as long as it does not. -/
def Echoes {α γ : Type} (c : Closing) (extent : Extent) (view : α → γ) (x y : Parser α) : Prop :=
  ∀ m s s', Stand c m s s' → EchoesAt c extent view m s s' x y

/-- The parser gives no result at the end of the text. -/
def FailsAtEnd {α : Type} (x : Parser α) : Prop :=
  ∀ s, s.current.kind = .endOfInput → ∀ a t, x s ≠ .ok a t

def Fails {α : Type} (x : Parser α) : Prop :=
  ∀ s a t, x s ≠ .ok a t

section Failing

variable {α β : Type} {x : Parser α} {f : α → Parser β} {s t : State} {b : β}

theorem ok_of_bind (h : (x >>= f) s = .ok b t) : ∃ a s₁, x s = .ok a s₁ ∧ f a s₁ = .ok b t := by
  cases hx : x s with
  | ok a s₁ => exact ⟨a, s₁, rfl, (run_bind hx).symm.trans h⟩
  | error e s₁ => simp [bind, EStateM.bind, hx] at h

theorem run_bind_error {e : Failure} {s₁ : State} (h : x s = .error e s₁) :
    (x >>= f) s = .error e s₁ := by
  simp only [bind, EStateM.bind, h]

theorem Fails.failAt (t : Token) (e : Expectation) : Fails (Parse.failAt t e : Parser α) :=
  fun _ _ _ h => EStateM.Result.noConfusion rfl rfl rfl (heq_of_eq h)

theorem Fails.bind (h : Fails x) : Fails (x >>= f) := by
  intro s b t hrun
  obtain ⟨a, s₁, hx, -⟩ := ok_of_bind hrun
  exact h s a s₁ hx

theorem Fails.after (h : ∀ a, Fails (f a)) : Fails (x >>= f) := by
  intro s b t hrun
  obtain ⟨a, s₁, -, hf⟩ := ok_of_bind hrun
  exact h a s₁ b t hf

theorem FailsAtEnd.bind (h : FailsAtEnd x) : FailsAtEnd (x >>= f) := by
  intro s hend b t hrun
  obtain ⟨a, s₁, hx, -⟩ := ok_of_bind hrun
  exact h s hend a s₁ hx

theorem FailsAtEnd.refused {kind : TokenKind} {f : Bool → Parser β} (hkind : kind ≠ .endOfInput)
    (h : FailsAtEnd (f false)) : FailsAtEnd (accept kind >>= f) := by
  intro s hend b t hrun
  rw [run_bind (accept_of_ne fun hs => hkind (hs.symm.trans hend))] at hrun
  exact h s hend b t hrun

theorem FailsAtEnd.expect {kind : TokenKind} (hkind : kind ≠ .endOfInput) (e : Expectation) :
    FailsAtEnd (Parse.expect kind e) :=
  .refused hkind fun s _ => Fails.after (fun t => Fails.failAt t e) s

end Failing

section Combining

variable {α β γ δ : Type} {c : Closing} {extent : Extent} {m : Standing} {s s' : State}
variable {x y : Parser α} {f g : α → Parser β} {view : α → γ} {view' : β → δ}

theorem EchoesAt.bind (hs : m = .ended → s.Over) (hx : EchoesAt c extent view m s s' x y)
    (hf : ∀ a b, view b = view a → Echoes c extent view' (f a) (g b)) :
    EchoesAt c extent view' m s s' (x >>= f) (y >>= g) := by
  intro b t hrun hquiet
  obtain ⟨a, s₁, hxrun, hfrun⟩ := ok_of_bind hrun
  by_cases hquiet₁ : s₁.diagnostics = []
  · have htells := hx a s₁ hxrun hquiet₁
    have hover : s₁.Over → t = s₁ := fun hover => hf a a rfl .ended s₁ s₁ hover b t hfrun hquiet
    cases m with
    | marred => exact htells.elim
    | ended =>
      obtain rfl : s₁ = s := htells
      exact hover (hs rfl)
    | paired =>
      rcases htells with ⟨a', s₁', hyrun, hview, htwin⟩ | ⟨hs₁, hout⟩
      · rw [run_bind hyrun]
        exact hf a a' hview .paired s₁ s₁' htwin b t hfrun hquiet
      · obtain rfl := hover hs₁
        refine .inr ⟨hs₁, hout.imp_right fun hret => ⟨hret.1, ?_⟩⟩
        obtain ⟨e, t', herror⟩ := hret.2
        exact ⟨e, t', run_bind_error herror⟩
  · exact (hf a a rfl .marred s₁ s₁ hquiet₁ b t hfrun hquiet).elim

namespace Echoes

theorem bind (hx : Echoes c extent view x y)
    (hf : ∀ a b, view b = view a → Echoes c extent view' (f a) (g b)) :
    Echoes c extent view' (x >>= f) (y >>= g) :=
  fun m s s' hs => (hx m s s' hs).bind (fun hm => by subst hm; exact hs) hf

theorem same (hx : Echoes c extent id x y) (hf : ∀ a, Echoes c extent view' (f a) (g a)) :
    Echoes c extent view' (x >>= f) (y >>= g) := by
  refine hx.bind fun a b hab => ?_
  obtain rfl : b = a := hab
  exact hf b

theorem inside (h : Echoes c .whole view x y) : Echoes c extent view x y := by
  intro m s s' hs a t hrun hquiet
  have htells := h m s s' hs a t hrun hquiet
  cases m with
  | marred | ended => exact htells
  | paired =>
    exact htells.imp_right fun hend => ⟨hend.1, .inr (hend.2.resolve_left Extent.noConfusion)⟩

theorem pure {a b : α} (h : view b = view a) :
    Echoes c extent view (Pure.pure a) (Pure.pure b) := by
  intro m s s' hs a' t hrun hquiet
  obtain ⟨rfl, rfl⟩ := EStateM.Result.ok.inj hrun
  cases m with
  | marred => exact hs hquiet
  | ended => rfl
  | paired => exact .inl ⟨b, s', rfl, h, hs⟩

theorem of_fails (h : Fails x) : Echoes c extent view x y :=
  fun _ s _ _ a t hrun => absurd hrun (h s a t)

theorem ite {p : Prop} [Decidable p] {x' y' : Parser α} (hx : Echoes c extent view x y)
    (hx' : Echoes c extent view x' y') :
    Echoes c extent view (if p then x else x') (if p then y else y') := by
  split
  · exact hx
  · exact hx'

theorem previous : Echoes c .whole Token.form Parse.previous Parse.previous := by
  intro m s s' hs a t hrun hquiet
  obtain ⟨rfl, rfl⟩ := EStateM.Result.ok.inj hrun
  cases m with
  | marred => exact hs hquiet
  | ended => rfl
  | paired => exact .inl ⟨s'.previous, s', rfl, hs.previous, hs⟩

theorem closed (hx : Echoes c .inside view x y)
    (hf : ∀ a b, view b = view a → Echoes c .whole view' (f a) (g b))
    (hfails : ∀ a, FailsAtEnd (f a)) : Echoes c .whole view' (x >>= f) (y >>= g) := by
  intro m s s' hs b t hrun hquiet
  obtain ⟨a, s₁, hxrun, hfrun⟩ := ok_of_bind hrun
  have hbefore : ¬s₁.Over := fun hover => hfails a s₁ hover.1 b t hfrun
  by_cases hquiet₁ : s₁.diagnostics = []
  · have htells := hx m s s' hs a s₁ hxrun hquiet₁
    cases m with
    | marred => exact htells.elim
    | ended =>
      obtain rfl : s₁ = s := htells
      exact absurd hs hbefore
    | paired =>
      rcases htells with ⟨a', s₁', hyrun, hview, htwin⟩ | ⟨hover, -⟩
      · rw [run_bind hyrun]
        exact hf a a' hview .paired s₁ s₁' htwin b t hfrun hquiet
      · exact absurd hover hbefore
  · exact (hf a a rfl .marred s₁ s₁ hquiet₁ b t hfrun hquiet).elim

end Echoes
end Combining

/-- A choice by the token at hand that neither the end of the text, nor a closing parenthesis, nor
`ret` passes. -/
structure Selective (passes : Token → Prop) : Prop where
  form : ∀ {t u : Token}, u.form = t.form → (passes u ↔ passes t)
  inner : ∀ {t : Token}, passes t → t.kind ≠ .endOfInput ∧ t.kind ≠ .rightParen ∧
    t.kind ≠ .keyword .retKw

theorem Selective.byKind (passes : TokenKind → Prop) (hend : ¬passes .endOfInput)
    (hparen : ¬passes .rightParen) (hret : ¬passes (.keyword .retKw)) :
    Selective fun t => passes t.kind := by
  refine ⟨fun h => by rw [kind_of_form h], fun ht => ⟨?_, ?_, ?_⟩⟩
  · exact fun hkind => hend (hkind ▸ ht)
  · exact fun hkind => hparen (hkind ▸ ht)
  · exact fun hkind => hret (hkind ▸ ht)

theorem Selective.byName (word : String) :
    Selective fun t => (t.kind == .identifier && t.lexeme == word) = true := by
  refine ⟨fun h => by rw [kind_of_form h, lexeme_of_form h], fun ht => ?_⟩
  rw [Bool.and_eq_true, beq_iff_eq] at ht
  rw [ht.1]
  decide

theorem Selective.either {p q : Token → Bool} (hp : Selective fun t => p t = true)
    (hq : Selective fun t => q t = true) : Selective fun t => (p t || q t) = true := by
  refine ⟨fun h => ?_, fun ht => ?_⟩
  · rw [Bool.or_eq_true, Bool.or_eq_true, hp.form h, hq.form h]
  · rcases Bool.or_eq_true_iff.1 ht with ht | ht
    · exact hp.inner ht
    · exact hq.inner ht

section Taking

variable {α γ : Type} {c : Closing} {extent : Extent} {m : Standing} {s s' : State} {view : α → γ}

theorem EchoesAt.current {x y : Token → Parser α}
    (h : EchoesAt c extent view m s s' (x s.current) (y s'.current)) :
    EchoesAt c extent view m s s' (Parse.current >>= x) (Parse.current >>= y) :=
  h

theorem EchoesAt.advance {f g : Unit → Parser α} (hs : Stand c m s s')
    (hend : s.current.kind ≠ .endOfInput) (hret : s.current.kind ≠ .keyword .retKw)
    (hf : Echoes c extent view (f ()) (g ())) :
    EchoesAt c extent view m s s' (Parse.advance >>= f) (Parse.advance >>= g) := by
  intro a t hrun hquiet
  replace hrun : f () s.advance = .ok a t := hrun
  cases m with
  | marred => exact hf .marred s.advance s.advance (State.marred_advance hs) a t hrun hquiet
  | ended => exact absurd hs.1 hend
  | paired =>
    by_cases hadvance : s.advance.diagnostics = []
    · exact hf .paired _ _ (hs.twin_advance hend hret hadvance) a t hrun hquiet
    · exact (hf .marred _ s.advance hadvance a t hrun hquiet).elim

namespace Echoes

/-- A parser that goes by the token at hand. Before the end of the text that is the same one for
both. -/
theorem byCurrent {x y : Token → Parser α}
    (hend : ∀ m s s', Stand c m s s' → s.current.kind = .endOfInput →
      EchoesAt c extent view m s s' (x s.current) (y c.paren))
    (hne : ∀ m s s', Stand c m s s' → s.current.kind ≠ .endOfInput → ∀ u : Token,
      u.form = s.current.form → EchoesAt c extent view m s s' (x s.current) (y u)) :
    Echoes c extent view (current >>= x) (current >>= y) := by
  refine fun m s s' hs => .current ?_
  by_cases hcurrent : s.current.kind = .endOfInput
  · cases m with
    | marred => exact hend .marred s s' hs hcurrent
    | ended => exact hend .ended s s' hs hcurrent
    | paired =>
      rw [(hs.mates.of_end hcurrent).2.2.1]
      exact hend .paired s s' hs hcurrent
  · cases m with
    | marred => exact hne .marred s s' hs hcurrent s.current rfl
    | ended => exact absurd hs.1 hcurrent
    | paired => exact hne .paired s s' hs hcurrent s'.current (hs.form hcurrent)

theorem take {x x' y y' : Token → Parser α} {passes : Token → Prop} [DecidablePred passes]
    (h : Selective passes)
    (hx : ∀ t u, u.form = t.form → Echoes c extent view (x t) (y u))
    (hx' : ∀ t u, Echoes c extent view (x' t) (y' u)) :
    Echoes c extent view
      (do let t ← current; if passes t then (do advance; x t) else x' t)
      (do let t ← current; if passes t then (do advance; y t) else y' t) := by
  refine byCurrent (fun m s s' hs hend => ?_) fun m s s' hs hend u hu => ?_
  · have hparen : ¬passes c.paren := fun hpass => (h.inner hpass).2.1 c.isParen
    have hcurrent : ¬passes s.current := fun hpass => (h.inner hpass).1 hend
    rw [if_neg hcurrent, if_neg hparen]
    exact hx' _ _ m s s' hs
  · by_cases hpass : passes s.current
    · rw [if_pos hpass, if_pos ((h.form hu).2 hpass)]
      exact .advance hs hend (h.inner hpass).2.2 (hx _ _ hu)
    · rw [if_neg hpass, if_neg fun hu' => hpass ((h.form hu).1 hu')]
      exact hx' _ _ m s s' hs

/-- A loop stops at the end of the text, and at the same tokens before it. -/
theorem unlessOver {x y : Token → Parser α} (stops : TokenKind → Prop) [DecidablePred stops]
    (hstops : stops .endOfInput) {a b : α} (hab : view b = view a)
    (hx : ∀ t u, u.form = t.form → Echoes c .inside view (x t) (y u)) :
    Echoes c .inside view (do let t ← current; if stops t.kind then Pure.pure a else x t)
      (do let t ← current; if stops t.kind then Pure.pure b else y t) := by
  refine byCurrent (fun m s s' hs hend => ?_) fun m s s' hs hend u hu => ?_
  · rw [hend, if_pos hstops]
    intro a' t hrun hquiet
    obtain ⟨rfl, rfl⟩ := EStateM.Result.ok.inj hrun
    cases m with
    | marred => exact hs hquiet
    | ended => rfl
    | paired => exact .inr ⟨hs.isOver hend, .inl rfl⟩
  · rw [kind_of_form hu]
    split
    · exact pure hab m s s' hs
    · exact hx _ _ hu m s s' hs

end Echoes
end Taking

section Asking

variable {α γ : Type} {c : Closing} {extent : Extent} {kind : TokenKind} {view : α → γ}
variable {x x' y y' : Parser α} {f g : Token → Parser α}

theorem EchoesAt.of_failsAtEnd {m : Standing} {s s' : State} (h : FailsAtEnd x)
    (hend : s.current.kind = .endOfInput) : EchoesAt c extent view m s s' x y :=
  fun a t hrun => absurd hrun (h s hend a t)

theorem check_bind (f : Bool → Parser α) :
    (check kind >>= f) = current >>= fun t => f (t.kind == kind) := rfl

theorem accept_bind (f : Bool → Parser α) :
    (accept kind >>= f) = current >>= fun t => if t.kind = kind then (do advance; f true)
      else f false := by
  funext s
  have hcurrent : current s = .ok s.current s := rfl
  rw [run_bind hcurrent]
  split
  · rw [run_bind (accept_of_eq ‹_›)]
    rfl
  · rw [run_bind (accept_of_ne ‹_›)]

namespace Echoes

theorem accept (hend : kind ≠ .endOfInput) (hparen : kind ≠ .rightParen)
    (hret : kind ≠ .keyword .retKw) :
    Echoes c .whole id (Parse.accept kind) (Parse.accept kind) := by
  have hselective : Selective fun t => t.kind = kind :=
    .byKind (· = kind) hend.symm hparen.symm hret.symm
  have hresult : Parse.accept kind = Parse.accept kind >>= Pure.pure := (bind_pure _).symm
  rw [hresult, accept_bind]
  exact take hselective (fun _ _ _ => pure rfl) fun _ _ => pure rfl

/-- A token that closes something is looked for before what else may stand there, which is not the
end of the text. -/
theorem checkOr (hend : kind ≠ .endOfInput) (hx : Echoes c .whole view x y)
    (hx' : Echoes c .whole view x' y') (hfails : FailsAtEnd x') :
    Echoes c .whole view (do if ← check kind then x else x')
      (do if ← check kind then y else y') := by
  rw [check_bind, check_bind]
  refine byCurrent (fun m s s' hs hover => ?_) fun m s s' hs hover u hu => ?_
  · rw [if_neg (by simp [hover, hend.symm])]
    exact .of_failsAtEnd hfails hover
  · rw [kind_of_form hu]
    split
    · exact hx m s s' hs
    · exact hx' m s s' hs

theorem acceptOr (hend : kind ≠ .endOfInput) (hret : kind ≠ .keyword .retKw)
    (hx : Echoes c .whole view x y) (hx' : Echoes c .whole view x' y') (hfails : FailsAtEnd x') :
    Echoes c .whole view (do if ← Parse.accept kind then x else x')
      (do if ← Parse.accept kind then y else y') := by
  rw [accept_bind, accept_bind]
  refine byCurrent (fun m s s' hs hover => ?_) fun m s s' hs hover u hu => ?_
  · rw [if_neg (by simp [hover, hend.symm])]
    exact .of_failsAtEnd hfails hover
  · rw [kind_of_form hu]
    split
    · exact .advance hs hover (fun h => hret (‹s.current.kind = kind›.symm.trans h)) hx
    · exact hx' m s s' hs

theorem takeName (word : String) (hx : Echoes c extent view x y)
    (hx' : Echoes c extent view x' y') :
    Echoes c extent view (do if ← checkName word then (do advance; x) else x')
      (do if ← checkName word then (do advance; y) else y') :=
  take (.byName word) (fun _ _ _ => hx) fun _ _ => hx'

theorem takeEither (word word' : String) (hx : Echoes c extent view x y)
    (hx' : Echoes c extent view x' y') :
    Echoes c extent view
      (do if (← checkName word) || (← checkName word') then (do advance; x) else x')
      (do if (← checkName word) || (← checkName word') then (do advance; y) else y') :=
  take (.either (.byName word) (.byName word')) (fun _ _ _ => hx) fun _ _ => hx'

theorem takeOperator (hx : Echoes c extent view x y) (hfails : ∀ t, Fails (f t)) :
    Echoes c extent view (do let t ← current; if !t.kind.isOperator then f t else (do advance; x))
      (do let t ← current; if !t.kind.isOperator then g t else (do advance; y)) := by
  have hswap : ∀ (b : Bool) (v w : Parser α), (if (!b) = true then v else w) = if b = true
      then w else v := by
    intro b v w
    cases b <;> rfl
  simp only [hswap]
  exact take (.byKind (·.isOperator = true) (by decide) (by decide) (by decide)) (fun _ _ _ => hx)
    fun t _ => of_fails (hfails t)

theorem expect (hend : kind ≠ .endOfInput) (hret : kind ≠ .keyword .retKw) (e : Expectation) :
    Echoes c .whole id (Parse.expect kind e) (Parse.expect kind e) := by
  have hfails : Fails (current >>= fun t => failAt t e : Parser Unit) := .after fun t => .failAt t e
  have hshape : Parse.expect kind e =
      Parse.accept kind >>= fun found => if found then Pure.pure () else current >>= fun t =>
        failAt t e := by
    refine congrArg (Parse.accept kind >>= ·) (funext fun found => ?_)
    cases found <;> rfl
  rw [hshape]
  exact acceptOr hend hret (pure rfl) (of_fails hfails) fun s _ => hfails s

theorem expectName (e : Expectation) :
    Echoes c .whole id (Parse.expectName e) (Parse.expectName e) :=
  same (expect (by decide) (by decide) e) fun _ => bind previous fun _ _ h =>
    pure (lexeme_of_form h)

theorem skipKinds {kinds : List TokenKind} (hend : .endOfInput ∉ kinds)
    (hparen : .rightParen ∉ kinds) (hret : .keyword .retKw ∉ kinds) :
    Echoes c .whole id (Parse.skipKinds kinds) (Parse.skipKinds kinds) := by
  intro m s s' hs a t hrun hquiet
  obtain ⟨-, rfl⟩ := EStateM.Result.ok.inj hrun
  cases m with
  | marred => exact State.marred_skip kinds hs hquiet
  | ended =>
    rw [State.skip, if_neg]
    · rfl
    · simp [hs.1, hend]
  | paired =>
    exact .inl ⟨(), s'.skip kinds, rfl, rfl, hs.skip hend hparen hret hquiet⟩

end Echoes
end Asking

end Parse
end Refscript
