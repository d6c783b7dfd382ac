import Refscript.Proofs.Syntax.Term
import Refscript.Syntax.Parse

/-!
# Refscript.Proofs.Syntax.Taking

How parsers take tokens when nothing is wrong with them.

* `Parse.State.ahead`: the state in which given tokens are ahead.
* `Parse.Supply`: tokens ahead that are read as given lexemes, with enough fuel for them. A parser's
  fuel is enough as long as there are not more tokens ahead, since every level and every turn takes
  one.
* `Parse.Takes`: a parser takes the tokens before a given rest; `Takes.bind` puts parsers one after
  the other.
-/

namespace Refscript
namespace Parse

/-- The state in which the given tokens are ahead. -/
def State.ahead (previous : Token) (tokens : List Token) (ds : List Diagnostic) : State :=
  ⟨previous, tokens.headD previous, tokens.tail, ds⟩

/-- Tokens among which none is malformed; there is always one left, the end if nothing else. -/
structure Ready (tokens : List Token) : Prop where
  more : tokens ≠ []
  clean : ∀ t ∈ tokens, ∀ e, t.kind ≠ .error e

end Parse

/-- The lexemes are read in the same way: they differ at most in how the characters of a string are
escaped. -/
structure Lexeme.Alike (m l : Lexeme) : Prop where
  kind : m.kind = l.kind
  text : l.kind ≠ .string → m.text = l.text
  body : l.kind = .string → Parse.unescape (Parse.quotedBody m.text) =
    Parse.unescape (Parse.quotedBody l.text)

theorem Lexeme.Alike.refl (l : Lexeme) : l.Alike l :=
  ⟨rfl, fun _ => rfl, fun _ => rfl⟩

/-- The tokens are read as the lexemes. -/
def Spelled (ts : List Token) (ls : List Lexeme) : Prop :=
  List.Forall₂ (fun t l => t.form.Alike l) ts ls

namespace Spelled

variable {ls ls' : List Lexeme} {l : Lexeme} {ts : List Token}

theorem of_form (h : ts.map Token.form = ls) : Spelled ts ls := by
  rw [Spelled, ← h, List.forall₂_map_right_iff, List.forall₂_same]
  exact fun t _ => .refl t.form

theorem uncons (h : Spelled ts (l :: ls)) :
    ∃ t us, ts = t :: us ∧ t.form.Alike l ∧ Spelled us ls := by
  obtain ⟨t, us, ht, hus, rfl⟩ := List.forall₂_cons_right_iff.1 h
  exact ⟨t, us, rfl, ht, hus⟩

theorem nil (h : Spelled ts []) : ts = [] :=
  List.forall₂_nil_right_iff.1 h

theorem single (h : Spelled ts [l]) : ∃ t, ts = [t] ∧ t.form.Alike l := by
  obtain ⟨t, us, rfl, ht, hus⟩ := h.uncons
  exact ⟨t, by rw [hus.nil], ht⟩

theorem split (h : Spelled ts (ls ++ ls')) :
    ∃ ts₁ ts₂, ts = ts₁ ++ ts₂ ∧ Spelled ts₁ ls ∧ Spelled ts₂ ls' :=
  ⟨ts.take ls.length, ts.drop ls.length, (List.take_append_drop ..).symm,
    List.forall₂_take_append _ _ _ h, List.forall₂_drop_append _ _ _ h⟩

theorem clean (h : Spelled ts ls) (hls : ∀ l ∈ ls, ∀ e, l.kind ≠ .error e) :
    ∀ t ∈ ts, ∀ e, t.kind ≠ .error e := by
  induction h with
  | nil => simp
  | cons ht _ ih =>
    obtain ⟨hl, hls⟩ := List.forall_mem_cons.1 hls
    refine List.forall_mem_cons.2 ⟨fun e he => hl e ?_, ih hls⟩
    exact ht.kind.symm.trans he

end Spelled

namespace Parse

/-- The tokens `ts` are read as the lexemes and have `rest` after them; `fuel` is enough to read
them. -/
structure Supply (ls : List Lexeme) (fuel : Nat) (ts rest : List Token) : Prop where
  spelled : Spelled ts ls
  ready : Ready rest
  clean : ∀ t ∈ ts, ∀ e, t.kind ≠ .error e
  short : (ts ++ rest).length ≤ fuel

namespace Supply

variable {ls ls' : List Lexeme} {l : Lexeme} {fuel k : Nat} {ts rest : List Token}

theorem ahead (h : Supply ls fuel ts rest) : Ready (ts ++ rest) :=
  ⟨by simp [h.ready.more], List.forall_mem_append.2 ⟨h.clean, h.ready.clean⟩⟩

theorem within (h : Supply ls fuel ts rest) (hk : (ts ++ rest).length ≤ k) : Supply ls k ts rest :=
  { h with short := hk }

theorem mono (h : Supply ls k ts rest) (hk : k ≤ fuel) : Supply ls fuel ts rest :=
  h.within (Nat.le_trans h.short hk)

theorem split (h : Supply (ls ++ ls') fuel ts rest) :
    ∃ ts₁ ts₂, ts = ts₁ ++ ts₂ ∧ Supply ls fuel ts₁ (ts₂ ++ rest) ∧ Supply ls' fuel ts₂ rest := by
  obtain ⟨ts₁, ts₂, rfl, h₁, h₂⟩ := h.spelled.split
  obtain ⟨hclean₁, hclean₂⟩ := List.forall_mem_append.1 h.clean
  have hshort := h.short
  rw [List.append_assoc] at hshort
  have htail : Supply ls' fuel ts₂ rest := by
    refine ⟨h₂, h.ready, hclean₂, ?_⟩
    rw [List.length_append] at hshort
    omega
  exact ⟨ts₁, ts₂, rfl, ⟨h₁, htail.ahead, hclean₁, hshort⟩, htail⟩

theorem uncons (h : Supply (l :: ls) (fuel + 1) ts rest) :
    ∃ t us, ts = t :: us ∧ t.kind = l.kind ∧ t.form.Alike l ∧ Supply ls fuel us rest := by
  obtain ⟨t, us, rfl, hform, hus⟩ := h.spelled.uncons
  have hshort := h.short
  simp only [List.cons_append, List.length_cons] at hshort
  refine ⟨t, us, rfl, hform.kind, hform, hus, h.ready, ?_, by omega⟩
  exact fun u hu => h.clean u (List.mem_cons_of_mem _ hu)

theorem last (h : Supply (ls ++ [l]) fuel ts rest) :
    ∃ us c, ts = us ++ [c] ∧ c.kind = l.kind ∧ Supply ls fuel us (c :: rest) := by
  obtain ⟨us, us', rfl, hus, hus'⟩ := h.split
  obtain ⟨c, rfl, hc⟩ := hus'.spelled.single
  exact ⟨us, c, rfl, hc.kind, hus⟩

theorem length_rest (h : Supply ls fuel ts rest) : rest.length ≤ fuel := by
  have hshort := h.short
  rw [List.length_append] at hshort
  omega

theorem fuel_eq (h : Supply ls fuel ts rest) : ∃ k, fuel = k + 1 := by
  have hrest := h.length_rest
  have hmore := List.length_pos_of_ne_nil h.ready.more
  exact ⟨fuel - 1, by omega⟩

end Supply

section Steps

variable {α β : Type} {x : Parser α} {f : α → Parser β} {a : α} {s s' : State}
variable {prev t : Token} {rest : List Token} {ds : List Diagnostic} {kind : TokenKind}

theorem run_bind (h : x s = .ok a s') : (x >>= f) s = f a s' := by
  simp only [bind, EStateM.bind, h]

theorem nextToken_of_clean {eof : Token} (h : ∀ e, t.kind ≠ .error e) :
    nextToken eof (t :: rest) = ([], t, rest) := by
  rw [nextToken]
  split
  · rename_i e he
    exact absurd he (h e)
  · rfl

theorem run_advance (h : Ready rest) :
    advance (.ahead prev (t :: rest) ds) = .ok () (.ahead t rest ds) := by
  obtain ⟨u, us, rfl⟩ := List.exists_cons_of_ne_nil h.more
  have hnext : nextToken t (u :: us) = ([], u, us) :=
    nextToken_of_clean (h.clean u List.mem_cons_self)
  have hstate : State.advance (.ahead prev (t :: u :: us) ds) = .ahead t (u :: us) ds := by
    simp only [State.advance, State.ahead, List.headD_cons, List.tail_cons, hnext, List.append_nil]
  exact congrArg (EStateM.Result.ok ()) hstate

theorem run_current :
    current (.ahead prev (t :: rest) ds) = .ok t (.ahead prev (t :: rest) ds) := rfl

theorem run_previous : previous (.ahead prev rest ds) = .ok prev (.ahead prev rest ds) := rfl

theorem run_check :
    check kind (.ahead prev (t :: rest) ds) = .ok (t.kind == kind) (.ahead prev (t :: rest) ds) :=
      rfl

theorem run_accept (h : Ready rest) (hkind : t.kind = kind) :
    accept kind (.ahead prev (t :: rest) ds) = .ok true (.ahead t rest ds) := by
  rw [accept, run_bind run_check, hkind, beq_self_eq_true, if_pos rfl, run_bind (run_advance h)]
  rfl

theorem run_refuse (hkind : t.kind ≠ kind) :
    accept kind (.ahead prev (t :: rest) ds) = .ok false (.ahead prev (t :: rest) ds) := by
  rw [accept, run_bind run_check, beq_eq_false_iff_ne.2 hkind, if_neg Bool.false_ne_true]
  rfl

theorem run_expect (h : Ready rest) (hkind : t.kind = kind) (e : Expectation) :
    expect kind e (.ahead prev (t :: rest) ds) = .ok () (.ahead t rest ds) := by
  rw [expect, run_bind (run_accept h hkind)]
  rfl

end Steps

/-- The parser takes the tokens before `rest`, reports nothing, and gives a result of the kind
described. -/
def Takes {α : Type} (x : Parser α) (s : State) (describes : α → Prop) (rest : List Token) : Prop :=
  ∃ a prev, x s = .ok a (.ahead prev rest s.diagnostics) ∧ describes a

section Takes

variable {α β : Type} {x : Parser α} {f : α → Parser β} {P : α → Prop} {Q : β → Prop} {s : State}
variable {mid rest : List Token}

theorem Takes.bind (hx : Takes x s P mid)
    (hf : ∀ a prev, P a → Takes (f a) (.ahead prev mid s.diagnostics) Q rest) :
    Takes (x >>= f) s Q rest := by
  obtain ⟨a, prev, hrun, ha⟩ := hx
  obtain ⟨b, prev', hrest, hb⟩ := hf a prev ha
  exact ⟨b, prev', (run_bind hrun).trans hrest, hb⟩

theorem Takes.after {a : α} {s' : State} (hx : x s = .ok a s')
    (hds : s'.diagnostics = s.diagnostics) (hf : Takes (f a) s' Q rest) :
    Takes (x >>= f) s Q rest := by
  obtain ⟨b, prev, hrest, hb⟩ := hf
  exact ⟨b, prev, by rw [run_bind hx, hrest, hds], hb⟩

theorem takes_pure {a : α} {prev : Token} {ds : List Diagnostic} (ha : P a) :
    Takes (pure a) (.ahead prev rest ds) P rest :=
  ⟨a, prev, rfl, ha⟩

end Takes

end Parse
end Refscript
