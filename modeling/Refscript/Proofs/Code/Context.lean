import Mathlib.Data.List.Nodup
import Refscript.Proofs.Code.Functions
import Refscript.Proofs.Code.Scoping

/-!
# Refscript.Proofs.Code.Context

Lowering and charts walk through a program side by side. `Context.Holds c s` says that the builders
of `s` have in scope what the context `c` says, and that the functions inside the one at hand are
what their charts say.

The first part is about contexts alone: what a construct may do to them. The second part says that
each step of lowering that has to do with names keeps `Holds`, with the context that the plan of the
step gives.
-/

namespace Refscript

namespace Context

variable {c c' d : Context} {x : String} {id : Nat}

/-- The blocks that are open in the function at hand and in those around it. -/
def ids (c : Context) : List Nat :=
  Scope.ids (c.scope :: c.around)

/-- Open blocks have different numbers, names in scope are distinct, and captured variables are
declared ones of the blocks so far. -/
structure Ok (c : Context) : Prop where
  rooted : c.scope ≠ []
  names : ∀ S ∈ c.scope :: c.around, S.names.Nodup
  distinct : c.ids.Nodup
  fresh : ∀ id ∈ c.ids, id < c.fresh
  known : ∀ p ∈ c.captured, p.1 < c.fresh
  declared : ∀ b ∈ (c.scope :: c.around).flatten, ∀ x, (b.id, x) ∈ c.captured → x ∈ b.names

theorem Ok.scope (h : c.Ok) : c.scope.Distinct := by
  have hids := h.distinct
  rw [ids, Scope.ids, List.flatten_cons, List.map_append, List.nodup_append] at hids
  exact ⟨h.names c.scope List.mem_cons_self, hids.1⟩

/-- What a construct may do to a context. -/
structure Grows (c c' : Context) : Prop where
  around : c'.around = c.around
  scope : ∃ b S more, c.scope = b :: S ∧ c'.scope = { b with names := b.names ++ more } :: S
  inner : c.inner <+: c'.inner
  captured : ∀ p ∈ c.captured, p ∈ c'.captured
  fresh : c.fresh ≤ c'.fresh
  old : ∀ p ∈ c'.captured, p ∈ c.captured ∨ p.1 ∈ c.ids ∨ c.fresh ≤ p.1

namespace Grows

theorem refl (h : c.Ok) : c.Grows c := by
  refine ⟨rfl, ?_, List.prefix_refl _, fun _ hp => hp, Nat.le_refl _, fun _ hp => .inl hp⟩
  cases hs : c.scope with
  | nil => exact absurd hs h.rooted
  | cons b S => exact ⟨b, S, [], rfl, by rw [List.append_nil]⟩

theorem ids_eq (h : c.Grows c') : c'.ids = c.ids := by
  obtain ⟨b, S, more, hc, hc'⟩ := h.scope
  rw [ids, ids, h.around, hc, hc']
  rfl

theorem trans (h₁ : c.Grows d) (h₂ : d.Grows c') : c.Grows c' := by
  refine ⟨h₂.around.trans h₁.around, ?_, h₁.inner.trans h₂.inner,
    fun p hp => h₂.captured p (h₁.captured p hp), Nat.le_trans h₁.fresh h₂.fresh, fun p hp => ?_⟩
  · obtain ⟨b, S, more, hc, hd⟩ := h₁.scope
    obtain ⟨b', S', more', hd', hc'⟩ := h₂.scope
    rw [hd] at hd'
    cases hd'
    exact ⟨b, S, more ++ more', hc, by rw [hc', List.append_assoc]⟩
  · rcases h₂.old p hp with hp | hp | hp
    · exact h₁.old p hp
    · rw [h₁.ids_eq] at hp
      exact .inr (.inl hp)
    · exact .inr (.inr (Nat.le_trans h₁.fresh hp))

theorem flow (h : c.Grows c') (K : List (Nat × String)) : Scope.Flow K c.scope c'.scope := by
  obtain ⟨b, S, more, hc, hc'⟩ := h.scope
  rw [hc, hc']
  exact .declare more .refl

end Grows

theorem Grows.isRoot (h : c.Grows c') : c'.isRoot = c.isRoot := by
  obtain ⟨b, S, more, hc, hc'⟩ := h.scope
  rw [Context.isRoot, Context.isRoot, h.around, hc, hc']
  rfl

theorem Grows.slot? (h : c.Grows c') (h' : c'.Ok) {slot : Nat}
    (hslot : c.scope.slot? x = some slot) : c'.scope.slot? x = some slot := by
  obtain ⟨b, S, more, hc, hc'⟩ := h.scope
  have hget := Scope.getElem?_of_slot? hslot
  refine Scope.slot?_of_getElem? (h'.names _ List.mem_cons_self) ?_
  rw [hc, Scope.names] at hget
  rw [hc', Scope.names, ← List.append_assoc]
  exact getElem?_of_isPrefix (List.prefix_append _ _) hget

/-- Reading a name, assigning to it or taking a reference changes nothing but the captured
variables. -/
theorem touch_eq (c : Context) (a : Access) (x : String) :
    c.touch a x = { c with captured := (c.touch a x).captured } := by
  have hcapture : ∀ scopes,
      c.capture scopes x = { c with captured := (c.capture scopes x).captured } := by
    intro scopes
    unfold capture
    split <;> rfl
  cases a with
  | refer => exact hcapture _
  | _ =>
    unfold touch
    dsimp only
    split
    · rfl
    · exact hcapture _

@[simp] theorem touch_scope (c : Context) (a : Access) (x : String) :
    (c.touch a x).scope = c.scope := by rw [touch_eq]

@[simp] theorem touch_around (c : Context) (a : Access) (x : String) :
    (c.touch a x).around = c.around := by rw [touch_eq]

@[simp] theorem touch_inner (c : Context) (a : Access) (x : String) :
    (c.touch a x).inner = c.inner := by rw [touch_eq]

theorem mem_captured_touch (a : Access) {p : Nat × String} (hp : p ∈ (c.touch a x).captured) :
    p ∈ c.captured ∨ ∃ S ∈ c.scope :: c.around, S.home? x = some p.1 ∧ p.2 = x := by
  have hcapture : ∀ scopes : List Scope, (∀ S ∈ scopes, S ∈ c.scope :: c.around) →
    p ∈ (c.capture scopes x).captured →
      p ∈ c.captured ∨ ∃ S ∈ c.scope :: c.around, S.home? x = some p.1 ∧ p.2 = x := by
    intro scopes hsub hp
    unfold capture at hp
    split at hp
    · rename_i id hid
      rcases List.mem_cons.1 hp with rfl | hp
      · obtain ⟨S, hS, hhome⟩ := List.exists_of_findSome?_eq_some hid
        exact .inr ⟨S, hsub S hS, hhome, rfl⟩
      · exact .inl hp
    · exact .inl hp
  cases a with
  | refer => exact hcapture _ (fun _ hS => hS) hp
  | _ =>
    unfold touch at hp
    dsimp only at hp
    split at hp
    · exact .inl hp
    · exact hcapture _ (fun _ hS => List.mem_cons_of_mem _ hS) hp

theorem touch_refer_of_not_mem (hx : x ∉ c.scope.names) : c.touch .refer x = c.touch .load x := by
  show c.capture (c.scope :: c.around) x = if x ∈ c.scope.names then c else c.capture c.around x
  rw [if_neg hx, capture, capture, List.findSome?_cons, Scope.home?_eq_none_iff.2 hx]

theorem touch_refer_of_home? {id : Nat} (hid : c.scope.home? x = some id) :
    c.touch .refer x = { c with captured := (id, x) :: c.captured } := by
  show c.capture (c.scope :: c.around) x = _
  rw [capture, List.findSome?_cons, hid]

theorem grows_declare (h : c.Ok) (x : String) : c.Grows (c.declare x) := by
  refine { Grows.refl h with scope := ?_ }
  obtain ⟨b, S, hs⟩ := List.exists_cons_of_ne_nil h.rooted
  by_cases hx : x ∈ c.scope.names
  · exact ⟨b, S, [], hs, by rw [declare, Scope.declare_of_mem hx, hs, List.append_nil]⟩
  · refine ⟨b, S, [x], hs, ?_⟩
    rw [hs] at hx
    rw [declare, hs, Scope.declare_of_not_mem hx]

theorem Ok.declare (h : c.Ok) (x : String) : (c.declare x).Ok := by
  have hgrows := grows_declare h x
  refine ⟨?_,
    ?_, by rw [hgrows.ids_eq]; exact h.distinct, by rw [hgrows.ids_eq]; exact h.fresh, h.known, ?_⟩
  · obtain ⟨_, _, _, _, hs⟩ := hgrows.scope
    rw [hs]
    exact List.cons_ne_nil _ _
  · obtain ⟨hown, hrest⟩ := List.forall_mem_cons.1 h.names
    exact List.forall_mem_cons.2 ⟨Scope.nodup_declare hown x, hrest⟩
  · obtain ⟨b, S, more, hs, hs'⟩ := hgrows.scope
    intro d hd y hy
    rw [hs', List.flatten_cons] at hd
    rcases List.mem_append.1 hd with hd | hd
    · rcases List.mem_cons.1 hd with rfl | hd
      · exact List.mem_append_left _ (h.declared b (by rw [hs]; simp) y hy)
      · exact h.declared d (by rw [hs]; simp [hd]) y hy
    · exact h.declared d (List.mem_append_right _ hd) y hy

theorem grows_touch (h : c.Ok) (a : Access) (x : String) : c.Grows (c.touch a x) := by
  have hold : ∀ p ∈ c.captured, p ∈ (c.touch a x).captured := by
    have hcapture : ∀ scopes, ∀ p ∈ c.captured, p ∈ (c.capture scopes x).captured := by
      intro scopes p hp
      unfold capture
      split
      · exact List.mem_cons_of_mem _ hp
      · exact hp
    cases a with
    | refer => exact hcapture _
    | _ =>
      unfold touch
      dsimp only
      split
      · exact fun _ hp => hp
      · exact hcapture _
  have hnew : ∀ p ∈ (c.touch a x).captured, p ∈ c.captured ∨ p.1 ∈ c.ids ∨ c.fresh ≤ p.1 := by
    intro p hp
    refine (mem_captured_touch a hp).imp id fun ⟨S, hS, hhome, _⟩ => .inl ?_
    obtain ⟨b, hb, hid, _⟩ := Scope.home?_eq_some hhome
    rw [← hid]
    exact List.mem_map_of_mem (List.mem_flatten.2 ⟨S, hS, hb⟩)
  rw [touch_eq]
  exact { Grows.refl h with captured := hold, old := hnew }

theorem Ok.touch (h : c.Ok) (a : Access) (x : String) : (c.touch a x).Ok := by
  have hmem := fun p => mem_captured_touch (c := c) (x := x) a (p := p)
  have hids := (grows_touch h a x).ids_eq
  rw [touch_eq]
  refine ⟨h.rooted, h.names, h.distinct, h.fresh, fun p hp => ?_, fun b hb y hy => ?_⟩
  · rcases hmem p hp with hp | ⟨S, hS, hhome, _⟩
    · exact h.known p hp
    · obtain ⟨b, hb, hid, _⟩ := Scope.home?_eq_some hhome
      rw [← hid]
      exact h.fresh _ (List.mem_map_of_mem (List.mem_flatten.2 ⟨S, hS, hb⟩))
  · rcases hmem _ hy with hy | ⟨S, hS, hhome, rfl⟩
    · exact h.declared b hb y hy
    · obtain ⟨d, hd, hid, hx⟩ := Scope.home?_eq_some hhome
      rw [List.inj_on_of_nodup_map h.distinct hb (List.mem_flatten.2 ⟨S, hS, hd⟩) hid.symm]
      exact hx

theorem Ok.fresh_not_captured (h : c.Ok) (x : String) : (c.fresh, x) ∉ c.captured :=
  fun hx => Nat.lt_irrefl _ (h.known _ hx)

theorem Ok.fresh_not_open (h : c.Ok) : c.fresh ∉ c.ids :=
  fun hid => Nat.lt_irrefl _ (h.fresh _ hid)

theorem Ok.openBlock (h : c.Ok) : c.openBlock.Ok := by
  have hids : c.openBlock.ids = c.fresh :: c.ids := rfl
  obtain ⟨hown, hrest⟩ := List.forall_mem_cons.1 h.names
  refine ⟨List.cons_ne_nil _ _, List.forall_mem_cons.2 ⟨?_, hrest⟩, ?_, ?_,
    fun p hp => Nat.lt_succ_of_lt (h.known p hp), ?_⟩
  · rw [Context.openBlock, Scope.names, List.append_nil]
    exact hown
  · rw [hids]
    exact List.nodup_cons.2 ⟨h.fresh_not_open, h.distinct⟩
  · rw [hids]
    exact List.forall_mem_cons.2
      ⟨Nat.lt_succ_self _, fun id hid => Nat.lt_succ_of_lt (h.fresh id hid)⟩
  · intro b hb x hx
    rcases List.mem_cons.1 hb with rfl | hb
    · exact absurd hx (h.fresh_not_captured x)
    · exact h.declared b hb x hx

theorem Grows.openBlock (h : c.openBlock.Grows c') :
    ∃ more, c'.scope = ⟨c.fresh, more⟩ :: c.scope := by
  obtain ⟨b, S, more, hs, hs'⟩ := h.scope
  cases hs
  exact ⟨more, by rw [hs', List.nil_append]⟩

theorem Ok.closeBlock (h : c.Ok) (hgrows : c.openBlock.Grows c') (h' : c'.Ok) :
    Ok { c' with scope := c.scope } := by
  have haround : c'.around = c.around := hgrows.around
  obtain ⟨more, hscope⟩ := hgrows.openBlock
  have hids : ids { c' with scope := c.scope } = c.ids := by
    show Scope.ids (c.scope :: c'.around) = _
    rw [haround]
    rfl
  refine ⟨h.rooted, haround ▸ h.names, hids.symm ▸ h.distinct, fun id hid => ?_, h'.known,
    fun b hb x hx => ?_⟩
  · rw [hids] at hid
    exact Nat.lt_of_lt_of_le (h.fresh id hid) (Nat.le_trans (Nat.le_succ _) hgrows.fresh)
  · refine h'.declared b ?_ x hx
    rw [hscope]
    exact List.mem_cons_of_mem _ hb

theorem Grows.closeBlock (h : c.Ok) (hgrows : c.openBlock.Grows c') :
    c.Grows { c' with scope := c.scope } := by
  refine ⟨hgrows.around, ?_, hgrows.inner, hgrows.captured,
    Nat.le_trans (Nat.le_succ _) hgrows.fresh, fun p hp => ?_⟩
  · obtain ⟨b, S, hs⟩ := List.exists_cons_of_ne_nil h.rooted
    exact ⟨b, S, [], hs, by rw [hs, List.append_nil]⟩
  · rcases hgrows.old p hp with hp | hp | hp
    · exact .inl hp
    · rcases List.mem_cons.1 (show p.1 ∈ c.fresh :: c.ids from hp) with hp | hp
      · exact .inr (.inr (Nat.le_of_eq hp.symm))
      · exact .inr (.inl hp)
    · exact .inr (.inr (Nat.le_trans (Nat.le_succ _) hp))

/-- A function inside the one at hand before its parameters are declared. -/
def blank (c : Context) : Context :=
  ⟨[⟨c.fresh, []⟩], [], c.scope :: c.around, c.captured, c.fresh + 1⟩

theorem Ok.blank (h : c.Ok) : c.blank.Ok := by
  have hids : c.blank.ids = c.fresh :: c.ids := rfl
  refine ⟨List.cons_ne_nil _ _, List.forall_mem_cons.2 ⟨.nil, h.names⟩, ?_, ?_,
    fun p hp => Nat.lt_succ_of_lt (h.known p hp), ?_⟩
  · rw [hids]
    exact List.nodup_cons.2 ⟨h.fresh_not_open, h.distinct⟩
  · rw [hids]
    exact List.forall_mem_cons.2
      ⟨Nat.lt_succ_self _, fun id hid => Nat.lt_succ_of_lt (h.fresh id hid)⟩
  · intro b hb x hx
    rcases List.mem_cons.1 hb with rfl | hb
    · exact absurd hx (h.fresh_not_captured x)
    · exact h.declared b hb x hx

theorem ok_foldl_declare (h : c.Ok) (params : List String) :
    (params.foldl Context.declare c).Ok ∧ c.Grows (params.foldl Context.declare c) := by
  induction params generalizing c with
  | nil => exact ⟨h, .refl h⟩
  | cons x params ih =>
    obtain ⟨hok, hgrows⟩ := ih (h.declare x)
    exact ⟨hok, (grows_declare h x).trans hgrows⟩

theorem ok_enter (h : c.Ok) (params : List String) :
    (c.enter params).Ok ∧ c.blank.Grows (c.enter params) :=
  ok_foldl_declare h.blank params

@[simp] theorem enter_inner (c : Context) (params : List String) : (c.enter params).inner = [] := by
  have hdeclare : ∀ d : Context, (params.foldl declare d).inner = d.inner := by
    induction params with
    | nil => exact fun _ => rfl
    | cons x params ih => exact fun d => ih (d.declare x)
  exact hdeclare c.blank

/-- The function at hand after a function inside it, with what that captured. -/
def resume (c c' : Context) (chart : Chart) : Context :=
  { c with inner := c.inner ++ [(c.scope, chart)], captured := c'.captured, fresh := c'.fresh }

theorem Ok.resume (h : c.Ok) (hgrows : c.blank.Grows c') (h' : c'.Ok) (chart : Chart) :
    (c.resume c' chart).Ok := by
  refine ⟨h.rooted, h.names, h.distinct, fun id hid => ?_, h'.known, fun b hb x hx => ?_⟩
  · exact Nat.lt_of_lt_of_le (h.fresh id hid) (Nat.le_trans (Nat.le_succ _) hgrows.fresh)
  · refine h'.declared b ?_ x hx
    rw [hgrows.around]
    exact List.mem_append_right _ hb

theorem Grows.resume (h : c.Ok) (hgrows : c.blank.Grows c') (chart : Chart) :
    c.Grows (c.resume c' chart) := by
  refine ⟨rfl, (Grows.refl h).scope, List.prefix_append _ _, hgrows.captured,
    Nat.le_trans (Nat.le_succ _) hgrows.fresh, fun p hp => ?_⟩
  rcases hgrows.old p hp with hp | hp | hp
  · exact .inl hp
  · rcases List.mem_cons.1 (show p.1 ∈ c.fresh :: c.ids from hp) with hp | hp
    · exact .inr (.inr (Nat.le_of_eq hp.symm))
    · exact .inr (.inl hp)
  · exact .inr (.inr (Nat.le_trans (Nat.le_succ _) hp))

theorem ok_start : start.Ok := by
  refine ⟨List.cons_ne_nil _ _,
    List.forall_mem_cons.2 ⟨.nil, fun _ hS => (List.not_mem_nil hS).elim⟩,
    List.nodup_cons.2 ⟨List.not_mem_nil, .nil⟩, ?_, fun _ hp => (List.not_mem_nil hp).elim,
    fun _ _ _ hx => (List.not_mem_nil hx).elim⟩
  intro id hid
  rw [List.mem_singleton.1 hid]
  exact Nat.zero_lt_one

end Context

open Lower

/-- The builders have in scope what the context says, and the functions inside the one at hand are
what their charts say, unless something was too large. -/
structure Context.Holds (c : Context) (s : State) : Prop where
  tied : Tied c.captured c.scope c.around s.builder s.enclosing
  length : c.inner.length = s.builder.nested.length
  lends : ∀ (i : Nat) (S : Scope) (D : Chart) (q : Prototype), c.inner[i]? = some (S, D) →
    s.builder.nested[i]? = some q → ∀ o ∈ q.outers, S.Lends c.captured s.builder.outers o
  described : SizesFit s.diagnostics → ∀ (i : Nat) (S : Scope) (D : Chart) (q : Prototype),
    c.inner[i]? = some (S, D) →
    s.builder.nested[i]? = some q → Described (S.names :: c.around.map Scope.names) D q

namespace Context

variable {c : Context} {s t : State} {x : String} {h : Nat}

def invariant (c : Context) : Invariant where
  holds := c.Holds
  inert := by
    intro s t he hds hb hc
    obtain ⟨_, hb⟩ := Prod.mk.inj hb
    obtain ⟨hactive, hb⟩ := Prod.mk.inj hb
    obtain ⟨hscopes, hb⟩ := Prod.mk.inj hb
    obtain ⟨houters, hnested⟩ := Prod.mk.inj hb
    refine ⟨?_, by rw [hnested]; exact hc.length, ?_, ?_⟩
    · rw [he]
      exact hc.tied.update (hc.tied.mirrors.of_bindings hactive hscopes) houters
    · rw [hnested, houters]
      exact hc.lends
    · rw [hnested]
      exact fun hfit => hc.described (hfit.of_prefix hds)

theorem Holds.renumber (hc : c.Holds s) (fresh : Nat) : Holds { c with fresh := fresh } s :=
  ⟨hc.tied, hc.length, hc.lends, hc.described⟩

theorem Holds.isRoot (hc : c.Holds s) (hok : c.Ok) :
    (s.enclosing.isEmpty && s.builder.scopeDepth == 0) = c.isRoot := by
  have hlength := hc.tied.length
  have hscopes := hc.tied.mirrors.scopes
  have hdepth : s.builder.scopeDepth = c.scope.length - 1 := by
    rw [Builder.scopeDepth, hscopes, Scope.length_bases]
  have hpos := List.length_pos_iff.2 hok.rooted
  rw [Context.isRoot, Bool.eq_iff_iff, hdepth]
  simp only [Bool.and_eq_true, List.isEmpty_iff_length_eq_zero, beq_iff_eq, hlength]
  omega

theorem Holds.update (hc : c.Holds s) {S : Scope} {b : Builder} (hb : b.Mirrors c.captured S)
    (houters : b.outers = s.builder.outers) (hnested : b.nested = s.builder.nested) :
    Holds { c with scope := S } { s with builder := b } := by
  refine ⟨hc.tied.update hb houters, by rw [hnested]; exact hc.length, ?_, ?_⟩
  · rw [hnested, houters]
    exact hc.lends
  · rw [hnested]
    exact hc.described

theorem Holds.capture (hc : c.Holds s) {K : List (Nat × String)} {b : Builder} {ps : List Builder}
    (htied : Tied K c.scope c.around b ps) (hK : ∀ p ∈ c.captured, p ∈ K)
    (houters : s.builder.outers <+: b.outers) (hnested : b.nested = s.builder.nested) :
    Holds { c with captured := K } ⟨b, ps, s.diagnostics⟩ := by
  refine ⟨htied, by rw [hnested]; exact hc.length, ?_, ?_⟩
  · rw [hnested]
    exact fun i S D q hD hq o ho => (hc.lends i S D q hD hq o ho).mono hK houters
  · rw [hnested]
    exact hc.described

/-- Back in the function around one that is finished, which lends that one what it captures. -/
theorem Holds.leave {c' : Context} {b parent : Builder} {rest : List Builder}
    {ds ds' : List Diagnostic} (hc : c.Holds s) (hgrows : c.blank.Grows c')
    (hc' : c'.Holds ⟨b, parent :: rest, ds'⟩) (hwiden : s.builder.Widens parent)
    (hds : s.diagnostics <+: ds) :
    Holds { c with captured := c'.captured, fresh := c'.fresh } ⟨parent, rest, ds⟩ ∧
      ∀ o ∈ b.outers, c.scope.Lends c'.captured parent.outers o := by
  have htied := hc'.tied
  rw [hgrows.around] at htied
  obtain ⟨_, _, hlends, htied⟩ := htied
  have hnested : parent.nested = s.builder.nested := by rw [hwiden.eq]
  refine ⟨⟨htied, by rw [hnested]; exact hc.length, ?_, ?_⟩, hlends⟩
  · rw [hnested]
    exact fun i S D q hD hq o ho => (hc.lends i S D q hD hq o ho).mono hgrows.captured hwiden.outers
  · rw [hnested]
    exact fun hfit => hc.described (hfit.of_prefix hds)

theorem Holds.addNested (hc : c.Holds s) {q : Prototype} {D : Chart}
    (hlends : ∀ o ∈ q.outers, c.scope.Lends c.captured s.builder.outers o)
    (hdescribed : SizesFit s.diagnostics →
      Described (c.scope.names :: c.around.map Scope.names) D q) :
    Holds { c with inner := c.inner ++ [(c.scope, D)] }
      { s with builder := (s.builder.addNested q).2 } := by
  -- a place of the longer lists is one of the shorter ones, or the last one
  have hcases : ∀ (i : Nat) (S : Scope) (D' : Chart) (q' : Prototype),
    (c.inner ++ [(c.scope, D)])[i]? = some (S, D') → (s.builder.nested ++ [q])[i]? = some q' →
      (c.inner[i]? = some (S, D') ∧ s.builder.nested[i]? = some q') ∨
        (S = c.scope ∧ D' = D ∧ q' = q) := by
    intro i S D' q' hD hq
    have hlength := hc.length
    rcases Nat.lt_or_ge i c.inner.length with hi | hi
    · rw [List.getElem?_append_left hi] at hD
      rw [List.getElem?_append_left (by omega)] at hq
      exact .inl ⟨hD, hq⟩
    · rw [List.getElem?_append_right hi, List.getElem?_singleton] at hD
      rw [List.getElem?_append_right (by omega), List.getElem?_singleton] at hq
      split at hD
      · split at hq
        · cases hD
          cases hq
          exact .inr ⟨rfl, rfl, rfl⟩
        · cases hq
      · cases hD
  refine ⟨hc.tied.update (hc.tied.mirrors.of_bindings rfl rfl) rfl, ?_, ?_, ?_⟩
  · show (c.inner ++ [_]).length = (s.builder.nested ++ [q]).length
    rw [List.length_append, List.length_append, hc.length]
    rfl
  · intro i S D' q' hD hq
    rcases hcases i S D' q' hD hq with ⟨hD, hq⟩ | ⟨rfl, rfl, rfl⟩
    · exact hc.lends i S D' q' hD hq
    · exact hlends
  · intro hfit i S D' q' hD hq
    rcases hcases i S D' q' hD hq with ⟨hD, hq⟩ | ⟨rfl, rfl, rfl⟩
    · exact hc.described hfit i S D' q' hD hq
    · exact hdescribed hfit

end Context

theorem Scope.Finds.mono {S : Scope} {around : List (List String)} {outers outers' : List OuterInfo}
    {x : String} {place : Place} (hf : S.Finds around outers x place) (ho : outers <+: outers') :
    S.Finds around outers' x place := by
  cases place with
  | outer position =>
    obtain ⟨hx, haround, hname⟩ := hf
    obtain ⟨o, hget, heq⟩ := Option.map_eq_some_iff.1 hname
    exact ⟨hx, haround, by rw [getElem?_of_isPrefix ho hget, Option.map_some, heq]⟩
  | _ => exact hf

namespace Lower

variable {c : Context} {s t : State} {x : String} {h : Nat}

theorem Step.holding {A : Shape} (st : Step anything s h A t) (hc : c.Holds t) :
    Step c.invariant s h A t :=
  { st with holds := hc }

theorem holds_addLocal {slot : Nat} {b : Builder} (hok : c.Ok) (hc : c.Holds s)
    (hadd : s.builder.addLocal? x = some (slot, b)) :
    (c.declare x).Holds { s with builder := b } ∧ (c.declare x).scope.slot? x = some slot := by
  obtain ⟨d, S, hs⟩ := List.exists_cons_of_ne_nil hok.rooted
  have hmirrors := hc.tied.mirrors
  have hnew : (d.id, x) ∉ c.captured := by
    intro hx
    have hnot : x ∉ c.scope.names := by
      rw [← hmirrors.addLocal?_eq_none_iff x, hadd]
      nofun
    refine hnot (Scope.mem_names.2 ⟨d, by rw [hs]; exact List.mem_cons_self, ?_⟩)
    exact hok.declared d (by rw [hs]; exact List.mem_cons_self) x hx
  rw [hs] at hmirrors
  obtain ⟨hb, hslot⟩ := hmirrors.declare hnew hadd
  rw [← hs] at hb hslot
  obtain ⟨_, rfl⟩ := Builder.Mirrors.eq_of_addLocal? hadd
  exact ⟨hc.update hb rfl rfl, hslot⟩

theorem declare_of_addLocal?_eq_none (hc : c.Holds s) (hadd : s.builder.addLocal? x = none) :
    x ∈ c.scope.names ∧ c.declare x = c := by
  have hx := (hc.tied.mirrors.addLocal?_eq_none_iff x).1 hadd
  exact ⟨hx, by rw [Context.declare, Scope.declare_of_mem hx]⟩

theorem yields_declareLocal_in (hok : c.Ok) (x : String) (pos : Position) (hs : s.Sane)
    (hc : c.Holds s) (hh : s.builder.height = h) :
    Yields (declareLocal x pos) s fun slot t => Step (c.declare x).invariant s h .none t ∧
      (match slot with
      | some k => x ∉ c.scope.names ∧ (c.declare x).scope.slot? x = some k ∧ k < t.builder.maxLocals
      | none => x ∈ c.scope.names) := by
  unfold declareLocal
  rw [yields_bind, yields_get]
  split
  · rename_i slot b hadd
    obtain ⟨hholds, hslot⟩ := holds_addLocal hok hc hadd
    have hnot : x ∉ c.scope.names := by
      rw [← hc.tied.mirrors.addLocal?_eq_none_iff x, hadd]
      nofun
    exact ⟨some slot, { s with builder := b }, rfl,
      (Step.addLocal hs hh hadd).holding hholds, hnot, hslot, (hs.sound.addLocal hadd).2⟩
  · rename_i hadd
    obtain ⟨hx, heq⟩ := declare_of_addLocal?_eq_none hc hadd
    rw [yields_bind, yields_report, yields_pure, heq]
    exact ⟨.report hs (I := c.invariant) hc hh _, hx⟩

theorem holds_declareParameters (hok : c.Ok) (pos : Position) (params : List String)
    (hc : c.Holds s) : Yields (params.forM (declareParameter pos)) s fun _ t =>
      (params.foldl Context.declare c).Holds t := by
  induction params generalizing c s with
  | nil => exact yields_pure.2 hc
  | cons x params ih =>
    rw [List.forM, yields_bind, declareParameter, yields_bind, yields_get]
    split
    · rename_i slot b hadd
      obtain ⟨⟨slot', b'⟩, hadd', heq⟩ := Option.map_eq_some_iff.1 hadd
      cases heq
      have hlocal := (holds_addLocal hok hc hadd').1
      exact ⟨(), _, rfl,
        ih (hok.declare x) (hlocal.update (hlocal.tied.mirrors.of_bindings rfl rfl) rfl rfl)⟩
    · rename_i hadd
      have hadd' : s.builder.addLocal? x = none := by simpa [Builder.addParameter?] using hadd
      refine (yields_report pos _).2 (ih (hok.declare x) ?_)
      rw [(declare_of_addLocal?_eq_none hc hadd').2]
      exact c.invariant.inert (s := s) rfl (List.prefix_append _ _) rfl hc

theorem yields_enter_in (hok : c.Ok) (name : Option String) (pos : Position) (params : List String)
    (variadic : Bool) (hs : s.Sane) (hc : c.Holds s) :
    Yields (enter name pos params variadic) s fun _ t =>
      Step (c.enter params).invariant (s.inside name) 0 .none t := by
  have hblank : c.blank.Holds (s.inside name) := by
    refine ⟨⟨.new _ _ _, .nil, fun _ ho => (List.not_mem_nil ho).elim, hc.tied⟩, rfl, ?_, ?_⟩
    · intro i S D q hD
      cases hD
    · intro _ i S D q hD
      cases hD
  have hholds : Yields (enter name pos params variadic) s fun _ t => (c.enter params).Holds t := by
    simp only [enter, yields_bind]
    refine ⟨(), s.inside name, rfl, ?_⟩
    dsimp only
    refine (yields_build (a := ()) (b := { (s.inside name).builder with line := pos.line }) rfl).2
      ?_
    refine (holds_declareParameters hok.blank pos params ?_).imp fun _ u hu => ?_
    · exact hblank.update (hblank.tied.mirrors.of_bindings rfl rfl) rfl rfl
    split
    · refine (yields_build (a := ()) (b := { u.builder with variadic := true }) rfl).2 ?_
      exact hu.update (hu.tied.mirrors.of_bindings rfl rfl) rfl rfl
    · exact yields_pure.2 hu
  exact ((yields_enter name pos params variadic hs).and hholds).imp fun _ t ht => ht.1.holding ht.2

theorem yields_resolve_in (hok : c.Ok) (x : String) (hs : s.Sane) (hc : c.Holds s)
    (hh : s.builder.height = h) :
    Yields (resolve x) s fun place t => Step (c.touch .load x).invariant s h .none t ∧
      place.In t.builder ∧ c.scope.Finds (c.around.map Scope.names) t.builder.outers x place := by
  have hmirrors := hc.tied.mirrors
  obtain ⟨place, t, hrun, hstep, hin⟩ := yields_resolve x hs hh
  refine ⟨place, t, hrun, ?_⟩
  have hslot := hmirrors.localSlot? x
  obtain ⟨b, enclosing, ds⟩ := s
  simp only [resolve] at hrun
  split at hrun
  · rename_i slot hfound
    cases hrun
    rw [hfound] at hslot
    have htouch : c.touch .load x = c := if_pos (Scope.mem_of_slot? hslot.symm)
    rw [htouch]
    exact ⟨hstep.holding hc, hin, hslot.symm⟩
  · rename_i hnone
    rw [hnone] at hslot
    have hx := Scope.slot?_eq_none_iff.1 hslot.symm
    have htouch : c.touch .load x = c.capture c.around x := if_neg hx
    rw [htouch]
    split at hrun
    · rename_i position b' qs hresolve
      cases hrun
      obtain ⟨id, hid, htied, hname, hlonger⟩ := hc.tied.resolveOuter? hok.distinct hresolve
      obtain ⟨_, hwiden, _⟩ := Builder.resolveOuter?_spec hs hresolve
      have hnested : b'.nested = b.nested := by rw [hwiden.eq]
      rw [Context.capture, hid]
      refine ⟨hstep.holding
        (hc.capture htied (fun p hp => List.mem_cons_of_mem _ hp) hlonger hnested), hin,
        hx, ?_, hname⟩
      obtain ⟨S, hS, hhome⟩ := List.exists_of_findSome?_eq_some hid
      obtain ⟨d, hd, _, hmem⟩ := Scope.home?_eq_some hhome
      exact ⟨S.names, List.mem_map_of_mem hS, Scope.mem_names.2 ⟨d, hd, hmem⟩⟩
    · rename_i hresolve
      cases hrun
      have hout := hc.tied.of_resolveOuter?_eq_none hresolve
      have hfind : c.around.findSome? (Scope.home? · x) = none :=
        List.findSome?_eq_none_iff.2 fun S hS => Scope.home?_eq_none_iff.2 (hout S hS)
      rw [Context.capture, hfind]
      refine ⟨hstep.holding hc, hin, hx, fun names hnames => ?_⟩
      obtain ⟨S, hS, rfl⟩ := List.mem_map.1 hnames
      exact hout S hS

end Lower
end Refscript
