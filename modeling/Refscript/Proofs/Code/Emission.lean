import Refscript.Code.Lower
import Refscript.Proofs.Code.Building

/-!
# Refscript.Proofs.Code.Emission

What lowering a construct does, construct by construct, without saying which construct it is for.

`Threads I J x h h' Q` says: in every sane state with height `h` and the invariant `I`, the step `x`
succeeds, leaves height `h'` and the invariant `J`, changes nothing behind it, and the code it adds
has the shape `Q` in the finished function. `Emits I x h h' Q` is the same with `I` kept. Shapes are
predicates on the finished function and two offsets, and each rule gives the shape of a construct in
terms of the shapes of its parts.
-/

namespace Refscript
namespace Lower

open Builder (Keeps Finishes WidensAll Linked)

variable {popped site : Nat} {b : Builder}

/-- All functions being built are sound and linked to those around them. -/
def State.Sane (s : State) : Prop :=
  Linked s.diagnostics s.builder s.enclosing

/-- `t` comes after `s` in building one function. -/
structure Leads (s t : State) : Prop where
  keeps : s.builder.Keeps t.builder
  scopes : t.builder.scopes = s.builder.scopes
  filled : ∀ k u, s.builder.tables.length ≤ k → t.builder.tables[k]? = some u → u.HasDefault
  sane : t.Sane
  enclosing : WidensAll s.enclosing t.enclosing
  diagnostics : s.diagnostics <+: t.diagnostics

namespace Leads

variable {s t u : State}

theorem refl (h : s.Sane) : Leads s s := by
  refine ⟨.refl _, rfl, ?_, h, .refl _, List.prefix_refl _⟩
  intro k u hk hu
  rw [List.getElem?_eq_none hk] at hu
  cases hu

theorem trans (h₁ : Leads s t) (h₂ : Leads t u) : Leads s u := by
  refine ⟨h₁.keeps.trans h₂.keeps, h₂.scopes.trans h₁.scopes, ?_, h₂.sane,
    h₁.enclosing.trans h₂.enclosing, h₁.diagnostics.trans h₂.diagnostics⟩
  intro k v hk hv
  by_cases hlt : k < t.builder.tables.length
  · rw [h₂.keeps.tables k hlt] at hv
    exact h₁.filled k v hk hv
  · exact h₂.filled k v (by omega) hv

end Leads

/-- A property of states that only what names stand for, the functions around and what was reported
matter for. -/
structure Invariant where
  holds : State → Prop
  inert : ∀ {s t : State}, t.enclosing = s.enclosing → s.diagnostics <+: t.diagnostics →
    t.builder.bindings = s.builder.bindings → holds s → holds t

/-- A predicate on finished functions and a piece of their code, from one offset up to another. -/
abbrev Shape := Prototype → Nat → Nat → Prop

namespace Shape

/-- No code. -/
def none : Shape := fun _ i j => i = j

/-- One piece after the other. -/
def seq (A B : Shape) : Shape := fun P i j => ∃ m, A P i m ∧ B P m j

/-- One instruction, with heights `h` before and `h'` after it that the function's maximum
covers. -/
def insn (h h' : Nat) (i : Insn) : Shape := fun P k j =>
  j = k + 1 ∧ P.Carries k i ∧ h ≤ P.maxStack ∧ h' ≤ P.maxStack

end Shape

/-- What has been done between `s` and `t` guarantees, when the `jumps` emitted on the way still
have to be patched: once they are, `Q` holds of the finished function. -/
structure Draft (I : Invariant) (s : State) (h : Nat) (jumps : List (Nat × Opcode))
    (Q : Prototype → Prop) (t : State) : Prop where
  leads : Leads s t
  height : t.builder.height = h
  holds : I.holds t
  sites : ∀ p ∈ jumps, s.builder.position ≤ p.1 ∧ t.builder.code[p.1]? = some (.wide p.2 0)
  distinct : (jumps.map Prod.fst).Nodup
  code : ∀ P, Finishes (jumps.map Prod.fst) s.builder.mark t.builder P → Q P

/-- What a step from `s` to `t` guarantees. -/
abbrev Step (I : Invariant) (s : State) (h : Nat) (Q : Shape) (t : State) : Prop :=
  Draft I s h [] (fun P => Q P s.builder.position t.builder.position) t

section Yields

variable {α β : Type} {x : LowerM α} {s : State} {R : α → State → Prop}

/-- The step succeeds, and `R` holds of its result. -/
def Yields (x : LowerM α) (s : State) (R : α → State → Prop) : Prop :=
  ∃ a t, x s = .ok a t ∧ R a t

theorem Yields.imp {R' : α → State → Prop} (h : Yields x s R) (hR : ∀ a t, R a t → R' a t) :
    Yields x s R' := by
  obtain ⟨a, t, hx, ha⟩ := h
  exact ⟨a, t, hx, hR a t ha⟩

theorem Yields.of_run {a : α} {t : State} (h : Yields x s R) (hx : x s = .ok a t) : R a t := by
  obtain ⟨a', t', hx', ha⟩ := h
  cases hx.symm.trans hx'
  exact ha

theorem Yields.and {R' : α → State → Prop} (h : Yields x s R) (h' : Yields x s R') :
    Yields x s fun a t => R a t ∧ R' a t := by
  obtain ⟨a, t, hx, ha⟩ := h
  exact ⟨a, t, hx, ha, h'.of_run hx⟩

theorem yields_bind {f : α → LowerM β} {R : β → State → Prop} :
    Yields (x >>= f) s R ↔ Yields x s fun a t => Yields (f a) t R := by
  simp only [Yields, bind, EStateM.bind]
  constructor
  · rintro ⟨b, u, hb, hR⟩
    cases hx : x s with
    | ok a t =>
      rw [hx] at hb
      exact ⟨a, t, rfl, b, u, hb, hR⟩
    | error e t =>
      rw [hx] at hb
      cases hb
  · rintro ⟨a, t, hx, b, u, hf, hR⟩
    rw [hx]
    exact ⟨b, u, hf, hR⟩

theorem yields_pure {a : α} : Yields (pure a) s R ↔ R a s := by
  constructor
  · rintro ⟨b, t, hb, hR⟩
    cases hb
    exact hR
  · exact fun h => ⟨a, s, rfl, h⟩

theorem yields_get {R : State → State → Prop} : Yields get s R ↔ R s s :=
  yields_pure (a := s)

theorem yields_build {x : Build α} {a : α} (h : x s.builder = .ok a b) :
    Yields (build x) s R ↔ R a { s with builder := b } := by
  have hrun : build x s = .ok a { s with builder := b } := by
    simp only [build, h]
  constructor
  · rintro ⟨a', t, ht, hR⟩
    rw [hrun] at ht
    cases ht
    exact hR
  · exact fun hR => ⟨a, _, hrun, hR⟩

end Yields

/-- The state after an instruction. -/
def State.emit (s : State) (popped pushed : Nat) (i : Insn) : State :=
  { s with builder := s.builder.emitted popped pushed i }

/-- The state after a jump has been given its target. -/
def State.patch (s : State) (site target : Nat) : State :=
  { s with builder := s.builder.patch site target }

/-- The state with another height. -/
def State.setHeight (s : State) (height : Nat) : State :=
  { s with builder := s.builder.setHeight height }

section

variable {s : State} {R : Unit → State → Prop}

@[simp] theorem position_emit (popped pushed : Nat) (i : Insn) :
    (s.emit popped pushed i).builder.position = s.builder.position + 1 :=
  s.builder.position_emitted popped pushed i

@[simp] theorem position_patch (site target : Nat) :
    (s.patch site target).builder.position = s.builder.position :=
  s.builder.patch_position site target

@[simp] theorem position_setHeight (height : Nat) :
    (s.setHeight height).builder.position = s.builder.position :=
  rfl

theorem shrink_run {n : Nat} (h : n ≤ b.height) :
    Build.shrink n b = .ok () { b with height := b.height - n } := by
  show (if b.height < n then throw (.heightBelowZero b.displayName)
    else set { b with height := b.height - n } : Build Unit) b = _
  rw [if_neg (Nat.not_lt.2 h)]
  rfl

theorem emit_run (h : popped ≤ b.height) (pushed : Nat) (i : Insn) :
    Build.emit popped pushed i b = .ok b.position (b.emitted popped pushed i) := by
  simp only [Build.emit, bind, EStateM.bind, shrink_run h]
  rfl

theorem emitUnit_run (h : popped ≤ b.height) (pushed : Nat) (i : Insn) :
    Build.emitUnit popped pushed i b = .ok () (b.emitted popped pushed i) := by
  simp only [Build.emitUnit, bind, EStateM.bind, emit_run h, pure, EStateM.pure]

theorem yields_emit (h : popped ≤ s.builder.height) (pushed : Nat) (i : Insn)
    {R : Nat → State → Prop} :
    Yields (build (.emit popped pushed i)) s R ↔ R s.builder.position (s.emit popped pushed i) :=
  yields_build (emit_run h pushed i)

theorem yields_emitUnit (h : popped ≤ s.builder.height) (pushed : Nat) (i : Insn) :
    Yields (build (.emitUnit popped pushed i)) s R ↔ R () (s.emit popped pushed i) :=
  yields_build (emitUnit_run h pushed i)

theorem yields_patchHere :
    Yields (build (.patchHere site)) s R ↔ R () (s.patch site s.builder.position) :=
  yields_build rfl

theorem yields_setHeight {height : Nat} :
    Yields (build (.setHeight height)) s R ↔ R () (s.setHeight height) :=
  yields_build rfl

theorem yields_position {R : Nat → State → Prop} :
    Yields (build .position) s R ↔ R s.builder.position s :=
  yields_build rfl

end

namespace Leads

variable {s t : State}

theorem builder (hs : s.Sane) (hkeeps : s.builder.Keeps b) (hscopes : b.scopes = s.builder.scopes)
    (htables : b.tables = s.builder.tables) (houters : b.outers = s.builder.outers)
    (hsound : b.Sound s.diagnostics) : Leads s { s with builder := b } := by
  refine ⟨hkeeps, hscopes, ?_, hs.update hsound houters, .refl _, List.prefix_refl _⟩
  intro k u hk hu
  simp only [htables, List.getElem?_eq_none hk] at hu
  cases hu

theorem emit (hs : s.Sane) (popped pushed : Nat) (i : Insn) : Leads s (s.emit popped pushed i) :=
  .builder hs (s.builder.keeps_emitted _ _ _) rfl rfl rfl (hs.sound.emitted _ _ _)

theorem setHeight (h : Leads s t) (height : Nat) : Leads s (t.setHeight height) := by
  exact h.trans
    (.builder h.sane (t.builder.keeps_setHeight height) rfl rfl rfl (h.sane.sound.setHeight _))

theorem patch (h : Leads s t) (hsite : s.builder.code.size ≤ site) (target : Nat) :
    Leads s (t.patch site target) := by
  refine ⟨Builder.keeps_patch target h.keeps hsite, ?_, ?_, ?_, h.enclosing, h.diagnostics⟩
  · rw [State.patch, Builder.patch_scopes]
    exact h.scopes
  · intro k u hk hu
    rw [State.patch, Builder.patch_tables] at hu
    exact h.filled k u hk hu
  · exact Linked.update h.sane (h.sane.sound.patch site target) (Builder.patch_outers _ _ _)

theorem report (hs : s.Sane) (d : Diagnostic) :
    Leads s { s with diagnostics := s.diagnostics ++ [d] } :=
  { refl hs with
    sane := Linked.report hs (List.prefix_append _ _)
    diagnostics := List.prefix_append _ _ }

theorem setLine (hs : s.Sane) (line : Nat) :
    Leads s { s with builder := { s.builder with line := line } } :=
  .builder hs { Keeps.refl s.builder with } rfl rfl rfl { hs.sound with }

end Leads

section Drafts

variable {I J : Invariant} {s t u : State} {h k : Nat} {js js' : List (Nat × Opcode)}
  {Q R : Prototype → Prop} {A B : Shape}

theorem Step.quiet (hleads : Leads s t) (hheight : t.builder.height = h)
    (hposition : t.builder.position = s.builder.position) (hI : I.holds t) : Step I s h .none t :=
  ⟨hleads, hheight, hI, fun _ hp => (List.not_mem_nil hp).elim, .nil, fun _ _ => hposition.symm⟩

theorem Step.refl (hs : s.Sane) (hI : I.holds s) (hh : s.builder.height = h) : Step I s h .none s :=
  .quiet (.refl hs) hh rfl hI

theorem Draft.imp (d : Draft I s h js Q t) (hQR : ∀ P, Q P → R P) : Draft I s h js R t :=
  { d with code := fun P hP => hQR P (d.code P hP) }

theorem Draft.append (d₁ : Draft I s k js Q t) (d₂ : Draft J t h js' R u) :
    Draft J s h (js' ++ js) (fun P => Q P ∧ R P) u := by
  have hlt : ∀ p ∈ js, p.1 < t.builder.position := by
    intro p hp
    obtain ⟨hlt, _⟩ := Array.getElem?_eq_some_iff.1 (d₁.sites p hp).2
    exact hlt
  refine ⟨d₁.leads.trans d₂.leads, d₂.height, d₂.holds, ?_, ?_, fun P hP => ⟨?_, ?_⟩⟩
  · intro p hp
    rcases List.mem_append.1 hp with hp | hp
    · exact ⟨Nat.le_trans d₁.leads.keeps.size (d₂.sites p hp).1, (d₂.sites p hp).2⟩
    · refine ⟨(d₁.sites p hp).1, ?_⟩
      rw [d₂.leads.keeps.code _ (hlt p hp)]
      exact (d₁.sites p hp).2
  · rw [List.map_append, List.nodup_append]
    refine ⟨d₂.distinct, d₁.distinct, ?_⟩
    intro a ha b hb hab
    obtain ⟨p, hp, rfl⟩ := List.mem_map.1 ha
    obtain ⟨q, hq, rfl⟩ := List.mem_map.1 hb
    have hge := (d₂.sites p hp).1
    have hlt := hlt q hq
    omega
  · refine d₁.code P ((hP.of_keeps d₂.leads.keeps).fill ?_)
    intro k hk hnot
    rw [List.map_append, List.mem_append] at hk
    obtain ⟨p, hp, rfl⟩ := List.mem_map.1 (hk.resolve_right hnot)
    exact .inr (d₂.sites p hp).1
  · refine d₂.code P ((hP.after d₁.leads.keeps).fill ?_)
    intro k hk hnot
    rw [List.map_append, List.mem_append] at hk
    obtain ⟨p, hp, rfl⟩ := List.mem_map.1 (hk.resolve_left hnot)
    exact .inl (hlt p hp)

theorem Step.seq (h₁ : Step I s k A t) (h₂ : Step J t h B u) : Step J s h (A.seq B) u :=
  (Draft.append h₁ h₂).imp fun _ hP => ⟨_, hP.1, hP.2⟩

theorem Step.after (h₁ : Step I s k .none t) (h₂ : Step J t h A u) : Step J s h A u := by
  refine (h₁.seq h₂).imp ?_
  rintro P ⟨m, rfl, hA⟩
  exact hA

theorem emit_heights (hs : s.Sane) (hh : s.builder.height = h) (popped pushed : Nat) (i : Insn) :
    h ≤ (s.emit popped pushed i).builder.maxHeight ∧
      h - popped + pushed ≤ (s.emit popped pushed i).builder.maxHeight := by
  have hmax := hs.sound.height
  simp only [State.emit, Builder.emitted, Builder.push, Builder.grow, Builder.setHeight]
  omega

theorem Step.emit (hs : s.Sane) (hI : I.holds s) (hh : s.builder.height = h) (popped pushed : Nat)
    (i : Insn) :
    Step I s (h - popped + pushed) (.insn h (h - popped + pushed) i) (s.emit popped pushed i) := by
  obtain ⟨hbefore, hafter⟩ := emit_heights hs hh popped pushed i
  subst hh
  refine ⟨.emit hs _ _ _, rfl, I.inert (s := s) rfl (List.prefix_refl _) rfl hI,
    fun _ hp => (List.not_mem_nil hp).elim, .nil, fun P hP => ?_⟩
  have hinsn :=
    hP.code s.builder.position i (Nat.le_refl _) List.not_mem_nil (s.builder.getElem?_emitted _ _ _)
  exact ⟨s.builder.position_emitted _ _ _, hinsn, Nat.le_trans hbefore hP.maxHeight,
    Nat.le_trans hafter hP.maxHeight⟩

theorem Draft.jump (hs : s.Sane) (hI : I.holds s) (hh : s.builder.height = h) (popped pushed : Nat)
    (op : Opcode) : Draft I s (h - popped + pushed) [(s.builder.position, op)]
      (fun P => h ≤ P.maxStack ∧ h - popped + pushed ≤ P.maxStack)
        (s.emit popped pushed (.wide op 0)) := by
  obtain ⟨hbefore, hafter⟩ := emit_heights hs hh popped pushed (.wide op 0)
  subst hh
  refine ⟨.emit hs _ _ _, rfl, I.inert (s := s) rfl (List.prefix_refl _) rfl hI,
    fun p hp => ?_, by simp, fun P hP => ?_⟩
  · rw [List.mem_singleton.1 hp]
    exact ⟨Nat.le_refl _, s.builder.getElem?_emitted _ _ _⟩
  · exact ⟨Nat.le_trans hbefore hP.maxHeight, Nat.le_trans hafter hP.maxHeight⟩

theorem Draft.patch (js : List (Nat × Opcode)) {op : Opcode}
    (d : Draft I s h (js ++ (site, op) :: js') Q t) (target : Nat) :
    Draft I s h (js ++ js') (fun P => Q P ∧ P.Carries site (.wide op target))
      (t.patch site target) := by
  obtain ⟨hle, hcode⟩ := d.sites (site, op) (by simp)
  have hperm : (js ++ (site, op) :: js').Perm ((site, op) :: (js ++ js')) := List.perm_middle
  obtain ⟨hnot, hdistinct⟩ := List.nodup_cons.1 ((hperm.map Prod.fst).nodup_iff.1 d.distinct)
  refine ⟨d.leads.patch hle target, (Builder.patch_height _ _ _).trans d.height,
    I.inert (s := t) rfl (List.prefix_refl _) (Builder.patch_bindings _ _ _) d.holds, ?_, hdistinct,
    fun P hP => ⟨?_, ?_⟩⟩
  · intro p hp
    have hne : p.1 ≠ site := by
      intro heq
      exact hnot (List.mem_map.2 ⟨p, hp, heq⟩)
    rw [State.patch, Builder.getElem?_patch, if_neg hne]
    exact d.sites p (hperm.mem_iff.2 (List.mem_cons_of_mem _ hp))
  · refine d.code P (hP.patch.fill ?_)
    intro k hk hout
    exact absurd ((hperm.map Prod.fst).mem_iff.2 hk) hout
  · exact hP.patched hle hnot hcode

theorem Draft.reorder (d : Draft I s h js Q t) (js' : List (Nat × Opcode)) (hjs : js'.Perm js) :
    Draft I s h js' Q t := by
  refine { d with sites := ?_, distinct := ?_, code := fun P hP => d.code P (hP.fill ?_) }
  · intro p hp
    exact d.sites p (hjs.mem_iff.1 hp)
  · exact (hjs.map _).nodup_iff.2 d.distinct
  · intro k hk hnot
    exact absurd ((hjs.map _).mem_iff.1 hk) hnot

theorem Draft.setHeight (d : Draft I s h js Q t) (height : Nat) :
    Draft I s height js Q (t.setHeight height) :=
  { d with
    leads := d.leads.setHeight height
    height := rfl
    holds := I.inert (s := t) rfl (List.prefix_refl _) rfl d.holds
    code := fun P hP => d.code P (hP.of_keeps (t.builder.keeps_setHeight height)) }

end Drafts

/-- The step `x` goes from height `h` to height `h'`, leads from states with `I` to states with `J`,
and adds code of the shape `Q`. -/
def Threads (I J : Invariant) (x : LowerM Unit) (h h' : Nat) (Q : Shape) : Prop :=
  ∀ s : State, s.Sane → I.holds s → s.builder.height = h → Yields x s fun _ t => Step J s h' Q t

/-- The step `x` goes from height `h` to height `h'` and adds code of the shape `Q`. -/
abbrev Emits (I : Invariant) (x : LowerM Unit) (h h' : Nat) (Q : Shape) : Prop :=
  Threads I I x h h' Q

section Rules

variable {I J K : Invariant} {x y z : LowerM Unit} {h h' k : Nat} {A B C : Shape}

theorem Threads.imp (hx : Threads I J x h h' A) (hAB : ∀ P i j, A P i j → B P i j) :
    Threads I J x h h' B := by
  intro s hs hI hh
  exact (hx s hs hI hh).imp fun _ t st => st.imp fun P => hAB P _ _

theorem Threads.seq (hx : Threads I J x h k A) (hy : Threads J K y k h' B) :
    Threads I K (x >>= fun _ => y) h h' (A.seq B) := by
  intro s hs hI hh
  rw [yields_bind]
  refine (hx s hs hI hh).imp fun _ t st => ?_
  exact (hy t st.leads.sane st.holds st.height).imp fun _ u su => Step.seq st su

theorem emits_pure : Emits I (pure ()) h h .none := by
  intro s hs hI hh
  exact yields_pure.2 (.refl hs hI hh)

theorem emits_setLine (line : Nat) : Emits I (build (.setLine line)) h h .none := by
  intro s hs hI hh
  refine (yields_build (a := ()) (b := { s.builder with line := line }) rfl).2 ?_
  exact .quiet (.setLine hs line) hh rfl (I.inert (s := s) rfl (List.prefix_refl _) rfl hI)

theorem emits_insn (hp : popped ≤ h) (pushed : Nat) (i : Insn) :
    Emits I (build (.emitUnit popped pushed i)) h (h - popped + pushed)
      (.insn h (h - popped + pushed) i) := by
  intro s hs hI hh
  rw [yields_emitUnit (by omega)]
  exact .emit hs hI hh popped pushed i

theorem Step.report {s : State} (hs : s.Sane) (hI : I.holds s) (hh : s.builder.height = h)
    (d : Diagnostic) : Step I s h .none { s with diagnostics := s.diagnostics ++ [d] } :=
  .quiet (.report hs d) hh rfl (I.inert (s := s) rfl (List.prefix_append _ _) rfl hI)

theorem yields_report {s : State} (pos : Position) (p : Problem) {R : Unit → State → Prop} :
    Yields (report pos p) s R ↔ R () { s with diagnostics := s.diagnostics ++ [⟨pos, p⟩] } :=
  yields_pure (a := ()) (s := { s with diagnostics := s.diagnostics ++ [⟨pos, p⟩] })

theorem emits_report (pos : Position) (p : Problem) : Emits I (report pos p) h h .none := by
  intro s hs hI hh
  exact (yields_report pos p).2 (.report hs hI hh _)

theorem emits_pooled (c : Constant) (f : Nat → Insn) (hp : popped ≤ h) (pushed : Nat) :
    Emits I (build (do Build.emitUnit popped pushed (f (← Build.constant c)))) h
      (h - popped + pushed) fun P i j => ∃ n, P.constants[n]? = some c ∧
        Shape.insn h (h - popped + pushed) (f n) P i j := by
  intro s hs hI hh
  have hrun : (do Build.emitUnit popped pushed (f (← Build.constant c)) : Build Unit) s.builder =
      .ok () ((s.builder.addConstant c).2.emitted popped pushed
        (f (s.builder.addConstant c).1)) := by
    have hheight : popped ≤ (s.builder.addConstant c).2.height := by
      rw [Builder.addConstant_height]
      omega
    exact emitUnit_run hheight pushed _
  refine (yields_build hrun).2 ?_
  have hpool : Step I s h .none { s with builder := (s.builder.addConstant c).2 } :=
    .quiet (.builder hs (s.builder.keeps_addConstant c) (by simp) (by simp) (by simp)
      (hs.sound.addConstant c))
      (by simpa using hh) (by simp) (I.inert (s := s) rfl (List.prefix_refl _) (by simp) hI)
  have hemit :=
    Step.emit hpool.leads.sane hpool.holds hpool.height popped pushed
    (f (s.builder.addConstant c).1)
  have hdone := hpool.after hemit
  refine { hdone with code := fun P hP => ⟨_, ?_, hdone.code P hP⟩ }
  exact hP.getElem?_constants (s.builder.getElem?_addConstant c)

end Rules

end Lower
end Refscript
