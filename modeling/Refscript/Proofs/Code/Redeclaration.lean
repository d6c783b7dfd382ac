import Refscript.Proofs.Code.Orderly

/-!
# Refscript.Proofs.Code.Redeclaration

When a declaration is reported because its name is taken. Lowering a construct goes through the
outline of the construct once: it leaves the names in scope and reports the declarations that one
pass over the outline does. This holds of programs with mistakes as well.

* `Lower.Traces`: a step of lowering that does what a pass over an outline says.
* `Lower.walk_traces`: steps that do follow the outlines one after the other, also in functions and
  in blocks.
* `Lower.redeclared_program`: so does lowering a program.
-/

namespace Refscript

/-- The names in scope of a function that is being built, and the starts of its scopes. -/
def Builder.frame (b : Builder) : List String × List Nat :=
  (b.active.map LocalInfo.name, b.scopes)

theorem Diagnostic.redeclared?_eq_some_iff {d : Diagnostic} {pos : Position} {x : String} :
    d.redeclared? = some (pos, x) ↔ d = ⟨pos, .duplicateLocal x⟩ := by
  obtain ⟨p, problem⟩ := d
  cases problem <;> simp [redeclared?]

/-- A name that is taken is refused, and any other one is in scope from here on. -/
theorem Builder.frame_addLocal? {b : Builder} {names : List String} {scopes : List Nat}
    (name : String) (hb : b.frame = (names, scopes)) : (name ∈ names ∧ b.addLocal? name = none) ∨
      (name ∉ names ∧ ∃ slot c, b.addLocal? name = some (slot, c) ∧
        c.frame = (names ++ [name], scopes)) := by
  obtain ⟨hnames, hscopes⟩ := Prod.mk.inj hb
  have htaken : b.active.any (·.name == name) = true ↔ name ∈ names := by
    rw [← hnames]
    simp
  unfold addLocal?
  by_cases hname : name ∈ names
  · rw [if_pos (htaken.2 hname)]
    exact .inl ⟨hname, rfl⟩
  · rw [if_neg (mt htaken.1 hname)]
    refine .inr ⟨hname, _, _, rfl, ?_⟩
    rw [frame, List.map_append, hnames, hscopes]
    rfl

theorem Builder.frame_markCaptured (b : Builder) (slot : Nat) :
    (b.markCaptured slot).frame = b.frame :=
  congrArg (·, b.scopes) (Orderly.map_name_markCapturedIn slot b.active)

/-- Capturing a variable declares nothing, in the function and in those around it. -/
theorem Builder.frame_resolveOuter? {name : String} {position : Nat} {b c : Builder}
    {ps qs : List Builder} (h : b.resolveOuter? name ps = some (position, c, qs)) :
    c.frame = b.frame ∧ qs.map frame = ps.map frame := by
  induction ps generalizing b position c qs with
  | nil =>
    unfold resolveOuter? at h
    split at h
    · cases h
      exact ⟨rfl, rfl⟩
    · cases h
  | cons p ps ih =>
    unfold resolveOuter? at h
    split at h
    · cases h
      exact ⟨rfl, rfl⟩
    · simp only at h
      split at h
      · cases h
        refine ⟨rfl, ?_⟩
        rw [List.map_cons, List.map_cons, frame_markCaptured]
      · split at h
        · cases h
        · rename_i outer p' ps' hrest
          cases h
          obtain ⟨hp, hps⟩ := ih hrest
          refine ⟨rfl, ?_⟩
          rw [List.map_cons, List.map_cons, hp, hps]

theorem bind_eq_ok {ε σ α β : Type} {x : EStateM ε σ α} {f : α → EStateM ε σ β} {s u : σ} {b : β}
    (h : (x >>= f) s = .ok b u) : ∃ a t, x s = .ok a t ∧ f a t = .ok b u := by
  simp only [bind, EStateM.bind] at h
  split at h
  · rename_i a t hx
    exact ⟨a, t, hx, h⟩
  · cases h

namespace Lower

open Outline (scanAll)

/-- The names in scope in the function at hand and in those around it. -/
def State.frames (s : State) : List (List String × List Nat) :=
  (s.builder :: s.enclosing).map Builder.frame

/-- The declarations reported so far. -/
def State.redeclared (s : State) : List (Position × String) :=
  s.diagnostics.filterMap Diagnostic.redeclared?

/-- The step does what a pass over the outline says; `root` says that it is done at the top
level. -/
def Traces {α : Type} (root : Bool) (x : LowerM α) (es : List Outline) : Prop :=
  ∀ s a t names scopes around, x s = .ok a t → s.frames = (names, scopes) :: around →
    (around.isEmpty && scopes.isEmpty) = root →
    t.frames = ((scanAll names es).1, scopes) :: around ∧
      t.redeclared = s.redeclared ++ (scanAll names es).2

section

variable {α β : Type} {root : Bool} {x : LowerM α} {es fs : List Outline}

theorem traces_still
    (hx : ∀ s a t, x s = .ok a t → t.frames = s.frames ∧ t.redeclared = s.redeclared) :
    Traces root x [] := by
  intro s a t names scopes around hrun hs _
  obtain ⟨hframes, hreported⟩ := hx s a t hrun
  rw [scanAll, List.append_nil]
  exact ⟨hframes.trans hs, hreported⟩

theorem Traces.bind {f : α → LowerM β} (hx : Traces root x es) (hf : ∀ a, Traces root (f a) fs) :
    Traces root (x >>= f) (es ++ fs) := by
  intro s b u names scopes around h hs hroot
  obtain ⟨a, t, hrun, hrest⟩ := bind_eq_ok h
  obtain ⟨hframes, hreported⟩ := hx s a t names scopes around hrun hs hroot
  obtain ⟨hframes', hreported'⟩ := hf a t b u _ scopes around hrest hframes hroot
  rw [Outline.scanAll_append]
  exact ⟨hframes', by rw [hreported', hreported, List.append_assoc]⟩

theorem traces_pure (a : α) : Traces root (pure a) [] := by
  refine traces_still fun s b t h => ?_
  cases h
  exact ⟨rfl, rfl⟩

theorem traces_get : Traces root get [] := by
  refine traces_still fun s b t h => ?_
  cases h
  exact ⟨rfl, rfl⟩

theorem redeclared_report {s : State} (pos : Position) (p : Problem) :
    ({ s with diagnostics := s.diagnostics ++ [⟨pos, p⟩] } : State).redeclared =
      s.redeclared ++ (Diagnostic.redeclared? ⟨pos, p⟩).toList := by
  rw [State.redeclared, List.filterMap_append, State.redeclared]
  cases h : Diagnostic.redeclared? ⟨pos, p⟩ <;> simp [h]

theorem traces_report {pos : Position} {p : Problem} (hp : Diagnostic.redeclared? ⟨pos, p⟩ = none) :
    Traces root (report pos p) [] := by
  refine traces_still fun s a t h => ?_
  cases h
  refine ⟨rfl, ?_⟩
  rw [redeclared_report, hp, Option.toList_none, List.append_nil]

theorem traces_build {x : Build α} (hx : ∀ b a c, x b = .ok a c → c.frame = b.frame) :
    Traces root (build x) [] := by
  refine traces_still ?_
  rintro ⟨b, enclosing, ds⟩ a t h
  simp only [build] at h
  split at h
  · rename_i a' c hrun
    cases h
    refine ⟨?_, rfl⟩
    rw [State.frames, State.frames, List.map_cons, List.map_cons, hx b a c hrun]
  · cases h

theorem traces_quiet {x : Build α} (hx : x.Quiet) : Traces root (build x) [] := by
  refine traces_build fun b a c hrun => ?_
  have hnames := hx b
  rw [leftBy, hrun] at hnames
  rw [Builder.frame, hnames.active, hnames.scopes, Builder.frame]

theorem traces_markCaptured (slot : Nat) :
    Traces root (build (modify (·.markCaptured slot))) [] := by
  refine traces_build fun b a c h => ?_
  cases h
  exact b.frame_markCaptured slot

theorem traces_resolve (name : String) : Traces root (resolve name) [] := by
  refine traces_still ?_
  rintro ⟨b, enclosing, ds⟩ a t h
  simp only [resolve] at h
  split at h
  · cases h
    exact ⟨rfl, rfl⟩
  · split at h
    · rename_i position c qs houter
      cases h
      obtain ⟨hc, hqs⟩ := Builder.frame_resolveOuter? houter
      refine ⟨?_, rfl⟩
      rw [State.frames, State.frames, List.map_cons, List.map_cons, hc, hqs]
    · cases h
      exact ⟨rfl, rfl⟩

theorem frames_declared {s t : State} {names : List String} {scopes : List Nat}
    {around : List (List String × List Nat)}
    {name : String} {pos : Position} (hs : s.frames = (names, scopes) :: around)
    (h : (name ∈ names ∧
      t = { s with diagnostics := s.diagnostics ++ [⟨pos, .duplicateLocal name⟩] }) ∨
      (name ∉ names ∧ ∃ c : Builder, c.frame = (names ++ [name], scopes) ∧
        t = { s with builder := c })) :
    t.frames = ((scanAll names [.declare pos name]).1, scopes) :: around ∧
      t.redeclared = s.redeclared ++ (scanAll names [.declare pos name]).2 := by
  rw [Outline.scanAll_singleton, Outline.scan]
  obtain ⟨hname, rfl⟩ | ⟨hname, c, hc, rfl⟩ := h
  · rw [if_pos hname]
    exact ⟨hs, redeclared_report pos _⟩
  · rw [if_neg hname, List.append_nil, State.frames, List.map_cons, hc, (List.cons.inj hs).2]
    exact ⟨rfl, rfl⟩

theorem traces_declareLocal (name : String) (pos : Position) :
    Traces root (declareLocal name pos) [.declare pos name] := by
  intro s a t names scopes around hrun hs _
  obtain ⟨_, _, hget, hrun⟩ := bind_eq_ok hrun
  cases hget
  refine frames_declared hs ?_
  obtain ⟨hname, hadd⟩ | ⟨hname, slot, c, hadd, hc⟩ :=
    Builder.frame_addLocal? name (List.cons.inj hs).1
  · rw [hadd] at hrun
    cases hrun
    exact .inl ⟨hname, rfl⟩
  · rw [hadd] at hrun
    cases hrun
    exact .inr ⟨hname, c, hc, rfl⟩

theorem traces_declareParameter (pos : Position) (name : String) :
    Traces root (declareParameter pos name) [.declare pos name] := by
  intro s a t names scopes around hrun hs _
  obtain ⟨_, _, hget, hrun⟩ := bind_eq_ok hrun
  cases hget
  refine frames_declared hs ?_
  obtain ⟨hname, hadd⟩ | ⟨hname, slot, c, hadd, hc⟩ :=
    Builder.frame_addLocal? name (List.cons.inj hs).1
  · rw [Builder.addParameter?, hadd] at hrun
    cases hrun
    exact .inl ⟨hname, rfl⟩
  · rw [Builder.addParameter?, hadd] at hrun
    cases hrun
    exact .inr ⟨hname, { c with params := c.params + 1 }, hc, rfl⟩

theorem traces_declareBinding (name : String) (pos : Position) :
    Traces root (declareBinding name pos) (Outline.definition root pos name) := by
  intro s a t names scopes around hrun hs hroot
  have hisRoot : isRoot s = .ok root s := by
    obtain ⟨hframe, haround⟩ := List.cons.inj hs
    obtain ⟨-, hscopes⟩ := Prod.mk.inj hframe
    show EStateM.Result.ok (s.enclosing.isEmpty && s.builder.scopes.length == 0) s = _
    rw [← hroot, ← haround, ← hscopes]
    cases s.enclosing <;> cases s.builder.scopes <;> rfl
  obtain ⟨r, s', hr, hrun⟩ := bind_eq_ok hrun
  rw [hisRoot] at hr
  cases hr
  cases root with
  | true => exact traces_pure none s a t names scopes around hrun hs hroot
  | false => exact traces_declareLocal name pos s a t names scopes around hrun hs hroot

theorem steps_traces : Steps fun _ root x es => Traces root x es where
  pure := traces_pure
  bind hx hf := hx.bind hf
  get := traces_get
  quiet := traces_quiet
  report := traces_report
  resolve := traces_resolve
  markCaptured := traces_markCaptured
  declareLocal := traces_declareLocal
  declareParameter := traces_declareParameter
  declareBinding := traces_declareBinding

/-- A function starts with no names in scope, and after it the names of the function around are in
scope again. -/
theorem traces_within {body : LowerM Unit} (name : Option String) (pos : Position)
    (params : List String) (variadic : Bool) (hbody : Traces false body es) :
    Traces root (do enter name pos params variadic; body; leave pos)
      [.function (params.map (.declare pos) ++ es)] := by
  intro s p u names scopes around hrun hs _
  obtain ⟨_, s₁, henter, hrun⟩ := bind_eq_ok hrun
  obtain ⟨_, s₂, hbodyrun, hrun⟩ := bind_eq_ok hrun
  obtain ⟨_, s₃, hcheck, hleave⟩ := bind_eq_ok hrun
  obtain ⟨_, s₀, hnew, henter⟩ := bind_eq_ok henter
  cases hnew
  -- the function around is one of those around the new one, which is therefore not at the top level
  obtain ⟨hframes₁, hreported₁⟩ :=
    steps_traces.setUp false pos params variadic _ _ s₁ [] [] s.frames henter rfl rfl
  obtain ⟨hframes₂, hreported₂⟩ := hbody s₁ _ s₂ _ [] s.frames hbodyrun hframes₁ rfl
  obtain ⟨hframes₃, hreported₃⟩ :=
    steps_traces.checkSize false pos s₂ _ s₃ _ [] s.frames hcheck hframes₂ rfl
  rw [Outline.scanAll_singleton, Outline.scan, Outline.scanAll_append]
  obtain ⟨b, enclosing, ds⟩ := s₃
  cases enclosing with
  | nil => cases (List.cons.inj hframes₃).2
  | cons parent rest =>
    cases hleave
    refine ⟨(List.cons.inj hframes₃).2.trans hs, ?_⟩
    show State.redeclared ⟨b, parent :: rest, ds⟩ = _
    rw [hreported₃, scanAll, List.append_nil, hreported₂, hreported₁, List.append_assoc]
    rfl

/-- After a block the names that were in scope before it are in scope again. -/
theorem traces_block {body : LowerM Unit} (hbody : Traces false body es) :
    Traces root (do build .startScope; body; build .endScope) [.block es] := by
  intro s a u names scopes around hrun hs _
  obtain ⟨hframe, haround⟩ := List.cons.inj hs
  obtain ⟨hnames, hscopes⟩ := Prod.mk.inj hframe
  obtain ⟨_, s₁, hstart, hrun⟩ := bind_eq_ok hrun
  obtain ⟨_, s₂, hbodyrun, hend⟩ := bind_eq_ok hrun
  cases hstart
  have hlength : s.builder.active.length = names.length := by rw [← hnames, List.length_map]
  have hframes₁ : State.frames { s with builder := pushScope s.builder } =
      (names, names.length :: scopes) :: around := by
    rw [State.frames, List.map_cons, haround, Builder.frame, pushScope, hnames, hscopes, hlength]
  obtain ⟨hframes₂, hreported₂⟩ := hbody _ _ s₂ _ _ around hbodyrun hframes₁ (by simp)
  obtain ⟨hframe₂, haround₂⟩ := List.cons.inj hframes₂
  obtain ⟨hnames₂, hscopes₂⟩ := Prod.mk.inj hframe₂
  obtain ⟨b, enclosing, ds⟩ := s₂
  rw [Outline.scanAll_singleton, Outline.scan]
  simp only [build, endScope_run hscopes₂] at hend
  cases hend
  refine ⟨?_, hreported₂⟩
  -- the names of the block come after those that were there
  have htake : ((b.active.take names.length).map LocalInfo.name, scopes) = (names, scopes) := by
    rw [List.map_take, hnames₂, ← (List.prefix_iff_eq_take.1 (Outline.prefix_scanAll names es))]
  rw [State.frames, List.map_cons, haround₂]
  refine congrArg (· :: around) (Eq.trans ?_ htake)
  split
  · rfl
  · rfl

end

theorem walk_traces : Walk fun _ root x es => Traces root x es where
  toSteps := steps_traces
  within := traces_within
  block := traces_block
  condition h s a t names scopes around hrun hs hroot := by
    rw [Outline.scanAll_condition]
    exact h s a t names scopes around hrun hs hroot

/-- The declarations that are reported for a program are those that a pass over its outline notes,
in the same order. -/
theorem redeclared_program {items : List Node} {p : Prototype} {t : State}
    (h : program items .start = .ok p t) :
    t.redeclared = (scanAll [] (Outline.nodes true items)).2 := by
  obtain ⟨_, s, hrun, hleave⟩ := bind_eq_ok h
  obtain ⟨hframes, hreported⟩ :=
    walk_traces.nodes (fun n _ => walk_traces.node n) _ _ s [] [] [] hrun rfl rfl
  obtain ⟨_, u, hcheck, hleave⟩ := bind_eq_ok hleave
  obtain ⟨-, hsize⟩ := steps_traces.checkSize true _ s _ u _ [] [] hcheck hframes rfl
  have hdiagnostics : t.redeclared = u.redeclared := by
    obtain ⟨b, enclosing, ds⟩ := u
    cases enclosing with
    | nil | cons =>
      cases hleave
      rfl
  rw [hdiagnostics, hsize, hreported, scanAll, List.append_nil]
  rfl

end Lower

/-- Every normalized program, also one with errors, is lowered. A declaration is reported because
its name is taken exactly if an earlier declaration of the name in the same function is still in
scope, or if it is in the condition of a loop with an else branch, and the condition declares the
name in the block that the loop is in. -/
theorem redeclaration_reported_iff (items : List Node) :
    ∃ l, lower (normalize items).value = .ok l ∧ ∀ pos x, ⟨pos, .duplicateLocal x⟩ ∈ l.diagnostics ↔
      Outline.Repeats (Outline.nodes true (normalize items).value) (pos, x) ∨
        Outline.Revisited (Outline.nodes true (normalize items).value) (pos, x) := by
  obtain ⟨p, t, hrun, -⟩ := Lower.yields_program (Marking.marks_normalize items)
  refine ⟨⟨p, t.diagnostics⟩, ?_, fun pos x => ?_⟩
  · rw [lower, EStateM.run, hrun]
  · have hmem : ⟨pos, .duplicateLocal x⟩ ∈ t.diagnostics ↔ (pos, x) ∈ t.redeclared := by
      simp [Lower.State.redeclared, List.mem_filterMap, Diagnostic.redeclared?_eq_some_iff]
    rw [hmem, Lower.redeclared_program hrun, Outline.mem_scanAll_iff]
    simp

/-- A program with one declaration. -/
def declaringOnce : String :=
  "while (var x = false) 1 el 2"

/-- The declaration is reported although it repeats none. -/
theorem redeclaration_reported_declaringOnce :
    let items := (normalize (parse declaringOnce).items).value
    ¬Outline.Repeats (Outline.nodes true items) (⟨1, 8⟩, "x") ∧
      ∃ l, lower items = .ok l ∧ ⟨⟨1, 8⟩, .duplicateLocal "x"⟩ ∈ l.diagnostics := by
  refine ⟨by decide +kernel, ?_⟩
  have hreported : (match lower (normalize (parse declaringOnce).items).value with
      | .ok l => decide (⟨⟨1, 8⟩, .duplicateLocal "x"⟩ ∈ l.diagnostics)
      | .error _ => false) = true := by
    decide +kernel
  split at hreported
  · rename_i l hl
    exact ⟨l, hl, of_decide_eq_true hreported⟩
  · cases hreported

end Refscript
