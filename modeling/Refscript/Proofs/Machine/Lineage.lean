import Refscript.Proofs.Code.Orderly
import Refscript.Proofs.Code.Resolution
import Refscript.Proofs.Machine.Captures
import Refscript.Proofs.Machine.Operands

/-!
# Refscript.Proofs.Machine.Lineage

Where the functions of a run come from. A function value is made by a call, whose own function was
made by another call, and so on back to a function that was there at the start (`Outcome.Descends`).
The calls on the way are those of the functions around it in the program text (`Lexical`), and each
of its cells is the one that stood for the slot of the captured variable in the call around when
that made the function inside it.

* `Machine.step_creates`: the only steps that add functions are those of instructions that create
  them.
* `Outcome.Run.descends`: every function of a run descends from one that was there at the start.
* `Outcome.Descends.captures`: the cells of a function that descends from a compiled program.
-/

namespace Refscript

open Refscript.Action

variable {w : Word} {P : Prototype} {f : Frame} {s t : Store} {k : Nat} {m : Machine} {C D : Chart}
  {around : List (List String)} {ms : List Machine} {places : List Nat}

/-- The instruction creates the functions at the places. -/
inductive Frame.Instructs (f : Frame) (w : Word) : List Nat → Prop where
  | closure : w.op? = some .closure → Instructs f w [w.c]
  | makeType {type : TypeInfo} :
      w.op? = some .makeType → f.prototype.types[w.c]? = some type → Instructs f w type.members

theorem Exec.Refers.closures_eq {g : Frame} {kind : RefKind} (h : Exec.Refers f s w g t kind) :
    t.closures = s.closures := by
  cases h with
  | loc _ hclosures => exact hclosures
  | global _ ht | outer _ ht | index _ ht | field _ ht => exact ht.closures_eq

namespace Machine

variable {host : Host}

theorem stable_closures (cs : Array Closure) : Stable fun s _ => s.closures = cs where
  still h ht := ht.closures_eq.trans h
  push _ h := h
  start h ht _ _ _ := ht.closures_eq.trans h
  pop {s f _} h := (f.closeFrom_spec 0 s).2.closures_eq.trans h

/-- The call `f` creates `added` from the functions inside it at `places`, between the stores. -/
structure Creates (f : Frame) (places : List Nat) (added : List Closure) (s t : Store) : Prop where
  word : ∃ w, f.prototype.code[f.ip]? = some w ∧ f.Instructs w places
  makes : ∃ g, f.SameCall g ∧ f.Makes places added g s t

theorem runs_creates {op : Opcode} {eff : Effect} (h : Exec.Runs f s w op eff t) :
    t.closures = s.closures ∨ ∃ places added, f.Instructs w places ∧
      f.Makes places added (Exec.after eff) s t := by
  obtain ⟨_, hop, hrun, _, hties⟩ := h
  cases hties with
  | still _ ht => exact .inl ht.closures_eq
  | closes _ _ ht =>
    rw [ht]
    exact .inl (f.closeFrom_spec w.c s).2.closures_eq
  | takes htakes _ _ =>
    cases op with
    | closure =>
      obtain ⟨added, hmakes⟩ := Exec.closure_makes hrun
      exact .inr ⟨_, added, .closure hop, hmakes⟩
    | makeType =>
      obtain ⟨type, added, htype, hmakes⟩ := Exec.makeType_makes hrun
      exact .inr ⟨_, added, .makeType hop htype, hmakes⟩
    | ref =>
      obtain ⟨_, _, hrefers⟩ := Exec.ref_refers hrun
      exact .inl hrefers.closures_eq
    | _ => cases htakes

theorem step_creates (host : Host) (m : Machine) :
    (m.step host).machine.store.closures = m.store.closures ∨
      ∃ f rest places added, m.pending = none ∧ m.frames = f :: rest ∧
        Creates f places added m.store (m.step host).machine.store := by
  cases m.step_turns host with
  | keeps _ hkeeps => exact .inl (hkeeps _ (stable_closures m.store.closures) rfl)
  | @executes f rest w op eff hp hfs hruns _ =>
    rcases runs_creates hruns with hsame | ⟨places, added, hinstructs, hmakes⟩
    · exact .inl hsame
    · exact .inr ⟨f, rest, places, added, hp, hfs, ⟨w, hruns.word, hinstructs⟩, _,
        hruns.moves.sameCall, hmakes⟩

/-- The functions that the next step adds. -/
def added (m : Machine) (host : Host) : List Closure :=
  (m.step host).machine.store.closures.toList.drop m.store.closures.size

/-- A step that adds functions creates them at the innermost call. -/
theorem creates_of_mem_added {c : Closure} (hc : c ∈ m.added host) :
    ∃ f rest places, m.pending = none ∧ m.frames = f :: rest ∧
      Creates f places (m.added host) m.store (m.step host).machine.store := by
  rcases m.step_creates host with hsame | ⟨f, rest, places, new, hp, hfs, hcreates⟩
  · rw [added, hsame, ← Array.length_toList, List.drop_length] at hc
    cases hc
  · obtain ⟨_, _, hmakes⟩ := hcreates.makes
    have hnew : m.added host = new := by
      rw [added, hmakes.closures, ← Array.length_toList, List.drop_left]
    exact ⟨f, rest, places, hp, hfs, hnew ▸ hcreates⟩

theorem mem_closures_step {c : Closure} (hc : c ∈ (m.step host).machine.store.closures.toList) :
    c ∈ m.store.closures.toList ∨ c ∈ m.added host := by
  rcases m.step_creates host with hsame | ⟨f, rest, places, new, hp, hfs, hcreates⟩
  · exact .inl (hsame ▸ hc)
  · obtain ⟨_, _, hmakes⟩ := hcreates.makes
    rw [added, hmakes.closures, ← Array.length_toList, List.drop_left]
    exact List.mem_append.1 (hmakes.closures ▸ hc)

theorem Creates.nested {new : List Closure} (h : Creates f places new s t) {c : Closure}
    (hc : c ∈ new) : ∃ i ∈ places, f.prototype.nested[i]? = some c.prototype := by
  obtain ⟨_, _, hmakes⟩ := h.makes
  have hmem : some c.prototype ∈ places.map (f.prototype.nested[·]?) := by
    rw [hmakes.prototypes]
    exact List.mem_map_of_mem hc
  obtain ⟨i, hi, heq⟩ := List.mem_map.1 hmem
  exact ⟨i, hi, heq⟩

end Machine

/-- Every call in progress runs a function of the store, or the empty one. -/
def Listed (s : Store) (fs : List Frame) : Prop :=
  ∀ f ∈ fs, f.closure = default ∨ f.closure ∈ s.closures.toList

namespace Listed

theorem grows {new : Closure → Prop} {fs : List Frame} (h : Listed s fs) (ht : s.Grows new t) :
    Listed t fs := by
  intro f hf
  obtain ⟨added, hadded, _⟩ := ht.closures
  rw [hadded]
  exact (h f hf).imp_right (List.mem_append_left added)

theorem goesOn {g : Frame} {rest : List Frame} (h : Listed s (f :: rest)) (hfg : f.SameCall g) :
    Listed s (g :: rest) := by
  obtain ⟨hf, hrest⟩ := List.forall_mem_cons.1 h
  exact List.forall_mem_cons.2 ⟨hfg.closure ▸ hf, hrest⟩

theorem kept : Kept Listed where
  still h ht := h.grows ht.toGrows
  push v h := h.goesOn ⟨rfl, rfl, rfl, rfl⟩
  start {s t fs id this result a} h ht _ _ _ := by
    refine List.forall_mem_cons.2 ⟨?_, h.grows ht.toGrows⟩
    rw [ht.closures_eq]
    exact Machine.closure_mem s id
  execute h hruns := (h.grows hruns.ties.grows).goesOn hruns.moves.sameCall
  pop {s f rest} h := fun g hg => (h.grows (f.closeFrom_spec 0 s).2) g (List.mem_cons_of_mem _ hg)

end Listed

namespace Outcome

variable {host : Host} {start o : Outcome} {base c : Closure}

/-- The function `c` of a run was made by the function `base`, or by a function that it made, and so
on. The machines are those that were about to make them, latest first; each does so at its innermost
call. -/
inductive Descends (host : Host) (start : Outcome) (base : Closure) :
    Closure → List Machine → Prop where
  | self : Descends host start base base []
  | created {m : Machine} {f : Frame} {rest : List Frame} {c : Closure} {ms : List Machine} :
      Run host start (.running m) → m.frames = f :: rest → Descends host start base f.closure ms →
      c ∈ m.added host → Descends host start base c (m :: ms)

/-- Every function of a run descends from one that was there at the start. -/
theorem Run.descends (h : Run host start o) (hstart : start.machine.frames = [])
    (hc : c ∈ o.machine.store.closures.toList) :
    ∃ base ∈ start.machine.store.closures.toList, ∃ ms, Descends host start base c ms := by
  induction h generalizing c with
  | refl => exact ⟨c, hc, [], .self⟩
  | @move o₁ o₂ hr hm ih =>
    cases hm with
    | @answer _ m a _ =>
      have hsame := (Machine.stable_closures m.store.closures).resume (m := m) rfl a
      exact ih (hsame ▸ hc)
    | step m =>
      rcases Machine.mem_closures_step hc with hc | hc
      · exact ih hc
      obtain ⟨f, rest, places, _, hfs, hcreates⟩ := Machine.creates_of_mem_added hc
      have hlisted : Listed m.store m.frames :=
        Listed.kept.run (by rw [Listed, hstart]; exact nofun) hr
      have hf : f.closure = default ∨ f.closure ∈ m.store.closures.toList :=
        hlisted f (hfs ▸ List.mem_cons_self)
      rcases hf with hempty | hmem
      · -- there are no functions inside the empty one
        obtain ⟨i, _, hi⟩ := hcreates.nested hc
        rw [Frame.prototype, hempty] at hi
        cases hi
      · obtain ⟨base, hbase, ms, hdescends⟩ := ih hmem
        exact ⟨base, hbase, m :: ms, .created hr hfs hdescends hc⟩

end Outcome

/-- The machines that made a function inside the program `P` with the chart `C` and the functions
around it were, each, at the instruction that creates the next one, inside the functions that are
around it in the text. -/
inductive Lexical (C : Chart) (P : Prototype) :
    List Machine → List (Scope × Prototype) → Chart → Prototype → Prop where
  | self : Lexical C P [] [] C P
  | inner {ms : List Machine} {way : List (Scope × Prototype)} {D D' : Chart}
      {Q Q' : Prototype} {m : Machine}
      {f : Frame} {rest : List Frame} {S : Scope} {places : List Nat} {i : Nat} :
      Lexical C P ms way D Q → m.frames = f :: rest → f.prototype = Q →
      D.entries[f.ip]? = some ⟨S, .create places⟩ → i ∈ places → D.inner[i]? = some (S, D') →
      Q.nested[i]? = some Q' → Lexical C P (m :: ms) ((S, Q) :: way) D' Q'

theorem Lexical.within {Q : Prototype} {way : List (Scope × Prototype)}
    (h : Lexical C P ms way D Q) : Within C P way D Q := by
  induction h with
  | self => exact .self
  | inner _ _ _ _ _ hD hQ ih => exact ih.inner hD hQ

theorem Prototype.Carries.op?_eq {i : Insn} (h : P.Carries k i) (hw : P.code[k]? = some w) :
    w.op? = some i.op := by
  rw [h.word] at hw
  cases hw
  exact i.op?_pack

theorem Prototype.Carries.c_eq {i : Insn} (h : P.Carries k i) (hw : P.code[k]? = some w)
    (hl : i.op.layout = .wide) : w.c = i.a := by
  rw [h.word] at hw
  cases hw
  exact Insn.c_pack hl h.fits

/-- Instructions for slots and for functions have entries that say so. -/
theorem Entry.Fits.use {e : Entry} {inner : List (Scope × Chart)} {op : Opcode}
    (h : e.Fits around inner P k) (hw : P.code[k]? = some w) (hop : w.op? = some op) :
    (op = .closeOuters → e.use = .close) ∧ (op = .initLocal → ∃ x, e.use = .init x) ∧
      (op = .closure ∨ op = .makeType → ∃ places, e.use = .create places) := by
  have hcarries : ∀ {i : Insn}, P.Carries k i → op = i.op := fun hi =>
    Option.some.inj (hop.symm.trans (hi.op?_eq hw))
  obtain ⟨S, use⟩ := e
  cases use with
  | plain =>
    obtain ⟨i, hi, hnameless⟩ := h
    rw [hcarries hi]
    refine ⟨fun heq => ?_, fun heq => ?_, fun heq => ?_⟩
    · simp [Insn.nameless, heq] at hnameless
    · simp [Insn.nameless, heq] at hnameless
    · rcases heq with heq | heq <;> simp [Insn.nameless, heq] at hnameless
  | access a x =>
    obtain ⟨place, name, _, _, hi⟩ := h
    rw [hcarries hi]
    cases a <;> cases place <;> simp [Access.insn, Insn.wide, Insn.split]
  | define x =>
    obtain ⟨name, _, hi⟩ := h
    simp [hcarries hi, Insn.wide]
  | init x =>
    obtain ⟨slot, _, hi⟩ := h
    simp [hcarries hi, Insn.wide]
  | close => simp [hcarries h, Insn.wide]
  | create places =>
    obtain ⟨_, ⟨i, _, hi⟩ | ⟨i, t, _, _, hi⟩⟩ := h <;> simp [hcarries hi, Insn.wide]

theorem Entry.Fits.creates {e : Entry} {inner : List (Scope × Chart)}
    (h : e.Fits around inner f.prototype f.ip) (hw : f.prototype.code[f.ip]? = some w)
    (hinstructs : f.Instructs w places) :
    e.use = .create places ∧ ∀ i ∈ places, (inner[i]?).map Prod.fst = some e.scope := by
  obtain ⟨places', huse⟩ : ∃ places', e.use = .create places' := by
    cases hinstructs with
    | closure hop => exact (h.use hw hop).2.2 (.inl rfl)
    | makeType hop _ => exact (h.use hw hop).2.2 (.inr rfl)
  simp only [Entry.Fits, huse] at h
  obtain ⟨hinner, ⟨i, rfl, hi⟩ | ⟨i, t, ht, rfl, hi⟩⟩ := h
  · cases hinstructs with
    | closure _ =>
      rw [hi.c_eq hw rfl]
      exact ⟨huse, hinner⟩
    | makeType hop _ => cases (hi.op?_eq hw).symm.trans hop
  · cases hinstructs with
    | closure hop => cases (hi.op?_eq hw).symm.trans hop
    | makeType _ htype =>
      rw [hi.c_eq hw rfl, Insn.wide, ht] at htype
      cases htype
      exact ⟨huse, hinner⟩

theorem Chart.Matches.entry {Q : Prototype} (h : D.Matches around Q) (hw : Q.code[k]? = some w) :
    ∃ e, D.entries[k]? = some e := by
  obtain ⟨hlt, _⟩ := Array.getElem?_eq_some_iff.1 hw
  exact ⟨_, List.getElem?_eq_getElem (h.size ▸ hlt)⟩

theorem Lexical.create {way : List (Scope × Prototype)} {rest : List Frame} {new : List Closure}
    {c : Closure} (h : Lexical C P ms way D f.prototype) (hC : Described [] C P)
    (hfs : m.frames = f :: rest) (hcreates : Machine.Creates f places new s t) (hc : c ∈ new) :
    ∃ S D', Lexical C P (m :: ms) ((S, f.prototype) :: way) D' c.prototype := by
  obtain ⟨w, hw, hinstructs⟩ := hcreates.word
  obtain ⟨i, hi, hnested⟩ := hcreates.nested hc
  have hmatched := h.within.matched hC
  obtain ⟨⟨S, use⟩, he⟩ := hmatched.entry hw
  obtain ⟨huse, hinner⟩ := (hmatched.fits f.ip _ he).creates hw hinstructs
  obtain ⟨⟨S', D'⟩, hD', hS'⟩ := Option.map_eq_some_iff.1 (hinner i hi)
  simp only at huse hS'
  subst huse hS'
  exact ⟨S', D', h.inner hfs rfl he hi hD' hnested⟩

namespace Outcome

variable {host : Host} {start : Outcome}

/-- The cell is the one that stood for the slot of the variable in the call around that has it, when
that call made the function inside it. `ms` are the machines that made the functions, `way` the
functions around in the text. -/
def Holds (host : Host) (ms : List Machine) (way : List (Scope × Prototype)) (o : OuterInfo)
    (d : CellId) : Prop :=
  ∃ n slot m f rest, o.follow (way.map Prod.snd) = some (n, slot) ∧
    Scope.lookup (way.map Prod.fst) o.name = some (n, slot) ∧ ms[n]? = some m ∧
      m.frames = f :: rest ∧
    (m.step host).machine.store.cell d = .opened f.activation slot

/-- The functions that a compiled program makes in a run are inside it in the text as they are made
by one another in the run, and they hold the cells of the variables that they capture. -/
theorem Descends.captures {c : Closure} (hC : Described [] C P) (houters : P.outers = [])
    (hneat : ∀ m, Run host start (.running m) → ∀ f ∈ m.frames, f.Neat 0 m.store)
    (h : Descends host start ⟨P, #[]⟩ c ms) :
    ∃ way D, Lexical C P ms way D c.prototype ∧ c.captures.size = c.prototype.outers.length ∧
      ∀ (i : Nat) (o : OuterInfo), c.prototype.outers[i]? = some o →
        ∃ d, c.captures[i]? = some d ∧ Holds host ms way o d := by
  induction h with
  | self =>
    refine ⟨[], C, .self, by simp [houters], fun i o ho => ?_⟩
    simp [houters] at ho
  | @created m f rest c ms hr hfs _ hc ih =>
    obtain ⟨way, D, hlexical, _, hcaptures⟩ := ih
    obtain ⟨f', rest', places, _, hfs', hcreates⟩ := Machine.creates_of_mem_added hc
    obtain ⟨rfl, rfl⟩ := List.cons.inj (hfs.symm.trans hfs')
    obtain ⟨S, D', hinner⟩ := hlexical.create hC hfs hcreates hc
    obtain ⟨g, hsame, hmakes⟩ := hcreates.makes
    have hsize := hmakes.sizes c hc
    refine ⟨_, D', hinner, hsize, fun i o ho => ?_⟩
    obtain ⟨hlt, _⟩ := List.getElem?_eq_some_iff.1 ho
    obtain ⟨d, hd⟩ : ∃ d, c.captures[i]? = some d := ⟨_, Array.getElem?_eq_getElem (hsize ▸ hlt)⟩
    refine ⟨d, hd, ?_⟩
    have hgives := hmakes.gives (hneat m hr f (hfs ▸ List.mem_cons_self)) c hc i o d ho hd
    obtain ⟨⟨n, slot⟩, hfollow, hlookup⟩ :=
      hinner.within.follow hC houters (List.mem_of_getElem? ho)
    obtain ⟨name, position, kind⟩ := o
    cases kind with
    | localInParent =>
      obtain ⟨_, hcell⟩ := hgives
      obtain ⟨rfl, rfl⟩ : 0 = n ∧ position = slot := by simpa [OuterInfo.follow] using hfollow
      exact ⟨0, position, m, f, rest, hfollow, hlookup, rfl, hfs, hsame.activation ▸ hcell⟩
    | outerInParent =>
      -- the function around holds the cell, since its own creation
      have hheld : f.closure.captures[position]? = some d := by
        rw [← hsame.closure]
        exact hgives
      simp only [List.map_cons, OuterInfo.follow] at hfollow
      split at hfollow
      · rename_i o' ho'
        split at hfollow
        · obtain ⟨⟨k, slot'⟩, hfollow', heq⟩ := Option.map_eq_some_iff.1 hfollow
          cases heq
          obtain ⟨d', hd', k', slot, m', f', rest', hk, _, hm', hfs', hcell⟩ :=
            hcaptures position o' ho'
          rw [hheld] at hd'
          cases hd'
          rw [hfollow'] at hk
          cases hk
          refine ⟨k + 1, slot', m', f', rest', ?_, hlookup, hm', hfs', hcell⟩
          simp_all [OuterInfo.follow]
        · cases hfollow
      · cases hfollow

theorem accounted_runPrototype {m₀ : Machine} (hidle : m₀.frames = []) (p : Prototype)
    (args : List Value) {o : Outcome} (h : Run host (m₀.runPrototype p args) o) :
    Accounted (m₀.runPrototype p args).machine.store.cells.size o.machine.store
      o.machine.frames := by
  refine (Accounted.kept _).run ?_ h
  have hframes : (m₀.runPrototype p args).machine.frames = [] := hidle
  rw [hframes]
  exact ⟨⟨fun c hc hlt => absurd hlt (Nat.not_lt.2 hc), by simp, .nil⟩, Nat.le_refl _, by simp⟩

theorem neat_runPrototype {m₀ : Machine} (hidle : m₀.frames = []) (p : Prototype)
    (args : List Value) (h : Run host (m₀.runPrototype p args) (.running m)) :
    ∀ f ∈ m.frames, f.Neat 0 m.store :=
  fun f hf => ((accounted_runPrototype hidle p args h).neat f hf).zero

end Outcome

/-- In a program that compiles without errors names are resolved lexically.

Every function in it has a place in the text, and its instructions are what its chart says: each one
that reads, assigns or refers to the variable of a name addresses the slot of the name in the
function itself, or a captured variable that leads to its slot in the innermost function around that
has it in scope, or the global of the name. The names in scope are distinct, and so are those of the
captured variables.

While it is built, the local at place `i` has slot `i` in every function, and names of locals and of
captured variables are distinct.

In a run, every function value was made by a call, of a function that was made by another call, and
so on back to what was there at the start. For a function of the program these are calls of the
functions around it in the text, and each of its cells is the one of the captured variable's slot in
the call of the function that has it. -/
theorem lexical_resolution (host : Host) {source : String} {p : Prototype}
    (hp : compile source = .ok p) : (∀ q : Prototype, q.Inside p → ∃ way D,
      Within (.ofProgram (readProgram source).items) p way D q) ∧
    (∀ {way : List (Scope × Prototype)} {D : Chart} {Q : Prototype},
      Within (.ofProgram (readProgram source).items) p way D Q →
        D.Matches (way.map fun r => Scope.names r.1) Q ∧
        (∀ {k : Nat} {S : Scope} {a : Access} {x : String}, D.entries[k]? = some ⟨S, .access a x⟩ →
          ∃ place name, Q.Carries k (a.insn place name) ∧ S.Addresses way Q x name place) ∧
        (∀ e ∈ D.entries, e.scope.names.Nodup) ∧ (Q.outers.map OuterInfo.name).Nodup) ∧
    (Lower.State.start.Orderly ∧ (∀ n, Lower.Guards (Lower.node n)) ∧
      (∀ name, Lower.Guards (Lower.resolve name)) ∧
      (∀ name pos, Lower.Guards (Lower.declareLocal name pos)) ∧
      (∀ name pos params variadic, Lower.Guards (Lower.enter name pos params variadic)) ∧
      (∀ pos, Lower.Guards (Lower.leave pos)) ∧ Lower.Guards (Lower.build .endScope)) ∧
    ∀ {m₀ : Machine}, m₀.frames = [] → ∀ args : List Value,
      (∀ {o : Outcome}, Outcome.Run host (m₀.runPrototype p args) o →
        (∀ f ∈ o.machine.frames, f.closure = default ∨
          f.closure ∈ o.machine.store.closures.toList) ∧
        ∀ c ∈ o.machine.store.closures.toList,
        ∃ base ∈ (m₀.runPrototype p args).machine.store.closures.toList,
          ∃ ms, Outcome.Descends host (m₀.runPrototype p args) base c ms) ∧
      ∀ {c : Closure} {ms : List Machine},
        Outcome.Descends host (m₀.runPrototype p args) ⟨p, #[]⟩ c ms →
        ∃ way D, Lexical (.ofProgram (readProgram source).items) p ms way D c.prototype ∧
          c.captures.size = c.prototype.outers.length ∧
          ∀ (i : Nat) (o : OuterInfo), c.prototype.outers[i]? = some o →
            ∃ d, c.captures[i]? = some d ∧ Outcome.Holds host ms way o d := by
  have hC := described_of_compile hp
  have houters := (good_of_compile hp).1
  refine ⟨fun q hq => Within.of_inside hC hq, fun hwithin => ?_, ?_, fun {m₀} hidle args => ?_⟩
  · have hmatched := hwithin.matched hC
    exact ⟨hmatched, hwithin.access hC houters, fun e he => (hmatched.distinct e he).names,
      hmatched.outers⟩
  · exact ⟨Lower.State.orderly_start, Lower.guards_node, Lower.guards_resolve,
      Lower.guards_declareLocal, Lower.guards_enter, Lower.guards_leave, Lower.guards_endScope⟩
  · have hstart : (m₀.runPrototype p args).machine.frames = [] := hidle
    refine ⟨fun hr => ⟨?_, fun c hc => hr.descends hstart hc⟩, fun hdescends => ?_⟩
    · exact Listed.kept.run (by rw [hstart]; exact nofun) hr
    · exact hdescends.captures hC houters fun m => Outcome.neat_runPrototype hidle p args

/-- A function in a function in a block: the inner one captures variables of both. -/
def nesting : String :=
  "{ var n = 1 fn(a) { fn(b) n = n + a + b } }"

/-- The text compiles to such functions, and both they and the function values of its runs find
their variables. -/
theorem lexical_resolution_nesting :
    ∃ p, compile nesting = .ok p ∧
      (∃ q ∈ p.nested, ∃ r ∈ q.nested,
        r.outers = [⟨"n", 0, .outerInParent⟩, ⟨"a", 0, .localInParent⟩]) ∧
      (∀ {way D Q}, Within (.ofProgram (readProgram nesting).items) p way D Q →
        ∀ {k S x}, D.entries[k]? = some ⟨S, .access .load x⟩ →
          ∃ place name, Q.Carries k (Access.load.insn place name) ∧
            S.Addresses way Q x name place) ∧
      ∃ m₀ : Machine, m₀.frames = [] ∧
        ∀ {c ms}, Outcome.Descends noHost (m₀.runPrototype p []) ⟨p, #[]⟩ c ms →
          ∃ way D, Lexical (.ofProgram (readProgram nesting).items) p ms way D c.prototype ∧
            ∀ (i : Nat) (o : OuterInfo), c.prototype.outers[i]? = some o →
              ∃ d, c.captures[i]? = some d ∧ Outcome.Holds noHost ms way o d := by
  have hcompiles : (match compile nesting with
      | .ok p => p.nested.any fun q => q.nested.any fun r =>
          r.outers == [⟨"n", 0, .outerInParent⟩, ⟨"a", 0, .localInParent⟩]
      | .error _ => false) = true := by
    decide +kernel
  split at hcompiles
  · rename_i p hp
    obtain ⟨q, hq, hinner⟩ := List.any_eq_true.1 hcompiles
    obtain ⟨r, hr, houters⟩ := List.any_eq_true.1 hinner
    obtain ⟨_, hstatic, _, hruns⟩ := lexical_resolution noHost hp
    refine ⟨p, hp, ⟨q, hq, r, hr, by simpa using houters⟩, fun hwithin => (hstatic hwithin).2.1,
      ⟨Store.empty, [], none, 0, 8⟩, rfl, fun hdescends => ?_⟩
    obtain ⟨way, D, hlexical, _, hholds⟩ := (hruns rfl []).2 hdescends
    exact ⟨way, D, hlexical, hholds⟩
  · cases hcompiles

end Refscript
