import Refscript.Proofs.Machine.Assignment
import Refscript.Proofs.Machine.Lineage

/-!
# Refscript.Proofs.Machine.Definition

What the name of a definition reads right after it. A variable, and a function or a type in a block
or in a function, is put into its slot, which is where the name is read. A function or a type at the
top level is stored to the global of its name; the name reads the global unless a variable of the
name is in scope, and in that case it reads the variable.

* `Machine.At.running`: an instruction that is executed, by its place in the code.
* `Frame.Reads`: what an instruction that reads a variable gives.
* `Exec.initLocal_inits`, `Exec.create_pushes`, `Exec.storeGlobal_stores`: the instructions that
  definitions end with.
-/

namespace Refscript

open Refscript.Action

/-- The innermost call has reached the instruction at `k`, and no call is to be made first. -/
structure Machine.At (m : Machine) (f : Frame) (rest : List Frame) (k : Nat) : Prop where
  pending : m.pending = none
  frames : m.frames = f :: rest
  ip : f.ip = k

namespace Machine.At

variable {host : Host} {m m' : Machine} {f : Frame} {rest : List Frame} {k : Nat} {i : Insn}

theorem step_eq (h : m.At f rest k) (hi : f.prototype.Carries k i) :
    m.step host = Machine.execute f i.pack rest m.store m.depth m.limit := by
  obtain ⟨s, frames, pending, depth, limit⟩ := m
  obtain ⟨hpending, hframes, hip⟩ := h
  dsimp only at hpending hframes
  subst hpending hframes
  have hword : f.prototype.code[f.ip]? = some i.pack := by rw [hip, hi.word]
  simp only [Machine.step, hword]

theorem running (h : m.At f rest k) (hi : f.prototype.Carries k i)
    (hstep : m.step host = .running m') :
    ∃ eff, Exec.operation { f with ip := k + 1 } i.pack i.op m.store = .ok eff m'.store ∧
      m'.frames = Exec.after eff :: rest ∧ ∀ g, eff = .next g → m'.pending = none := by
  rw [h.step_eq hi, Machine.execute] at hstep
  simp only [Exec.word, i.op?_pack, h.ip] at hstep
  split at hstep
  · rename_i g t hrun
    cases hstep
    exact ⟨_, hrun, rfl, fun _ _ => rfl⟩
  · rename_i c g t hrun
    cases hstep
    exact ⟨_, hrun, rfl, fun _ heq => by cases heq⟩
  · exact absurd hstep (Machine.raise_ne_running _ _ _)

end Machine.At

/-- Executing the instruction at `k` in this call, when the store is `s`, pushes the value and does
nothing else. -/
def Frame.Reads (host : Host) (f : Frame) (s : Store) (k : Nat) (v : Value) : Prop :=
  ∀ (m : Machine) (g : Frame) (rest : List Frame), m.store = s → m.At g rest k → f.SameCall g →
    m.step host =
      .running { m with frames := { g with ip := k + 1, stack := v :: g.stack } :: rest }

namespace Frame

variable {host : Host} {f : Frame} {s : Store} {k slot name : Nat} {v : Value} {x : String}

theorem Reads.of_operation {i : Insn} (hi : f.prototype.Carries k i)
    (hrun : ∀ g : Frame, f.SameCall g → Exec.operation g i.pack i.op s = .ok (.next (g.push v)) s) :
    f.Reads host s k v := by
  intro m g rest hs hm hsame
  have hg : g.prototype.Carries k i := by
    rw [Frame.prototype, hsame.closure]
    exact hi
  have hpush :=
    hrun { g with ip := k + 1 } ⟨hsame.closure, hsame.activation, hsame.this, hsame.result⟩
  rw [hm.step_eq hg, Machine.execute]
  simp only [Exec.word, i.op?_pack, hm.ip, hs, hpush]
  obtain ⟨store, frames, pending, depth, limit⟩ := m
  have hpending : pending = none := hm.pending
  subst hpending hs
  rfl

theorem reads_local (hi : f.prototype.Carries k (.wide .loadLocal slot))
    (hv : (s.locals f.activation)[slot]? = some v) : f.Reads host s k v := by
  refine .of_operation hi fun g hsame => ?_
  have hc : (Insn.wide .loadLocal slot).pack.c = slot := hi.c_eq hi.word rfl
  have hlocal : g.localAt s slot = .ok v := by rw [localAt, hsame.activation, hv]
  show Exec.operation g _ .loadLocal s = _
  simp only [Exec.operation, hc, bind, EStateM.bind, reading, hlocal]
  rfl

theorem reads_global (hi : f.prototype.Carries k (.wide .loadGlobal name))
    (hname : f.prototype.constants[name]? = some (.str x)) : f.Reads host s k (s.load x) := by
  refine .of_operation hi fun g hsame => ?_
  have hc : (Insn.wide .loadGlobal name).pack.c = name := hi.c_eq hi.word rfl
  have hx : g.name name = .ok x := by
    rw [Frame.name, Prototype.stringConstant?, Frame.prototype, hsame.closure]
    rw [Frame.prototype] at hname
    rw [hname]
    rfl
  show Exec.operation g _ .loadGlobal s = _
  simp only [Exec.operation, hc, bind, EStateM.bind, Action.ofExcept, hx]
  rfl

end Frame

namespace Exec

variable {f : Frame} {w : Word} {s t : Store} {eff : Effect}

theorem initLocal_inits (h : operation f w .initLocal s = .ok eff t) :
    ∃ v rest, f.stack = v :: rest ∧
    w.c < (s.locals f.activation).size ∧ eff = .next f ∧ t = s.setLocal f.activation w.c v := by
  have hspec : Ensures (operation f w .initLocal) s (fun eff t => ∃ v rest, f.stack = v :: rest ∧
      w.c < (s.locals f.activation).size ∧ eff = .next f ∧ t = s.setLocal f.activation w.c v)
      fun _ _ => True := by
    simp only [operation, ensures_bind, ensures_top, ensures_look]
    refine ⟨fun v rest hstack => ?_, fun _ => trivial⟩
    split
    · rename_i hslot
      exact ⟨v, rest, hstack, of_decide_eq_true hslot, rfl, rfl⟩
    · trivial
  exact hspec.ok h

theorem create_pushes {op : Opcode} (hop : op = .closure ∨ op = .makeType)
    (h : operation f w op s = .ok eff t) :
    ∃ g v, eff = .next (g.push v) ∧ f.Capturing g s t ∧ ∀ n place, v ≠ .ref n place := by
  have hspec :
    Ensures (operation f w op) s (fun eff t => ∃ g v, eff = .next (g.push v) ∧ f.Capturing g s t ∧
      ∀ n place, v ≠ .ref n place) fun _ _ => True := by
    rcases hop with rfl | rfl
    · simp only [operation, ensures_bind, pushed, ensures_pure]
      by_cases hfit : f.ClosureFits w.c
      · refine Ensures.imp (Frame.makeClosure_creates hfit s) ?_ fun _ _ h => h.elim
        rintro ⟨id, g⟩ t ⟨hcapturing, _⟩
        exact ⟨g, .closure id, rfl, hcapturing, by simp⟩
      · obtain ⟨n, hrun⟩ := Frame.makeClosure_refused hfit s
        exact .of_error hrun trivial
    · simp only [operation, ensures_bind, pushed, ensures_pure]
      by_cases hfit : f.TypeFits w.c
      · obtain ⟨type, _, hcreates⟩ := Frame.makeType_creates hfit s
        refine Ensures.imp hcreates ?_ fun _ _ h => h.elim
        rintro ⟨id, g⟩ t ⟨hcapturing, _⟩
        exact ⟨g, .type id, rfl, hcapturing, by simp⟩
      · obtain ⟨n, hrun⟩ := Frame.makeType_refused hfit s
        exact .of_error hrun trivial
  exact hspec.ok h

theorem storeGlobal_stores (h : operation f w .storeGlobal s = .ok eff t) : ∃ x v rest l,
    f.prototype.stringConstant? w.c = some x ∧ f.stack = v :: rest ∧ eff = .next f ∧
      s.Redirects (.global x) l ∧ s.Stored t l v := by
  have hspec : Ensures (operation f w .storeGlobal) s (fun eff t => ∃ x v rest l,
      f.prototype.stringConstant? w.c = some x ∧ f.stack = v :: rest ∧ eff = .next f ∧
        s.Redirects (.global x) l ∧ s.Stored t l v) fun _ _ => True := by
    simp only [operation, ensures_bind, ensures_top, ensures_name, ensures_pure]
    refine ⟨fun x hx => ⟨fun v rest hstack => ?_, fun _ => trivial⟩, fun _ => trivial⟩
    refine (Store.assign_stored (.global x) v s).imp (fun _ t hstored => ?_) fun _ _ _ => trivial
    obtain ⟨l, hl, hstored⟩ := hstored
    exact ⟨x, v, rest, l, hx, hstack, trivial, hl, hstored⟩
  exact hspec.ok h

end Exec

section

variable {host : Host} {m m' : Machine} {f : Frame} {rest : List Frame} {k k' : Nat} {S S' : Scope}
  {x : String} {C : Chart} {around : List (List String)}

theorem Scope.slot?_of_prefix {slot : Nat} (h : S.slot? x = some slot)
    (hnames : S.names <+: S'.names) : S'.slot? x = some slot := by
  obtain ⟨more, hmore⟩ := hnames
  rw [slot?, List.idxOf?_eq_some_iff] at *
  obtain ⟨hlt, heq, hfirst⟩ := h
  simp only [← hmore]
  refine ⟨List.length_append ▸ Nat.lt_add_right _ hlt, ?_, fun j hj => ?_⟩
  · rw [List.getElem_append_left hlt, heq]
  rw [List.getElem_append_left (Nat.lt_trans hj hlt)]
  exact hfirst j hj

/-- A variable, or a function or a type that is not at the top level: its name reads its value. -/
theorem Chart.Matches.init_reads (hC : C.Matches around f.prototype)
    (hinit : C.entries[k]? = some ⟨S, .init x⟩)
    (hload : C.entries[k']? = some ⟨S', .access .load x⟩) (hnames : S.names <+: S'.names)
    (hm : m.At f rest k) (hstep : m.step host = .running m') :
    ∃ g v st, m'.frames = g :: rest ∧ f.SameCall g ∧ g.stack = v :: st ∧
      g.Reads host m'.store k' v := by
  obtain ⟨slot, hslot, hinsn⟩ := hC.fits k _ hinit
  obtain ⟨place, name, hfinds, -, hread⟩ := hC.fits k' _ hload
  have hslot' := Scope.slot?_of_prefix hslot hnames
  obtain ⟨eff, hrun, hframes, -⟩ := hm.running hinsn hstep
  obtain ⟨v, st, hstack, hlt, rfl, hstore⟩ := Exec.initLocal_inits hrun
  rw [hinsn.c_eq hinsn.word rfl] at hlt hstore
  refine ⟨_, v, st, hframes, ⟨rfl, rfl, rfl, rfl⟩, hstack, ?_⟩
  cases place with
  | loc slot' =>
    obtain rfl := Option.some.inj (hfinds.symm.trans hslot')
    refine Frame.reads_local hread ?_
    rw [hstore]
    exact (Store.sets_slot hlt v).contents (.slot f.activation slot') |>.trans (if_pos rfl)
  | outer position | global => exact absurd (Scope.mem_of_slot? hslot') hfinds.1

/-- A function or a type at the top level is stored to the global of its name. -/
theorem Chart.Matches.define_stores {m₁ m₂ : Machine} {places : List Nat}
    (hC : C.Matches around f.prototype) (hcreate : C.entries[k]? = some ⟨S, .create places⟩)
    (hdefine : C.entries[k + 1]? = some ⟨S, .define x⟩) (hm : m.At f rest k)
    (hstep : m.step host = .running m₁) (hstep' : m₁.step host = .running m₂) :
    ∃ g v st l, m₂.frames = g :: rest ∧ f.SameCall g ∧ g.stack = v :: st ∧
      (∀ n place, v ≠ .ref n place) ∧
      m₁.store.activations = m.store.activations ∧ m₁.store.Redirects (.global x) l ∧
        m₁.store.Stored m₂.store l v := by
  obtain ⟨-, hcreates⟩ := hC.fits k _ hcreate
  obtain ⟨name, hname, hinsn⟩ := hC.fits (k + 1) _ hdefine
  have hcreate : ∃ i : Insn, (i.op = .closure ∨ i.op = .makeType) ∧ f.prototype.Carries k i := by
    obtain ⟨i, -, hi⟩ | ⟨i, -, -, -, hi⟩ := hcreates
    · exact ⟨_, .inl rfl, hi⟩
    · exact ⟨_, .inr rfl, hi⟩
  obtain ⟨i, hop, hi⟩ := hcreate
  obtain ⟨eff, hrun, hframes, hpending⟩ := hm.running hi hstep
  obtain ⟨g, v, rfl, hcapturing, hplain⟩ := Exec.create_pushes hop hrun
  have hclosure : (g.push v).prototype = f.prototype :=
    congrArg Closure.prototype hcapturing.closure
  have hm₁ : m₁.At (g.push v) rest (k + 1) := ⟨hpending _ rfl, hframes, hcapturing.ip⟩
  obtain ⟨eff, hrun', hframes', -⟩ := hm₁.running (hclosure ▸ hinsn) hstep'
  obtain ⟨y, u, st, l, hy, hstack, rfl, hredirects, hstored⟩ := Exec.storeGlobal_stores hrun'
  obtain ⟨rfl, rfl⟩ := List.cons.inj hstack
  have hxy : y = x := by
    have hconstant : (g.push v).prototype.stringConstant? name = some x := by
      rw [hclosure, Prototype.stringConstant?, hname]
      rfl
    rw [hinsn.c_eq hinsn.word rfl] at hy
    exact Option.some.inj (hy.symm.trans hconstant)
  subst hxy
  exact ⟨_, v, g.stack, l, hframes',
    ⟨hcapturing.closure, hcapturing.activation, hcapturing.this, hcapturing.result⟩,
    rfl, hplain, hcapturing.activations, hredirects, hstored⟩

end

/-- In a program that compiles without errors a definition is visible to what follows it.

A variable, or a function or a type in a block or in a function, is read by its name wherever the
names in scope begin with those in scope at the definition: reading gives the very value that the
definition left on the stack.

A function or a type at the top level is read by its name unless a variable of the name is in scope:
reading gives the function or type, or a reference that leads to it. The global may hold a
reference, through which the definition is stored; the place that it refers to must exist. If a
variable of the name is in scope, reading gives the variable as it was before the definition. -/
theorem definition_visible (host : Host) {source : String} {p : Prototype}
    (hp : compile source = .ok p) : (∀ {way : List (Scope × Prototype)} {D : Chart} {Q : Prototype},
      Within (.ofProgram (readProgram source).items) p way D Q →
      ∀ {k k' : Nat} {S S' : Scope} {x : String}, D.entries[k]? = some ⟨S, .init x⟩ →
      D.entries[k']? = some ⟨S', .access .load x⟩ → S.names <+: S'.names →
      ∀ {m m' : Machine} {f : Frame} {rest : List Frame}, f.prototype = Q → m.At f rest k →
      m.step host = .running m' →
        ∃ g v st, m'.frames = g :: rest ∧ f.SameCall g ∧ g.stack = v :: st ∧
          g.Reads host m'.store k' v) ∧
    ∀ {k k' : Nat} {S S' : Scope} {places : List Nat} {x : String},
      (Chart.ofProgram (readProgram source).items).entries[k]? = some ⟨S, .create places⟩ →
      (Chart.ofProgram (readProgram source).items).entries[k + 1]? = some ⟨S, .define x⟩ →
      (Chart.ofProgram (readProgram source).items).entries[k']? = some ⟨S', .access .load x⟩ →
      ∀ {m m₁ m₂ : Machine} {f : Frame} {rest : List Frame}, f.prototype = p → m.At f rest k →
      m.step host = .running m₁ → m₁.step host = .running m₂ →
        ∃ g v st, m₂.frames = g :: rest ∧ f.SameCall g ∧ g.stack = v :: st ∧
          (x ∉ S'.names →
            (∀ l, m₁.store.Redirects (.global x) l → m₁.store.Exists (m₁.store.real l)) →
            ∃ u, g.Reads host m₂.store k' u ∧ m₂.store.deref u = .ok v ∧ m₂.store.deref v = .ok v) ∧
          ∀ slot u, S'.slot? x = some slot →
            (∀ n place, m₁.store.contents? (.global x) ≠ some (.ref n place)) →
            (m.store.locals f.activation)[slot]? = some u → g.Reads host m₂.store k' u := by
  have hC := described_of_compile hp
  constructor
  · intro way D Q hwithin k k' S S' x hinit hload hnames m m' f rest hf hm hstep
    subst hf
    exact (hwithin.matched hC).init_reads hinit hload hnames hm hstep
  · intro k k' S S' places x hcreate hdefine hload m m₁ m₂ f rest hf hm hstep hstep'
    subst hf
    have hmatched := Within.self.matched hC
    obtain ⟨g, v, st, l, hframes, hsame, hstack, hplain, hslots, hredirects, hstored⟩ :=
      hmatched.define_stores hcreate hdefine hm hstep hstep'
    obtain ⟨place, name, hfinds, hname, hread⟩ := hmatched.fits k' _ hload
    have hg : g.prototype = f.prototype := congrArg Closure.prototype hsame.closure
    rw [← hg] at hread hname
    refine ⟨g, v, st, hframes, hsame, hstack, fun hout hexists => ?_,
      fun slot u hslot hnoref hu => ?_⟩
    · cases place with
      | loc slot => exact absurd (Scope.mem_of_slot? hfinds) hout
      | outer position =>
        obtain ⟨-, ⟨names, hnames, -⟩, -⟩ := hfinds
        cases hnames
      | global =>
        obtain ⟨u, hu, hderef⟩ :=
          (hstored.sets (hexists l hredirects)).deref_contents hredirects hplain
        have hload : m₂.store.load x = u := by
          have hu : m₂.store.globals.get? x = some u := hu
          rw [Store.load, hu]
        refine ⟨u, ?_, hderef, m₂.store.deref_of_plain hplain⟩
        rw [← hload]
        exact Frame.reads_global hread (hname rfl)
    · -- the global itself is what changes
      cases hredirects with
      | method h => cases h
      | through _ href => exact absurd href (hnoref _ _)
      | here =>
        have hsets := hstored.sets trivial
        cases place with
        | loc slot' =>
          obtain rfl := Option.some.inj (hfinds.symm.trans hslot)
          refine Frame.reads_local hread ?_
          rw [hsame.activation, ← hu, Store.locals, Store.locals, ← hslots]
          exact (hsets.contents (.slot f.activation slot')).trans (if_neg (by simp [Store.real]))
        | outer position => exact absurd (Scope.mem_of_slot? hslot) hfinds.1
        | global => exact absurd (Scope.mem_of_slot? hslot) hfinds.1

/-- A variable and a function, and a list of both. -/
def defining : String :=
  "var n = 1; fn f() n; [n, f]"

def Outcome.isRunning : Outcome → Bool
  | .running _ => true
  | _ => false

theorem Outcome.eq_running {o : Outcome} (h : o.isRunning = true) : o = .running o.machine := by
  cases o with
  | running m => rfl
  | _ => cases h

/-- What the text compiles to. -/
def Prototype.ofText (source : String) : Prototype :=
  (compile source).toOption.getD default

theorem compile_eq_ofText {source : String} (h : (compile source).isOk = true) :
    compile source = .ok (.ofText source) := by
  unfold Prototype.ofText
  cases hcompile : compile source with
  | ok p => rfl
  | error e =>
    rw [hcompile] at h
    cases h

/-- A call of the outermost function of the text with one variable, at the instruction at `k`. -/
def Machine.inText (source : String) (stack : List Value) (k : Nat) : Machine :=
  ⟨{ Store.empty with activations := #[#[.null]] },
    [⟨⟨.ofText source, #[]⟩, none, 0, stack, k, [], none⟩], none, 1, 8⟩

/-- Both the variable and the function are read by their names in the list. -/
theorem definition_visible_defining :
    ∃ p, compile defining = .ok p ∧
      (∃ m m' f g v st, f.prototype = p ∧ Machine.At m f [] 1 ∧ m.step noHost = .running m' ∧
        m'.frames = [g] ∧ g.stack = v :: st ∧ g.Reads noHost m'.store 6 v) ∧
      ∃ m m₁ m₂ f g v st u, f.prototype = p ∧ Machine.At m f [] 3 ∧ m.step noHost = .running m₁ ∧
        m₁.step noHost = .running m₂ ∧ m₂.frames = [g] ∧ g.stack = v :: st ∧
          g.Reads noHost m₂.store 7 u ∧
        m₂.store.deref u = .ok v := by
  have hp : compile defining = .ok (.ofText defining) := compile_eq_ofText (by decide +kernel)
  obtain ⟨hinit, hdefine⟩ := definition_visible noHost hp
  refine ⟨_, hp, ?_, ?_⟩
  · have hentry : (Chart.ofProgram (readProgram defining).items).entries[1]? =
        some ⟨[⟨0, ["n"]⟩], .init "n"⟩ := by
      decide +kernel
    have hload : (Chart.ofProgram (readProgram defining).items).entries[6]? =
        some ⟨[⟨0, ["n"]⟩], .access .load "n"⟩ := by
      decide +kernel
    have hstep :=
      Outcome.eq_running (o := (Machine.inText defining [.int 1] 1).step noHost) (by decide +kernel)
    obtain ⟨g, v, st, hframes, -, hstack, hreads⟩ :=
      hinit .self hentry hload (List.prefix_refl _) rfl ⟨rfl, rfl, rfl⟩ hstep
    exact ⟨_, _, _, g, v, st, rfl, ⟨rfl, rfl, rfl⟩, hstep, hframes, hstack, hreads⟩
  · have hcreate : (Chart.ofProgram (readProgram defining).items).entries[3]? =
        some ⟨[⟨0, ["n"]⟩], .create [0]⟩ := by
      decide +kernel
    have hentry : (Chart.ofProgram (readProgram defining).items).entries[4]? =
        some ⟨[⟨0, ["n"]⟩], .define "f"⟩ := by
      decide +kernel
    have hload : (Chart.ofProgram (readProgram defining).items).entries[7]? =
        some ⟨[⟨0, ["n"]⟩], .access .load "f"⟩ := by
      decide +kernel
    have hstep :=
      Outcome.eq_running (o := (Machine.inText defining [] 3).step noHost) (by decide +kernel)
    have hstep' :=
      Outcome.eq_running (o := ((Machine.inText defining [] 3).step noHost).machine.step noHost)
      (by decide +kernel)
    have hglobal :
        (((Machine.inText defining [] 3).step noHost).machine.store.globals.get? "f").isNone =
        true := by
      decide +kernel
    obtain ⟨g, v, st, hframes, -, hstack, hvisible, -⟩ :=
      hdefine hcreate hentry hload rfl ⟨rfl, rfl, rfl⟩ hstep hstep'
    have hexists : ∀ l, Store.Redirects ((Machine.inText defining [] 3).step noHost).machine.store
      (.global "f") l → Store.Exists ((Machine.inText defining [] 3).step noHost).machine.store
          (Store.real ((Machine.inText defining [] 3).step noHost).machine.store l) := by
      intro l hl
      cases hl with
      | here | method => trivial
      | through _ href =>
        have href : Table.get? _ "f" = some _ := href
        rw [href] at hglobal
        cases hglobal
    obtain ⟨u, hreads, hderef, -⟩ := hvisible (by decide) hexists
    exact ⟨_, _, _, _, g, v, st, u, rfl, ⟨rfl, rfl, rfl⟩, hstep, hstep', hframes, hstack,
      hreads, hderef⟩

/-- The integer that a run has given. -/
def Outcome.integer? : Outcome → Option Int64
  | .returned (.num (.int i)) _ => some i
  | _ => none

theorem Outcome.eq_returned {o : Outcome} {i : Int64} (h : o.integer? = some i) :
    ∃ m, o = .returned (.int i) m := by
  unfold integer? at h
  split at h
  · cases h
    exact ⟨_, rfl⟩
  · cases h

/-- A function of the name of a variable. -/
def shadowed : String :=
  "var f = 1; fn f() 2; f"

/-- The function is defined where the name is read, but the program gives the variable. -/
theorem definition_hidden_shadowed :
    let C := Chart.ofProgram (readProgram shadowed).items
    (∃ S, C.entries[4]? = some ⟨S, .define "f"⟩ ∧ C.entries[6]? = some ⟨S, .access .load "f"⟩) ∧
      ∃ p, compile shadowed = .ok p ∧ ∃ m, Machine.run noHost 20
        ((⟨.empty, [], none, 0, 8⟩ : Machine).runPrototype p []).machine =
          .returned (.int 1) m := by
  refine ⟨⟨[⟨0, ["f"]⟩], by decide +kernel, by decide +kernel⟩, _,
    compile_eq_ofText (by decide +kernel), ?_⟩
  exact Outcome.eq_returned (by decide +kernel)

end Refscript
