import Refscript.Proofs.Code.Compiled
import Refscript.Proofs.Machine.Run

/-!
# Refscript.Proofs.Machine.Operands

Programs that compile without errors never make the machine meet an operand that denotes nothing
(`compiled_never_invalid`).

The static half is `Prototype.WellFormed`, which holds of all compiled functions. The dynamic half
is that a call has the slots and captures that the well-formedness of its function speaks of:
`Intact` gives the slots, and a function value is made with one cell for each variable that it
captures (`Closure.Compiled`).
-/

namespace Refscript

theorem Prototype.Inside.trans {p q r : Prototype} (h : p.Inside q) (h' : q.Inside r) :
    p.Inside r := by
  induction h' with
  | self => exact h
  | nested hmem _ ih => exact .nested hmem ih

/-- What a text compiles to is good and captures nothing, and it is packed from what its items are
lowered to. -/
theorem good_of_compile {source : String} {p : Prototype} (h : compile source = .ok p) :
    p.outers = [] ∧ p.Good ∧
      ∃ s, Lower.nodes (readProgram source).items .start = .ok () s ∧ p.PackedFrom s.builder := by
  obtain ⟨t, hmarks, hrun, hclean⟩ := lowered_of_compile h
  obtain ⟨p', t', hrun', houters, hgood⟩ := Lower.yields_program hmarks
  rw [hrun] at hrun'
  cases hrun'
  exact ⟨houters, hgood (sizesFit_of_errorCount hclean)⟩

/-- The function value is of a program that compiles without errors, with a cell for each variable
that it captures. -/
def Closure.Compiled (c : Closure) : Prop :=
  (∃ source p, compile source = .ok p ∧ c.prototype.Inside p) ∧
    c.captures.size = c.prototype.outers.length

theorem Closure.Compiled.wellFormed {c : Closure} (h : c.Compiled) : c.prototype.WellFormed := by
  obtain ⟨⟨source, p, hp, hin⟩, _⟩ := h
  exact ((good_of_compile hp).2.1.inside hin).operands

theorem hereditary_compiled : Hereditary Closure.Compiled := by
  rintro c ⟨⟨source, p, hp, hin⟩, _⟩ q hq cells hcells
  exact ⟨⟨source, p, hp, Prototype.Inside.trans (.nested hq .self) hin⟩, hcells⟩

namespace Frame

variable {f : Frame} {s : Store}

/-- Functions inside a well-formed one find their variables in every call of it. -/
theorem closureFits_of_provides (hcaptures : f.closure.captures.size = f.prototype.outers.length)
    (hprovides : ∀ q ∈ f.prototype.nested, ∀ o ∈ q.outers, f.prototype.Provides o) {k : Nat}
    (hk : k < f.prototype.nested.length) : f.ClosureFits k := by
  refine ⟨f.prototype.nested[k], List.getElem?_eq_getElem hk, fun o ho hkind => ?_⟩
  have h := hprovides _ (List.getElem_mem hk) o ho
  rw [Prototype.Provides, hkind] at h
  rw [hcaptures]
  exact h

/-- An operand that denotes something in a well-formed function denotes something in every call of
it. -/
theorem operandsFit_of_has (hwell : f.prototype.WellFormed)
    (hcaptures : f.closure.captures.size = f.prototype.outers.length)
    (hslots : (s.locals f.activation).size = f.prototype.slots) {k : Nat} {i : Insn}
    (hi : f.prototype.Has k i) : f.OperandsFit s i.pack i.op := by
  obtain ⟨⟨_, hfits⟩, hadmits⟩ := hi
  obtain ⟨op, a, b⟩ := i
  obtain ⟨_, htypes, htables, hprovides, _⟩ := hwell
  have hc : op.layout = .wide → (Insn.mk op a b).pack.c = a := fun hl => Insn.c_pack hl hfits
  have ha : op.layout = .split → (Insn.mk op a b).pack.a = a := fun hl => Insn.a_pack hl hfits
  have hb : op.layout = .split → (Insn.mk op a b).pack.b = b := fun hl => Insn.b_pack hl hfits
  have hlocals : f.prototype.maxLocals ≤ (s.locals f.activation).size := by
    rw [hslots]
    exact Nat.le_max_left _ _
  cases op with
  | loadLocal | storeLocal | initLocal =>
    simp only [OperandsFit, hc rfl]
    exact Nat.lt_of_lt_of_le hadmits hlocals
  | loadOuter | storeOuter =>
    simp only [OperandsFit, hc rfl, hcaptures]
    exact hadmits
  | loadGlobal | storeGlobal | loadField | storeField | prefixOp | infixOp | const =>
    simp only [OperandsFit, hc rfl]
    exact hadmits
  | invokeMethod =>
    simp only [OperandsFit, hb rfl]
    exact hadmits
  | closure =>
    simp only [OperandsFit, hc rfl]
    exact closureFits_of_provides hcaptures hprovides hadmits
  | makeType =>
    simp only [OperandsFit, hc rfl]
    refine ⟨f.prototype.types[a], List.getElem?_eq_getElem hadmits, fun k hk => ?_⟩
    exact closureFits_of_provides hcaptures hprovides (htypes _ (List.getElem_mem hadmits) k hk)
  | matchOn =>
    simp only [OperandsFit, hc rfl]
    exact ⟨f.prototype.tables[a], List.getElem?_eq_getElem hadmits,
      htables _ (List.getElem_mem hadmits)⟩
  | ref =>
    simp only [OperandsFit, ha rfl, hb rfl, NameFits, hcaptures]
    simp only [Prototype.Admits] at hadmits
    cases hkind : RefKind.ofNumber? a with
    | none => simp [hkind] at hadmits
    | some kind =>
      rw [hkind] at hadmits
      cases kind with
      | global | field | outer => exact hadmits
      | loc | index => exact trivial
  | _ => exact trivial

end Frame

/-- The instruction that a call has reached can be read, and its operands denote something in the
call. -/
theorem Intact.operandsFit {s : Store} {f : Frame} {rest : List Frame}
    (h : Intact Closure.Compiled s (f :: rest)) {w : Word} (hw : f.prototype.code[f.ip]? = some w) :
    ∃ op, w.op? = some op ∧ f.OperandsFit s w op := by
  rcases h.frames f List.mem_cons_self with hempty | hcompiled
  · -- the empty function has no instruction to execute
    rw [Frame.prototype, hempty] at hw
    cases hw
  · have hwell := hcompiled.wellFormed
    obtain ⟨hlt, _⟩ := Array.getElem?_eq_some_iff.1 hw
    obtain ⟨hcode, _⟩ := hwell
    obtain ⟨i, hi⟩ := hcode f.ip hlt
    have hword : f.prototype.code[f.ip]? = some i.pack := hi.word
    rw [hw] at hword
    cases hword
    exact ⟨i.op, i.op?_pack,
      Frame.operandsFit_of_has hcompiled.wellFormed hcompiled.2 (h.slots f List.mem_cons_self).2 hi⟩

theorem Outcome.intact_runPrototype {m : Machine} {source : String} {p : Prototype}
    (hp : compile source = .ok p) (hidle : m.frames = [])
    (h : ∀ c ∈ m.store.closures.toList, c.Compiled) (args : List Value) :
    (m.runPrototype p args).Intact Closure.Compiled := by
  have houters := (good_of_compile hp).1
  unfold Machine.runPrototype
  rw [houters]
  refine intact_idle hidle fun c hc => ?_
  simp only [Array.toList_push, List.mem_append, List.mem_singleton] at hc
  rcases hc with hc | rfl
  · exact h c hc
  · exact ⟨⟨source, p, hp, .self⟩, by rw [houters]; rfl⟩

/-- In a program that compiles without errors, all operands denote something and no packed word has
lost bits of them. Run among functions of such programs, it reaches only instructions whose operands
denote something in the call at hand, so no run of it meets an invalid instruction; and the
functions it leaves behind are again of such programs. The functions of the host are of the narrow
kind of `Host`. -/
theorem compiled_never_invalid (host : Host) (hhost : ∀ n, ¬host.Raises (.invalidInstruction n))
    {source : String} {p : Prototype} (hp : compile source = .ok p) :
    (∀ q : Prototype, q.Inside p → q.WellFormed) ∧
    (∃ s, Lower.nodes (readProgram source).items .start = .ok () s ∧ p.PackedFrom s.builder) ∧
      p.PackedInside ∧
    ∀ {m₀ : Machine}, m₀.frames = [] → (∀ c ∈ m₀.store.closures.toList, c.Compiled) →
      ∀ (args : List Value) {o : Outcome}, Outcome.Run host (m₀.runPrototype p args) o →
        (∀ c ∈ o.machine.store.closures.toList, c.Compiled) ∧
        (∀ f ∈ o.machine.frames, f.closure.captures.size = f.prototype.outers.length) ∧
        (∀ f rest w, o.machine.frames = f :: rest → f.prototype.code[f.ip]? = some w →
          ∃ op, w.op? = some op ∧ f.OperandsFit o.machine.store w op) ∧
        ∀ e m, o = .failed e m → ∀ n, e.fault ≠ .invalidInstruction n := by
  obtain ⟨_, hgood, hpacked⟩ := good_of_compile hp
  refine ⟨fun q hq => (hgood.inside hq).operands, hpacked, hgood.packed,
    fun hidle hclosures args o hr => ?_⟩
  have hstart := Outcome.intact_runPrototype hp hidle hclosures args
  have hintact := hr.intact hereditary_compiled hstart
  refine ⟨hintact.closures, fun f hf => ?_, fun f rest w hfs hw => ?_, ?_⟩
  · rcases hintact.frames f hf with hempty | hcompiled
    · rw [Frame.prototype, hempty]
      rfl
    · exact hcompiled.2
  · have h : Intact Closure.Compiled o.machine.store o.machine.frames := hintact
    rw [hfs] at h
    exact h.operandsFit hw
  · rintro e m rfl n hfault
    cases hr with
    | @move o _ hr hm =>
      obtain ⟨m', f, rest, w, rfl, _, hfs, hw, hblame⟩ :=
        hm.blames (by rw [hfault]; rfl) (by rw [hfault]; exact hhost n)
      have h : Intact Closure.Compiled m'.store m'.frames := hr.intact hereditary_compiled hstart
      rw [hfs] at h
      obtain ⟨op, hop, hfit⟩ := h.operandsFit hw
      rcases hblame with ⟨hnone, _⟩ | ⟨op', hop', hb⟩
      · rw [hop] at hnone
        cases hnone
      · rw [hop] at hop'
        cases hop'
        exact hb.invalid n hfault hfit

/-- A function that shares a variable of the block around it. -/
def sharing : String :=
  "{ var n = 0 fn(a) { n = n + a match a { 1: n, _: [n] } } }"

/-- The text compiles, and running it beside a function value of its own never meets an invalid
instruction. -/
theorem compiled_never_invalid_sharing :
    (∀ n, ¬noHost.Raises (.invalidInstruction n)) ∧ ∃ p, compile sharing = .ok p ∧
      (∃ q ∈ p.nested, q.outers ≠ []) ∧
      ∃ m₀ : Machine, m₀.frames = [] ∧ ⟨p, #[]⟩ ∈ m₀.store.closures.toList ∧
        (∀ c ∈ m₀.store.closures.toList, c.Compiled) ∧
        ∀ {e : RuntimeError} {m : Machine},
          Outcome.Run noHost (m₀.runPrototype p []) (.failed e m) →
          ∀ n, e.fault ≠ .invalidInstruction n := by
  have hhost : ∀ n, ¬noHost.Raises (.invalidInstruction n) := by
    rintro n ⟨_, _, _, _, h⟩
    cases h
  have hcompiles : (match compile sharing with
      | .ok p => p.nested.any (!·.outers.isEmpty)
      | .error _ => false) = true := by
    decide +kernel
  split at hcompiles
  · rename_i p hp
    obtain ⟨q, hq, houters⟩ := List.any_eq_true.1 hcompiles
    have hself : ∀ c ∈ [(⟨p, #[]⟩ : Closure)], c.Compiled := by
      intro c hc
      rw [List.mem_singleton.1 hc]
      exact ⟨⟨sharing, p, hp, .self⟩, by rw [(good_of_compile hp).1]; rfl⟩
    refine ⟨hhost, p, hp, ⟨q, hq, by simpa using houters⟩,
      ⟨{ Store.empty with closures := #[⟨p, #[]⟩] }, [], none, 0, 8⟩, rfl, List.mem_singleton.2 rfl,
      hself, fun {e m} hr => ?_⟩
    exact ((compiled_never_invalid noHost hhost hp).2.2.2 rfl hself [] hr).2.2.2 e m rfl
  · cases hcompiles

end Refscript
