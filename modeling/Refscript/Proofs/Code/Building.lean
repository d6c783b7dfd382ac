import Refscript.Code.Lower
import Refscript.Proofs.Code.Segment

/-!
# Refscript.Proofs.Code.Building

How builders grow. While a function is built, code is only added at its end; what is behind is
changed only where a jump is given its target or a reserved table is filled, and that is done by the
construct that emitted the jump or reserved the table.

* `Builder.Keeps b b'`: `b'` comes after `b`, and nothing of `b` has changed.
* `Builder.Finishes holes lo b P`: the finished function `P` has what `b` has from `lo` on, but for
  instructions that are still to be patched. Facts about a piece of code are stated of the finished
  function, so they need no upkeep while the rest is built.
* `Builder.Sound`: what holds of a builder between constructs.
-/

namespace Refscript

namespace Prototype

/-- The function is built from instructions that keep all bits of their operands when they are
packed. -/
def PackedFrom (P : Prototype) (b : Builder) : Prop :=
  P = b.build ∧ ∀ i ∈ b.code.toList, i.fits = true

/-- The function is what lowering the body of a function gave, and its instructions kept all bits of
their operands. -/
def Packed (P : Prototype) : Prop :=
  ∃ (name : Option String) (pos : Position) (params : List String) (variadic : Bool) (body : Node)
    (s t : Lower.State),
    (do Lower.enter name pos params variadic; Lower.node body : Lower.LowerM Unit) s = .ok () t ∧
      P.PackedFrom t.builder

/-- All functions inside are packed, at any depth. -/
inductive PackedInside : Prototype → Prop where
  | intro {P : Prototype} : (∀ q ∈ P.nested, q.Packed) → (∀ q ∈ P.nested, PackedInside q) →
      PackedInside P

/-- A function that passes the check, whose operands all denote something, and that has only packed
functions inside. -/
structure Good (P : Prototype) : Prop where
  heights : P.checkHeights = .ok ()
  operands : P.WellFormed
  packed : P.PackedInside

end Prototype

/-- No function was reported as too large. -/
def SizesFit (ds : List Diagnostic) : Prop :=
  ∀ d ∈ ds, ∀ name, d.problem ≠ .tooLarge name

theorem SizesFit.of_prefix {ds ds' : List Diagnostic} (h : ds <+: ds') (hf : SizesFit ds') :
    SizesFit ds :=
  fun d hd => hf d (h.subset hd)

namespace Builder

/-- How far code and jump tables have been built. -/
structure Mark where
  code : Nat
  tables : Nat

def mark (b : Builder) : Mark := ⟨b.code.size, b.tables.length⟩

/-- The number of parameters, and whether there may be more arguments. -/
def signature (b : Builder) : Nat × Bool := (b.params, b.variadic)

/-- All that names depend on: parameters, names in scope, captured variables and the functions
inside. -/
def bindings (b : Builder) :
    (Nat × Bool) × List LocalInfo × List Nat × List OuterInfo × List Prototype :=
  (b.signature, b.active, b.scopes, b.outers, b.nested)

structure Keeps (b b' : Builder) : Prop where
  size : b.code.size ≤ b'.code.size
  code : ∀ k, k < b.code.size → b'.code[k]? = b.code[k]?
  length : b.tables.length ≤ b'.tables.length
  tables : ∀ k, k < b.tables.length → b'.tables[k]? = b.tables[k]?
  constants : b.constants.toList <+: b'.constants.toList
  nested : b.nested <+: b'.nested
  types : b.types <+: b'.types
  outers : b.outers <+: b'.outers
  maxHeight : b.maxHeight ≤ b'.maxHeight
  maxLocals : b.maxLocals ≤ b'.maxLocals

/-- The finished function `P` has what `b` has from `lo` on, but for the instructions at `holes`. -/
structure Finishes (holes : List Nat) (lo : Mark) (b : Builder) (P : Prototype) : Prop where
  code : ∀ k i, lo.code ≤ k → k ∉ holes → b.code[k]? = some i → P.Carries k i
  tables : ∀ k, lo.tables ≤ k → k < b.tables.length → P.tables[k]? = b.tables[k]?
  constants : b.constants.toList <+: P.constants.toList
  nested : b.nested <+: P.nested
  types : b.types <+: P.types
  outers : b.outers <+: P.outers
  maxHeight : b.maxHeight ≤ P.maxStack
  maxLocals : b.maxLocals ≤ P.maxLocals

namespace Keeps

variable {b c d : Builder}

theorem refl (b : Builder) : Keeps b b :=
  ⟨Nat.le_refl _, fun _ _ => rfl, Nat.le_refl _, fun _ _ => rfl, List.prefix_refl _,
    List.prefix_refl _, List.prefix_refl _, List.prefix_refl _, Nat.le_refl _, Nat.le_refl _⟩

theorem trans (h₁ : Keeps b c) (h₂ : Keeps c d) : Keeps b d := by
  refine ⟨Nat.le_trans h₁.size h₂.size, ?_, Nat.le_trans h₁.length h₂.length, ?_,
    h₁.constants.trans h₂.constants,
    h₁.nested.trans h₂.nested, h₁.types.trans h₂.types, h₁.outers.trans h₂.outers,
    Nat.le_trans h₁.maxHeight h₂.maxHeight, Nat.le_trans h₁.maxLocals h₂.maxLocals⟩
  · intro k hk
    rw [h₂.code k (Nat.lt_of_lt_of_le hk h₁.size), h₁.code k hk]
  · intro k hk
    rw [h₂.tables k (Nat.lt_of_lt_of_le hk h₁.length), h₁.tables k hk]

end Keeps

namespace Finishes

variable {holes : List Nat} {lo lo' : Mark} {b c : Builder} {P : Prototype}

theorem of_keeps (hk : Keeps b c) (h : Finishes holes lo c P) : Finishes holes lo b P := by
  refine ⟨fun k i hlo hhole hi => ?_, fun k hlo hlt => ?_, hk.constants.trans h.constants,
    hk.nested.trans h.nested,
    hk.types.trans h.types, hk.outers.trans h.outers, Nat.le_trans hk.maxHeight h.maxHeight,
    Nat.le_trans hk.maxLocals h.maxLocals⟩
  · obtain ⟨hlt, _⟩ := Array.getElem?_eq_some_iff.1 hi
    exact h.code k i hlo hhole (by rw [hk.code k hlt, hi])
  · rw [h.tables k hlo (Nat.lt_of_lt_of_le hlt hk.length), hk.tables k hlt]

theorem mono (h : Finishes holes lo b P) (hc : lo.code ≤ lo'.code) (ht : lo.tables ≤ lo'.tables) :
    Finishes holes lo' b P :=
  { h with
    code := fun k i hlo hhole hi => h.code k i (Nat.le_trans hc hlo) hhole hi
    tables := fun k hlo hlt => h.tables k (Nat.le_trans ht hlo) hlt }

theorem after (h : Finishes holes b.mark c P) {d : Builder} (hb : Keeps b d) :
    Finishes holes d.mark c P :=
  h.mono hb.size hb.length

theorem fill {holes' : List Nat} (h : Finishes holes lo b P)
    (hholes : ∀ k ∈ holes, k ∉ holes' → k < lo.code ∨ b.code.size ≤ k) :
    Finishes holes' lo b P := by
  refine { h with code := fun k i hlo hhole hi => h.code k i hlo (fun hk => ?_) hi }
  obtain ⟨hlt, _⟩ := Array.getElem?_eq_some_iff.1 hi
  rcases hholes k hk hhole with hout | hout
  · omega
  · omega

end Finishes

theorem keeps_setHeight (b : Builder) (height : Nat) : Keeps b (b.setHeight height) :=
  { Keeps.refl b with maxHeight := Nat.le_max_left _ _ }

/-- The builder after an instruction that takes `popped` values and leaves `pushed`. -/
def emitted (b : Builder) (popped pushed : Nat) (i : Insn) : Builder :=
  ({ b with height := b.height - popped }.grow pushed).push i

theorem keeps_emitted (b : Builder) (popped pushed : Nat) (i : Insn) :
    Keeps b (b.emitted popped pushed i) := by
  refine ⟨?_, ?_, Nat.le_refl _, fun _ _ => rfl, List.prefix_refl _, List.prefix_refl _,
    List.prefix_refl _, List.prefix_refl _, Nat.le_max_left _ _, Nat.le_refl _⟩
  · simp [emitted, push, grow, setHeight]
  · intro k hk
    simp only [emitted, push, grow, setHeight, Array.getElem?_push]
    rw [if_neg (by omega)]

theorem getElem?_emitted (b : Builder) (popped pushed : Nat) (i : Insn) :
    (b.emitted popped pushed i).code[b.position]? = some i := by
  simp [emitted, push, grow, setHeight, position]

theorem position_emitted (b : Builder) (popped pushed : Nat) (i : Insn) :
    (b.emitted popped pushed i).position = b.position + 1 := by
  simp [emitted, push, grow, setHeight, position]

theorem size_patch (b : Builder) (site target : Nat) :
    (b.patch site target).code.size = b.code.size := by
  unfold patch
  split
  · simp
  · rfl

theorem getElem?_patch (b : Builder) (site target k : Nat) : (b.patch site target).code[k]? =
    if k = site then b.code[k]?.map fun i => { i with a := target } else b.code[k]? := by
  unfold patch
  split
  · rename_i i hi
    obtain ⟨hlt, _⟩ := Array.getElem?_eq_some_iff.1 hi
    split
    · rename_i hk
      subst hk
      simp only [Array.getElem?_setIfInBounds_self_of_lt hlt, hi, Option.map_some]
    · rename_i hk
      exact Array.getElem?_setIfInBounds_ne (Ne.symm hk)
  · rename_i hnone
    split
    · rename_i hk
      subst hk
      simp [hnone]
    · rfl

theorem patch_eq (b : Builder) (site target : Nat) :
    b.patch site target = { b with
      code := (b.patch site target).code
      oversized := (b.patch site target).oversized } := by
  unfold patch
  split <;> rfl

section

variable (b : Builder) (site target : Nat)

@[simp] theorem patch_height : (b.patch site target).height = b.height := by rw [patch_eq]

@[simp] theorem patch_bindings :
    (b.patch site target).bindings = b.bindings := by rw [patch_eq]; rfl

@[simp] theorem patch_scopes : (b.patch site target).scopes = b.scopes := by rw [patch_eq]

@[simp] theorem patch_tables : (b.patch site target).tables = b.tables := by rw [patch_eq]

@[simp] theorem patch_outers : (b.patch site target).outers = b.outers := by rw [patch_eq]

@[simp] theorem patch_position :
    (b.patch site target).position = b.position := b.size_patch site target

end

theorem keeps_patch {b c : Builder} {site : Nat} (target : Nat) (h : Keeps b c)
    (hsite : b.code.size ≤ site) : Keeps b (c.patch site target) := by
  have hcode : ∀ k, k < b.code.size → (c.patch site target).code[k]? = b.code[k]? := by
    intro k hk
    rw [getElem?_patch, if_neg (by omega), h.code k hk]
  rw [patch_eq]
  exact ⟨by rw [size_patch]; exact h.size, hcode, h.length, h.tables, h.constants, h.nested,
    h.types, h.outers, h.maxHeight, h.maxLocals⟩

/-- A jump that has been given its target, and what is around it. -/
theorem Finishes.patch {holes : List Nat} {lo : Mark} {b : Builder} {P : Prototype}
    {site target : Nat} (h : Finishes holes lo (b.patch site target) P) :
    Finishes (site :: holes) lo b P := by
  have hcode := h.code
  rw [patch_eq] at h
  refine ⟨fun k i hlo hhole hi => hcode k i hlo (fun hk => hhole (List.mem_cons_of_mem _ hk)) ?_,
    h.tables, h.constants, h.nested, h.types, h.outers, h.maxHeight, h.maxLocals⟩
  have hk : k ≠ site := fun hk => hhole (by rw [hk]; exact List.mem_cons_self)
  rw [getElem?_patch, if_neg hk, hi]

theorem Finishes.patched {holes : List Nat} {lo : Mark} {b : Builder} {P : Prototype}
    {site target : Nat} {i : Insn} (h : Finishes holes lo (b.patch site target) P)
    (hlo : lo.code ≤ site) (hhole : site ∉ holes) (hi : b.code[site]? = some i) :
    P.Carries site { i with a := target } :=
  h.code site _ hlo hhole (by rw [getElem?_patch, if_pos rfl, hi, Option.map_some])

theorem keeps_fillTable {b c : Builder} {index : Nat} (t : JumpTable) (h : Keeps b c)
    (hindex : b.tables.length ≤ index) : Keeps b (c.fillTable index t) := by
  refine { h with length := ?_, tables := ?_ }
  · rw [fillTable, List.length_set]
    exact h.length
  · intro k hk
    rw [fillTable, List.getElem?_set_ne (by omega), h.tables k hk]

theorem keeps_addConstant (b : Builder) (c : Constant) : Keeps b (b.addConstant c).2 := by
  unfold addConstant
  split
  · exact .refl b
  · refine { Keeps.refl b with constants := ?_ }
    simp

theorem getElem?_addConstant (b : Builder) (c : Constant) :
    (b.addConstant c).2.constants[(b.addConstant c).1]? = some c := by
  unfold addConstant
  split
  · rename_i i hi
    obtain ⟨hlt, heq, _⟩ := Array.findIdx?_eq_some_iff_getElem.1 hi
    rw [Array.getElem?_eq_getElem hlt]
    exact congrArg some (eq_of_beq heq)
  · simp

theorem addConstant_eq (b : Builder) (c : Constant) :
    (b.addConstant c).2 = { b with constants := (b.addConstant c).2.constants } := by
  unfold addConstant
  split <;> rfl

section

variable (b : Builder) (c : Constant)

@[simp] theorem addConstant_height : (b.addConstant c).2.height = b.height := by rw [addConstant_eq]

@[simp] theorem addConstant_bindings :
    (b.addConstant c).2.bindings = b.bindings := by rw [addConstant_eq]; rfl

@[simp] theorem addConstant_scopes : (b.addConstant c).2.scopes = b.scopes := by rw [addConstant_eq]

@[simp] theorem addConstant_tables : (b.addConstant c).2.tables = b.tables := by rw [addConstant_eq]

@[simp] theorem addConstant_outers : (b.addConstant c).2.outers = b.outers := by rw [addConstant_eq]

@[simp] theorem addConstant_position : (b.addConstant c).2.position = b.position := by
  rw [addConstant_eq]
  rfl

end

theorem Finishes.getElem?_constants {holes : List Nat} {lo : Mark} {b : Builder} {P : Prototype}
    {i : Nat} {c : Constant} (h : Finishes holes lo b P) (hc : b.constants[i]? = some c) :
    P.constants[i]? = some c := by
  rw [← Array.getElem?_toList] at hc ⊢
  obtain ⟨hlt, heq⟩ := List.getElem?_eq_some_iff.1 hc
  rw [List.prefix_iff_getElem?.1 h.constants i hlt, heq]

/-- The function being built has the variable that a function inside it captures. -/
def Provides (b : Builder) (o : OuterInfo) : Prop :=
  match o.kind with
  | .localInParent => o.position < b.maxLocals
  | .outerInParent => o.position < b.outers.length

theorem Provides.mono {b c : Builder} {o : OuterInfo} (h : b.Provides o)
    (hl : b.maxLocals ≤ c.maxLocals) (ho : b.outers.length ≤ c.outers.length) : c.Provides o := by
  obtain ⟨name, position, kind⟩ := o
  cases kind with
  | localInParent => exact Nat.lt_of_lt_of_le h hl
  | outerInParent => exact Nat.lt_of_lt_of_le h ho

/-- What holds of a builder between constructs, after the diagnostics `ds`. -/
structure Sound (ds : List Diagnostic) (b : Builder) : Prop where
  height : b.height ≤ b.maxHeight
  fits : b.oversized = false → ∀ (k : Nat) (i : Insn), b.code[k]? = some i → i.fits = true
  slots : ∀ l ∈ b.active, l.slot < b.maxLocals
  active : b.active.length ≤ b.maxLocals
  members : ∀ t ∈ b.types, ∀ k ∈ t.members, k < b.nested.length
  captures : ∀ p ∈ b.nested, ∀ o ∈ p.outers, b.Provides o
  nested : SizesFit ds → ∀ p ∈ b.nested, p.Good ∧ p.Packed

namespace Sound

variable {ds ds' : List Diagnostic} {b : Builder}

theorem new (ds : List Diagnostic) (name : Option String) : Sound ds (.new name) := by
  refine ⟨Nat.le_refl _, ?_, ?_, Nat.le_refl _, ?_, ?_, ?_⟩
  · intro _ k i hi
    simp [Builder.new] at hi
  · intro l hl
    cases hl
  · intro t ht
    cases ht
  · intro p hp
    cases hp
  · intro _ p hp
    cases hp

theorem report (h : Sound ds b) (hds : ds <+: ds') : Sound ds' b :=
  { h with nested := fun hf => h.nested (hf.of_prefix hds) }

theorem setHeight (h : Sound ds b) (height : Nat) : Sound ds (b.setHeight height) :=
  { h with height := Nat.le_max_right _ _ }

theorem emitted (h : Sound ds b) (popped pushed : Nat) (i : Insn) :
    Sound ds (b.emitted popped pushed i) := by
  refine { h with height := Nat.le_max_right _ _, fits := ?_ }
  intro hover k i' hi
  simp only [Builder.emitted, push, grow, Builder.setHeight, Bool.or_eq_false_iff,
    Bool.not_eq_false'] at hover
  simp only [Builder.emitted, push, grow, Builder.setHeight, Array.getElem?_push] at hi
  split at hi
  · cases hi
    exact hover.2
  · exact h.fits hover.1 k i' hi

theorem patch (h : Sound ds b) (site target : Nat) : Sound ds (b.patch site target) := by
  have hfits : (b.patch site target).oversized = false →
      ∀ (k : Nat) (i : Insn), (b.patch site target).code[k]? = some i → i.fits = true := by
    intro hover k i hi
    rw [getElem?_patch] at hi
    unfold Builder.patch at hover
    split at hover
    · rename_i i' hi'
      simp only [Bool.or_eq_false_iff, Bool.not_eq_false'] at hover
      split at hi
      · rename_i hk
        subst hk
        rw [hi'] at hi
        cases hi
        exact hover.2
      · exact h.fits hover.1 k i hi
    · rename_i hnone
      split at hi
      · rename_i hk
        subst hk
        rw [hnone] at hi
        cases hi
      · exact h.fits hover k i hi
  rw [patch_eq]
  exact { h with fits := hfits }

theorem addLocal (h : Sound ds b) {name : String} {slot : Nat} {c : Builder}
    (hadd : b.addLocal? name = some (slot, c)) :
    Sound ds c ∧ slot < c.maxLocals := by
  unfold addLocal? at hadd
  split at hadd
  · cases hadd
  · cases hadd
    have hmax : b.maxLocals ≤ max b.maxLocals (b.active.length + 1) := Nat.le_max_left _ _
    have hslot : b.active.length < max b.maxLocals (b.active.length + 1) := Nat.le_max_right _ _
    refine ⟨{ h with slots := ?_, active := ?_, captures := ?_ }, hslot⟩
    · intro l hl
      rcases List.mem_append.1 hl with hl | hl
      · exact Nat.lt_of_lt_of_le (h.slots l hl) hmax
      · rw [List.mem_singleton.1 hl]
        exact hslot
    · rw [List.length_append, List.length_singleton]
      exact hslot
    · intro p hp o ho
      exact (h.captures p hp o ho).mono hmax (Nat.le_refl _)

theorem take (h : Sound ds b) (n : Nat) : Sound ds { b with active := b.active.take n } := by
  refine { h with slots := fun l hl => h.slots l (List.mem_of_mem_take hl), active := ?_ }
  have := h.active
  simp only [List.length_take]
  omega

theorem addNested (h : Sound ds b) {p : Prototype} (hp : SizesFit ds → p.Good ∧ p.Packed)
    (ho : ∀ o ∈ p.outers, b.Provides o) :
    Sound ds (b.addNested p).2 := by
  refine { h with members := ?_, captures := ?_, nested := ?_ }
  · intro t ht k hk
    have := h.members t ht k hk
    simp only [Builder.addNested, List.length_append, List.length_singleton]
    omega
  · intro q hq o hqo
    rcases List.mem_append.1 hq with hq | hq
    · exact h.captures q hq o hqo
    · rw [List.mem_singleton.1 hq] at hqo
      exact ho o hqo
  · intro hf q hq
    rcases List.mem_append.1 hq with hq | hq
    · exact h.nested hf q hq
    · rw [List.mem_singleton.1 hq]
      exact hp hf

theorem addType (h : Sound ds b) {t : TypeInfo} (ht : ∀ k ∈ t.members, k < b.nested.length) :
    Sound ds { b with types := b.types ++ [t] } := by
  refine { h with members := ?_ }
  intro u hu k hk
  rcases List.mem_append.1 hu with hu | hu
  · exact h.members u hu k hk
  · rw [List.mem_singleton.1 hu] at hk
    exact ht k hk

theorem addConstant (h : Sound ds b) (c : Constant) : Sound ds (b.addConstant c).2 := by
  unfold Builder.addConstant
  split
  · exact h
  · exact { h with }

end Sound

/-- What capturing a variable does to a function around: it may gain captured variables itself, and
locals may be marked. -/
structure Widens (b c : Builder) : Prop where
  eq : c = { b with active := c.active, outers := c.outers }
  outers : b.outers <+: c.outers
  slots : c.active.map LocalInfo.slot = b.active.map LocalInfo.slot

namespace Widens

variable {b c d : Builder}

theorem refl (b : Builder) : Widens b b :=
  ⟨rfl, List.prefix_refl _, rfl⟩

theorem trans (h₁ : Widens b c) (h₂ : Widens c d) : Widens b d := by
  refine ⟨?_, h₁.outers.trans h₂.outers, h₂.slots.trans h₁.slots⟩
  have h := h₂.eq
  rw [h₁.eq] at h
  exact h

theorem keeps (h : Widens b c) : Keeps b c := by
  have houters := h.outers
  rw [h.eq] at houters ⊢
  exact { Keeps.refl b with outers := houters }

theorem sound {ds : List Diagnostic} (h : Widens b c) (hb : Sound ds b) : Sound ds c := by
  have houters := h.outers
  have hslots := h.slots
  rw [h.eq] at houters hslots ⊢
  have hlen := congrArg List.length hslots
  simp only [List.length_map] at hlen
  refine { hb with slots := ?_, active := ?_, captures := ?_ }
  · intro l hl
    have hmem : l.slot ∈ b.active.map LocalInfo.slot := by
      rw [← hslots]
      exact List.mem_map_of_mem hl
    obtain ⟨l', hl', heq⟩ := List.mem_map.1 hmem
    rw [← heq]
    exact hb.slots l' hl'
  · rw [hlen]
    exact hb.active
  · intro p hp o ho
    exact (hb.captures p hp o ho).mono (Nat.le_refl _) houters.length_le

end Widens

/-- Each of the functions around is widened. -/
def WidensAll : List Builder → List Builder → Prop
  | [], [] => True
  | b :: bs, c :: cs => b.Widens c ∧ WidensAll bs cs
  | _, _ => False

theorem WidensAll.refl (bs : List Builder) : WidensAll bs bs := by
  induction bs with
  | nil => exact trivial
  | cons b bs ih => exact ⟨.refl b, ih⟩

theorem WidensAll.trans {bs cs ds : List Builder} (h₁ : WidensAll bs cs) (h₂ : WidensAll cs ds) :
    WidensAll bs ds := by
  induction bs generalizing cs ds with
  | nil =>
    cases cs with
    | nil => exact h₂
    | cons c cs => exact h₁.elim
  | cons b bs ih =>
    cases cs with
    | nil => exact h₁.elim
    | cons c cs =>
      cases ds with
      | nil => exact h₂.elim
      | cons d ds => exact ⟨h₁.1.trans h₂.1, ih h₁.2 h₂.2⟩

/-- A function being built and those around it: each captures only what the next one has, and the
outermost one captures nothing. -/
def Linked (ds : List Diagnostic) : Builder → List Builder → Prop
  | b, [] => b.Sound ds ∧ b.outers = []
  | b, p :: ps => b.Sound ds ∧ (∀ o ∈ b.outers, p.Provides o) ∧ Linked ds p ps

namespace Linked

variable {ds ds' : List Diagnostic} {b c : Builder} {ps : List Builder}

theorem sound (h : Linked ds b ps) : b.Sound ds := by
  cases ps with
  | nil => exact h.1
  | cons p ps => exact h.1

theorem update (h : Linked ds b ps) (hs : c.Sound ds) (ho : c.outers = b.outers) :
    Linked ds c ps := by
  cases ps with
  | nil => exact ⟨hs, ho.trans h.2⟩
  | cons p ps =>
    refine ⟨hs, ?_, h.2.2⟩
    rw [ho]
    exact h.2.1

theorem report (h : Linked ds b ps) (hds : ds <+: ds') : Linked ds' b ps := by
  induction ps generalizing b with
  | nil => exact ⟨h.1.report hds, h.2⟩
  | cons p ps ih => exact ⟨h.1.report hds, h.2.1, ih h.2.2⟩

end Linked

theorem slot_of_localSlot? {b : Builder} {name : String} {slot : Nat}
    (h : b.localSlot? name = some slot) : ∃ l ∈ b.active, l.slot = slot := by
  unfold localSlot? at h
  obtain ⟨l, hl, hslot⟩ := Option.map_eq_some_iff.1 h
  exact ⟨l, List.mem_reverse.1 (List.mem_of_find?_eq_some hl), hslot⟩

theorem map_slot_markCapturedIn (slot : Nat) (ls : List LocalInfo) :
    (markCapturedIn slot ls).map LocalInfo.slot = ls.map LocalInfo.slot := by
  induction ls with
  | nil => rfl
  | cons l ls ih =>
    unfold markCapturedIn
    split
    · rfl
    · rw [List.map_cons, List.map_cons, ih]

theorem widens_markCaptured (b : Builder) (slot : Nat) : Widens b (b.markCaptured slot) :=
  ⟨rfl, List.prefix_refl _, map_slot_markCapturedIn slot b.active⟩

theorem widens_pushOuter (b : Builder) (name : String) (position : Nat) (kind : OuterKind) :
    Widens b (b.pushOuter name position kind).2 :=
  ⟨rfl, List.prefix_append _ _, rfl⟩

/-- Capturing a variable all the way in keeps every function linked to the next one. -/
theorem resolveOuter?_spec {ds : List Diagnostic} {name : String} {position : Nat} {b c : Builder}
    {ps qs : List Builder} (hlinked : Linked ds b ps)
    (h : resolveOuter? name b ps = some (position, c, qs)) :
    Linked ds c qs ∧ b.Widens c ∧ WidensAll ps qs ∧ position < c.outers.length ∧
      c.active = b.active := by
  induction ps generalizing b c qs position with
  | nil =>
    unfold resolveOuter? at h
    split at h
    · rename_i pos hpos
      cases h
      obtain ⟨hlt, _⟩ := List.findIdx?_eq_some_iff_getElem.1 hpos
      exact ⟨hlinked, .refl _, trivial, hlt, rfl⟩
    · cases h
  | cons p ps ih =>
    simp only [resolveOuter?] at h
    split at h
    · rename_i pos hpos
      cases h
      obtain ⟨hlt, _⟩ := List.findIdx?_eq_some_iff_getElem.1 hpos
      exact ⟨hlinked, .refl _, .refl _, hlt, rfl⟩
    · obtain ⟨hsound, houters, hparent⟩ := hlinked
      -- a new captured variable that the function around has
      have hpush : ∀ (p' : Builder) (kind : OuterKind) (at' : Nat), p.Widens p' →
        p'.Provides ⟨name, at', kind⟩ →
          (b.pushOuter name at' kind).2.Sound ds ∧ ∀ o ∈ (b.pushOuter name at' kind).2.outers,
            p'.Provides o := by
        intro p' kind at' hwiden hprovides
        refine ⟨(b.widens_pushOuter name at' kind).sound hsound, fun o ho => ?_⟩
        rcases List.mem_append.1 ho with ho | ho
        · have hkeeps := hwiden.keeps
          exact (houters o ho).mono hkeeps.maxLocals hkeeps.outers.length_le
        · rw [List.mem_singleton.1 ho]
          exact hprovides
      split at h
      · rename_i slot hslot
        cases h
        obtain ⟨l, hl, rfl⟩ := slot_of_localSlot? hslot
        have hwiden := p.widens_markCaptured l.slot
        obtain ⟨hs, ho⟩ := hpush _ .localInParent l.slot hwiden (hparent.sound.slots l hl)
        refine ⟨⟨hs, ho, hparent.update (hwiden.sound hparent.sound) rfl⟩, b.widens_pushOuter _ _ _,
          ⟨hwiden, .refl _⟩, ?_, rfl⟩
        simp [pushOuter]
      · split at h
        · cases h
        · rename_i outer p' ps' hrec
          cases h
          obtain ⟨hlinked', hwiden, hall, hlt, _⟩ := ih hparent hrec
          obtain ⟨hs, ho⟩ := hpush _ .outerInParent outer hwiden hlt
          refine ⟨⟨hs, ho, hlinked'⟩, b.widens_pushOuter _ _ _, ⟨hwiden, hall⟩, ?_, rfl⟩
          simp [pushOuter]

end Builder
end Refscript
