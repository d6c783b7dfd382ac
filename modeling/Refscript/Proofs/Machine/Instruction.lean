import Refscript.Code.StackCheck
import Refscript.Machine.Exec
import Refscript.Proofs.Code.Operands
import Refscript.Proofs.Data.Table
import Refscript.Proofs.Store.Ensures

/-!
# Refscript.Proofs.Machine.Instruction

What executing one instruction can do, said once for all opcodes (`operation_ensures`). It goes
where the static check says it goes and with the height that the check computes (`Moves`); it raises
a fault of the machine's own only for a stack that is too short or for an operand that denotes
nothing (`Blames`); and it creates no functions but those inside the one that runs
(`Frame.MayCreate`).
-/

namespace Refscript

open Refscript.Action StackCheck

variable {index popped pushed slot : Nat} {places : List Nat} {added : List Closure} {c : CellId}
  {v : Value} {f g h : Frame} {op : Opcode} {s t : Store} {w : Word} {α : Type}

namespace Frame

/-- The functions that a call may create: those inside its own, with one capture for each variable
they name. -/
def MayCreate (f : Frame) (c : Closure) : Prop :=
  c.prototype ∈ f.prototype.nested ∧ c.captures.size = c.prototype.outers.length

/-- The two are the same call, maybe at different moments. -/
structure SameCall (f g : Frame) : Prop where
  closure : g.closure = f.closure
  activation : g.activation = f.activation
  this : g.this = f.this
  result : g.result = f.result

theorem SameCall.refl (f : Frame) : SameCall f f := ⟨rfl, rfl, rfl, rfl⟩

theorem SameCall.trans (h₁ : SameCall f g) (h₂ : SameCall g h) : SameCall f h :=
  ⟨h₂.closure.trans h₁.closure, h₂.activation.trans h₁.activation, h₂.this.trans h₁.this,
    h₂.result.trans h₁.result⟩

/-- The nested function at the place exists, and what it takes from the captures of the call is
there. -/
def ClosureFits (f : Frame) (index : Nat) : Prop :=
  ∃ p, f.prototype.nested[index]? = some p ∧
    ∀ o ∈ p.outers, o.kind = .outerInParent → o.position < f.closure.captures.size

def TypeFits (f : Frame) (index : Nat) : Prop :=
  ∃ t, f.prototype.types[index]? = some t ∧ ∀ k ∈ t.members, f.ClosureFits k

def NameFits (f : Frame) (index : Nat) : Prop :=
  (f.prototype.stringConstant? index).isSome

/-- Every operand of the instruction denotes something in the call. -/
def OperandsFit (f : Frame) (s : Store) (w : Word) : Opcode → Prop
  | .loadLocal | .storeLocal | .initLocal => w.c < (s.locals f.activation).size
  | .loadOuter | .storeOuter => w.c < f.closure.captures.size
  | .loadGlobal | .storeGlobal | .loadField | .storeField | .prefixOp | .infixOp => f.NameFits w.c
  | .invokeMethod => f.NameFits w.b
  | .const => w.c < f.prototype.constants.size
  | .closure => f.ClosureFits w.c
  | .makeType => f.TypeFits w.c
  | .matchOn => ∃ t, f.prototype.tables[w.c]? = some t ∧ t.HasDefault
  | .ref =>
    match RefKind.ofNumber? w.a with
    | some .global | some .field => f.NameFits w.b
    | some .outer => w.b < f.closure.captures.size
    | some _ => True
    | none => False
  | _ => True

end Frame

namespace Exec

variable {α : Type} {f : Frame} {s : Store} {E : Fault → Store → Prop}

theorem ensures_top {Q : Value → Store → Prop} :
    Ensures (Action.ofExcept f.top) s Q E ↔
      (∀ v rest, f.stack = v :: rest → Q v s) ∧ (f.stack = [] → E .stackUnderflow s) := by
  rw [ensures_ofExcept]
  unfold Frame.top
  cases f.stack <;> simp

theorem ensures_pop {Q : Value × Frame → Store → Prop} :
    Ensures (pop f) s Q E ↔
      (∀ v rest, f.stack = v :: rest → Q (v, { f with stack := rest }) s) ∧
        (f.stack = [] → E .stackUnderflow s) := by
  unfold pop
  rw [ensures_ofExcept]
  unfold Frame.pop
  cases f.stack <;> simp

theorem ensures_popPlain {Q : Value × Frame → Store → Prop} :
    Ensures (popPlain f) s Q E ↔
      (∀ v rest, f.stack = v :: rest →
        (∀ w, s.deref v = .ok w → Q (w, { f with stack := rest }) s) ∧ ∀ e,
        s.deref v = .error e → E e s) ∧
      (f.stack = [] → E .stackUnderflow s) := by
  unfold popPlain
  simp only [ensures_bind, ensures_pop, ensures_reading, ensures_pure]

theorem ensures_popN {n : Nat} {Q : List Value × Frame → Store → Prop} :
    Ensures (Action.ofExcept (f.popN n)) s Q E ↔
      (n ≤ f.stack.length → Q ((f.stack.take n).reverse, { f with stack := f.stack.drop n }) s) ∧
      (f.stack.length < n → E .stackUnderflow s) := by
  rw [ensures_ofExcept]
  unfold Frame.popN
  by_cases h : f.stack.length < n
  · simp [h, Nat.not_le.2 h]
  · simp [h, Nat.le_of_not_lt h]

theorem ensures_name {Q : String → Store → Prop} :
    Ensures (Action.ofExcept (f.name index)) s Q E ↔
      (∀ n, f.prototype.stringConstant? index = some n → Q n s) ∧
      (¬f.NameFits index → E (.invalidInstruction index) s) := by
  rw [ensures_ofExcept]
  unfold Frame.name Frame.NameFits
  cases f.prototype.stringConstant? index <;> simp

theorem ensures_outer {position : Nat} {Q : CellId → Store → Prop} :
    Ensures (Action.ofExcept (f.outer position)) s Q E ↔
      (∀ c, f.closure.captures[position]? = some c → Q c s) ∧
      (f.closure.captures.size ≤ position → E (.invalidInstruction position) s) := by
  rw [ensures_ofExcept]
  unfold Frame.outer
  cases h : f.closure.captures[position]? with
  | none => simp [Array.getElem?_eq_none_iff.1 h]
  | some c =>
    have := (Array.getElem?_eq_some_iff.1 h).1
    simp [Nat.not_le.2 this]

theorem ensures_localAt {Q : Value → Store → Prop} :
    Ensures (reading (f.localAt · slot)) s Q E ↔
      (∀ v, (s.locals f.activation)[slot]? = some v → Q v s) ∧
      ((s.locals f.activation).size ≤ slot → E (.invalidInstruction slot) s) := by
  rw [ensures_reading]
  unfold Frame.localAt
  cases h : (s.locals f.activation)[slot]? with
  | none => simp [Array.getElem?_eq_none_iff.1 h]
  | some v =>
    have := (Array.getElem?_eq_some_iff.1 h).1
    simp [Nat.not_le.2 this]

theorem ensures_tame {x : Action α} {Q : α → Store → Prop} (hx : Tame x)
    (hok : ∀ a t, s.Still t → Q a t) (herr : ∀ e t, e.isMachine = false → s.Still t → E e t) :
    Ensures x s Q E :=
  (hx s).imp hok fun e t h => herr e t h.1 h.2

end Exec

namespace Frame

/-- The cells of a call were made since `base` and are open on its slots, no two on one slot. -/
structure Neat (base : Nat) (f : Frame) (s : Store) : Prop where
  opened : ∀ c ∈ f.openCells, base ≤ c ∧ c < s.cells.size ∧ ∃ i, s.cell c = .opened f.activation i
  unique : ∀ c ∈ f.openCells, ∀ d ∈ f.openCells, s.cell c = s.cell d → c = d

theorem Neat.congr {base : Nat} (h : f.Neat base s) (hcells : g.openCells = f.openCells)
    (hact : g.activation = f.activation) (hsize : s.cells.size ≤ t.cells.size)
    (hold : ∀ c ∈ f.openCells, t.cell c = s.cell c) : g.Neat base t := by
  refine ⟨fun c hc => ?_, fun c hc d hd hcd => ?_⟩
  · rw [hcells] at hc
    rw [hact, hold c hc]
    obtain ⟨hge, hlt, hopen⟩ := h.opened c hc
    exact ⟨hge, Nat.lt_of_lt_of_le hlt hsize, hopen⟩
  · rw [hcells] at hc hd
    rw [hold c hc, hold d hd] at hcd
    exact h.unique c hc d hd hcd

/-- Cells are taken for slots of a call: those that are there stay as they are, and new ones stand
for its slots. -/
structure Takes (f g : Frame) (s t : Store) : Prop where
  activation : g.activation = f.activation
  activations : t.activations = s.activations
  size : s.cells.size ≤ t.cells.size
  old : ∀ c, c < s.cells.size → t.cell c = s.cell c
  fresh : ∀ c, s.cells.size ≤ c → c < t.cells.size → c ∈ g.openCells ∧ ∃ i,
    t.cell c = .opened f.activation i
  kept : ∀ c ∈ f.openCells, c ∈ g.openCells
  neat : ∀ base, base ≤ s.cells.size → f.Neat base s → g.Neat base t

theorem Takes.congr {f' g' : Frame} {t' : Store} (h : Takes f g s t)
    (hf : f'.openCells = f.openCells ∧ f'.activation = f.activation)
    (hg : g'.openCells = g.openCells ∧ g'.activation = g.activation)
    (ht : t'.cells = t.cells ∧ t'.activations = t.activations) : Takes f' g' s t' := by
  have hcell : ∀ c, t'.cell c = t.cell c := fun c => by rw [Store.cell, Store.cell, ht.1]
  have hsize : t'.cells.size = t.cells.size := congrArg Array.size ht.1
  refine ⟨hg.2.trans (h.activation.trans hf.2.symm), ht.2.trans h.activations, hsize ▸ h.size,
    fun c hc => ?_, fun c hge hlt => ?_, fun c hc => ?_, fun base hbase hneat => ?_⟩
  · rw [hcell, h.old c hc]
  · rw [hcell, hg.1, hf.2]
    exact h.fresh c hge (hsize ▸ hlt)
  · rw [hf.1] at hc
    rw [hg.1]
    exact h.kept c hc
  · have hf' : f.Neat base s := hneat.congr hf.1.symm hf.2.symm (Nat.le_refl _) fun _ _ => rfl
    exact (h.neat base hbase hf').congr hg.1 hg.2 (Nat.le_of_eq hsize.symm) fun c _ => hcell c

/-- Taking cells changes a call only in the cells that stand for its slots. -/
structure Capturing (f g : Frame) (s t : Store) : Prop extends SameCall f g, Takes f g s t where
  stack : g.stack = f.stack
  ip : g.ip = f.ip

namespace Capturing

variable {f g h : Frame} {s t u : Store}

theorem refl (f : Frame) (s : Store) : Capturing f f s s where
  toSameCall := .refl f
  activations := rfl
  size := Nat.le_refl _
  old _ _ := rfl
  fresh c hge hlt := by omega
  kept _ hc := hc
  neat _ _ hf := hf
  stack := rfl
  ip := rfl

theorem trans (h₁ : Capturing f g s t) (h₂ : Capturing g h t u) : Capturing f h s u where
  closure := h₂.closure.trans h₁.closure
  activation := h₂.activation.trans h₁.activation
  this := h₂.this.trans h₁.this
  result := h₂.result.trans h₁.result
  activations := h₂.activations.trans h₁.activations
  size := Nat.le_trans h₁.size h₂.size
  old c hc := (h₂.old c (Nat.lt_of_lt_of_le hc h₁.size)).trans (h₁.old c hc)
  fresh c hge hlt := by
    by_cases hc : c < t.cells.size
    · obtain ⟨hmem, i, hi⟩ := h₁.fresh c hge hc
      exact ⟨h₂.kept c hmem, i, (h₂.old c hc).trans hi⟩
    · obtain ⟨hmem, i, hi⟩ := h₂.fresh c (Nat.le_of_not_lt hc) hlt
      rw [h₁.activation] at hi
      exact ⟨hmem, i, hi⟩
  kept c hc := h₂.kept c (h₁.kept c hc)
  neat base hbase hf := h₂.neat base (Nat.le_trans hbase h₁.size) (h₁.neat base hbase hf)
  stack := h₂.stack.trans h₁.stack
  ip := h₂.ip.trans h₁.ip

theorem grows (h : Capturing f g s t) (hclosures : t.closures = s.closures) {new : Closure → Prop} :
    s.Grows new t :=
  .of_eq hclosures h.activations

theorem of_eq (f : Frame) (hcells : t.cells = s.cells) (hslots : t.activations = s.activations) :
    Capturing f f s t where
  toSameCall := .refl f
  activations := hslots
  size := Nat.le_of_eq (congrArg Array.size hcells).symm
  old c _ := by rw [Store.cell, Store.cell, hcells]
  fresh c hge hlt := by
    rw [hcells] at hlt
    omega
  kept _ hc := hc
  neat _ _ hf := hf.congr rfl rfl (Nat.le_of_eq (congrArg Array.size hcells).symm) fun c _ => by
    rw [Store.cell, Store.cell, hcells]
  stack := rfl
  ip := rfl

end Capturing

/-- The cell is the one for a captured variable: it stands for the slot in the call, or it is one of
the call's own captures. -/
def Gives (f : Frame) (s : Store) (o : OuterInfo) (c : CellId) : Prop :=
  match o.kind with
  | .localInParent => c ∈ f.openCells ∧ s.cell c = .opened f.activation o.position
  | .outerInParent => f.closure.captures[o.position]? = some c

theorem Gives.capturing {o : OuterInfo} (h : f.Gives s o c) (hf : f.Neat 0 s)
    (hg : Capturing f g s t) : g.Gives t o c := by
  unfold Gives at *
  split at h
  · obtain ⟨hmem, hcell⟩ := h
    obtain ⟨_, hlt, _⟩ := hf.opened c hmem
    rw [hg.old c hlt, hg.activation]
    exact ⟨hg.kept c hmem, hcell⟩
  · rw [hg.closure]
    exact h

theorem Neat.addCell {base : Nat} (h : f.Neat base s) (hbase : base ≤ s.cells.size)
    (hnew : ∀ c ∈ f.openCells, s.cell c ≠ .opened f.activation slot) :
    Neat base { f with openCells := f.openCells ++ [s.cells.size] }
      (s.addCell (.opened f.activation slot)).2 := by
  have hold : ∀ c ∈ f.openCells, (s.addCell (.opened f.activation slot)).2.cell c = s.cell c :=
    fun c hc =>
    (s.cell_addCell _ c).trans (if_neg (Nat.ne_of_lt (h.opened c hc).2.1))
  have hlast : (s.addCell (.opened f.activation slot)).2.cell s.cells.size =
    .opened f.activation slot :=
    (s.cell_addCell _ _).trans (if_pos rfl)
  have hsize : (s.addCell (.opened f.activation slot)).2.cells.size = s.cells.size + 1 :=
    Array.size_push _
  refine ⟨fun c hc => ?_, fun c hc d hd hcd => ?_⟩
  · rw [hsize]
    rcases List.mem_append.1 hc with hc | hc
    · obtain ⟨hge, hlt, hopen⟩ := h.opened c hc
      rw [hold c hc]
      exact ⟨hge, Nat.lt_succ_of_lt hlt, hopen⟩
    · obtain rfl := List.mem_singleton.1 hc
      exact ⟨hbase, Nat.lt_succ_self _, slot, hlast⟩
  · rcases List.mem_append.1 hc with hc | hc <;> rcases List.mem_append.1 hd with hd | hd
    · rw [hold c hc, hold d hd] at hcd
      exact h.unique c hc d hd hcd
    · obtain rfl := List.mem_singleton.1 hd
      rw [hold c hc, hlast] at hcd
      exact absurd hcd (hnew c hc)
    · obtain rfl := List.mem_singleton.1 hc
      rw [hold d hd, hlast] at hcd
      exact absurd hcd.symm (hnew d hd)
    · rw [List.mem_singleton.1 hc, List.mem_singleton.1 hd]

theorem standsFor_iff : f.standsFor s slot c = true ↔ s.cell c = .opened f.activation slot := by
  unfold standsFor
  cases s.cell c <;> simp

/-- A capture gives the cell that stands for the slot already, or else a new one. -/
theorem capture_cases (f : Frame) (slot : Nat) (s : Store) :
    (∃ c ∈ f.openCells, s.cell c = .opened f.activation slot ∧ f.capture slot s = .ok (c, f) s) ∨
      (∀ c ∈ f.openCells, s.cell c ≠ .opened f.activation slot) ∧
        f.capture slot s = .ok (s.cells.size, { f with openCells := f.openCells ++ [s.cells.size] })
          (s.addCell (.opened f.activation slot)).2 := by
  simp only [capture, bind, EStateM.bind, Action.look]
  cases hfind : f.openCells.find? (f.standsFor s slot) with
  | some c =>
    exact .inl ⟨c, List.mem_of_find?_eq_some hfind, standsFor_iff.1 (List.find?_some hfind), rfl⟩
  | none =>
    refine .inr ⟨fun c hc hcell => ?_, rfl⟩
    exact List.find?_eq_none.1 hfind c hc (standsFor_iff.2 hcell)

/-- What capturing a slot guarantees. Each new cell is the one that it gives. -/
structure Captured (f : Frame) (s : Store) (slot : Nat) (c : CellId) (g : Frame) (t : Store) : Prop
    extends Capturing f g s t where
  listed : c ∈ g.openCells
  stands : t.cell c = .opened f.activation slot
  closures : t.closures = s.closures
  covers : ∀ d, s.cells.size ≤ d → d < t.cells.size → d = c

theorem capture_ensures (f : Frame) (slot : Nat) (s : Store) :
    Ensures (f.capture slot) s (fun r t => f.Captured s slot r.1 r.2 t) fun _ _ => False := by
  unfold Ensures
  rcases f.capture_cases slot s with ⟨c, hmem, hcell, hrun⟩ | ⟨hnew, hrun⟩
  · rw [hrun]
    exact ⟨.refl f s, hmem, hcell, rfl, fun d hge hlt => absurd hlt (Nat.not_lt.2 hge)⟩
  · rw [hrun]
    have hlast : (s.addCell (.opened f.activation slot)).2.cell s.cells.size =
      .opened f.activation slot :=
      (s.cell_addCell _ _).trans (if_pos rfl)
    have hone : ∀ d, s.cells.size ≤ d → d < (s.addCell (.opened f.activation slot)).2.cells.size →
        d = s.cells.size := by
      intro d hge hlt
      rw [Store.addCell, Array.size_push] at hlt
      omega
    refine ⟨⟨⟨rfl, rfl, rfl, rfl⟩,
      rfl, by simp [Store.addCell], fun c hc => ?_, fun c hge hlt => ?_, fun c hc => ?_,
      fun base hbase hf => hf.addCell hbase hnew, rfl, rfl⟩, by simp, hlast, rfl, hone⟩
    · rw [Store.cell_addCell, if_neg (Nat.ne_of_lt hc)]
    · rw [hone c hge hlt]
      exact ⟨by simp, slot, hlast⟩
    · exact List.mem_append_left _ hc

/-- The captures that a new function takes from the captures of the call are there. -/
def Supplies (f : Frame) (os : List OuterInfo) : Prop :=
  ∀ o ∈ os, o.kind = .outerInParent → o.position < f.closure.captures.size

theorem Supplies.of_sameCall {os : List OuterInfo} (h : f.Supplies os) (hg : SameCall f g) :
    g.Supplies os := by
  unfold Supplies
  rw [hg.closure]
  exact h

/-- One cell for each variable. New cells are among them. -/
structure Supplied (f : Frame) (s : Store) (os : List OuterInfo) (cs : List CellId) (g : Frame)
    (t : Store) : Prop extends Capturing f g s t where
  length : cs.length = os.length
  gives : f.Neat 0 s → ∀ (i : Nat) (o : OuterInfo) (c : CellId), os[i]? = some o →
    cs[i]? = some c → g.Gives t o c
  closures : t.closures = s.closures
  covers : ∀ d, s.cells.size ≤ d → d < t.cells.size → d ∈ cs

theorem Supplied.cons {u : Store} {o : OuterInfo} {os : List OuterInfo} {cs : List CellId}
    (hg : Capturing f g s t) (hgives : g.Gives t o c) (hclosures : t.closures = s.closures)
    (hcovers : ∀ d, s.cells.size ≤ d → d < t.cells.size → d = c) (hrest : g.Supplied t os cs h u) :
    f.Supplied s (o :: os) (c :: cs) h u := by
  refine ⟨hg.trans hrest.toCapturing, by simp [hrest.length], fun hf i o' c' ho hc => ?_,
    hrest.closures.trans hclosures, fun d hge hlt => ?_⟩
  · have hneat := hg.neat 0 (Nat.zero_le _) hf
    cases i with
    | zero =>
      cases ho
      cases hc
      exact hgives.capturing hneat hrest.toCapturing
    | succ i => exact hrest.gives hneat i o' c' ho hc
  · by_cases hd : d < t.cells.size
    · rw [hcovers d hge hd]
      exact List.mem_cons_self
    · exact List.mem_cons_of_mem _ (hrest.covers d (Nat.le_of_not_lt hd) hlt)

theorem captures_ensures (os : List OuterInfo) (f : Frame) (s : Store) (h : f.Supplies os) :
    Ensures (f.captures os) s (fun r t => f.Supplied s os r.1 r.2 t) fun _ _ => False := by
  induction os generalizing f s with
  | nil => exact ⟨.refl f s, rfl, by simp, rfl, fun d hge hlt => absurd hlt (Nat.not_lt.2 hge)⟩
  | cons o rest ih =>
    obtain ⟨ho, hsupplies⟩ := List.forall_mem_cons.1 h
    -- once a cell `c` is found, the others follow with the call as it is then
    have hrest : ∀ (c : CellId) (g : Frame) (t : Store), Capturing f g s t → g.Gives t o c →
        t.closures = s.closures → (∀ d, s.cells.size ≤ d → d < t.cells.size → d = c) →
        Ensures (do let r ← g.captures rest; return (c :: r.1, r.2) : Action (List CellId × Frame))
          t (fun r u => f.Supplied s (o :: rest) r.1 r.2 u) fun _ _ => False := by
      intro c g t hg hgives ht hcovers
      simp only [ensures_bind, ensures_pure]
      refine (ih g t (Supplies.of_sameCall hsupplies hg.toSameCall)).imp ?_ fun _ _ h => h
      rintro ⟨cs, g'⟩ u hr
      exact .cons hg hgives ht hcovers hr
    unfold captures
    split
    · rename_i hkind
      rw [ensures_bind]
      refine (f.capture_ensures o.position s).imp ?_ fun _ _ h => h.elim
      rintro ⟨c, g⟩ t hc
      refine hrest c g t hc.toCapturing ?_ hc.closures hc.covers
      rw [Gives, hkind, hc.activation]
      exact ⟨hc.listed, hc.stands⟩
    · rename_i hkind
      rw [ensures_bind, ensures_ofExcept]
      obtain ⟨c, hc⟩ : ∃ c, f.closure.captures[o.position]? = some c :=
        ⟨_, Array.getElem?_eq_getElem (ho hkind)⟩
      simp only [outer, hc, Except.map, Except.ok.injEq, reduceCtorEq, false_implies,
        implies_true, and_true]
      rintro _ rfl
      refine hrest c f s (.refl f s) ?_ rfl fun d hge hlt => absurd hlt (Nat.not_lt.2 hge)
      rw [Gives, hkind]
      exact hc

/-- The functions `added` are made from the nested ones at the places, with the cells for their
variables. New cells are among these. -/
structure Makes (f : Frame) (places : List Nat) (added : List Closure) (g : Frame) (s t : Store) :
    Prop where
  closures : t.closures.toList = s.closures.toList ++ added
  prototypes : places.map (f.prototype.nested[·]?) = added.map fun c => some c.prototype
  sizes : ∀ c ∈ added, c.captures.size = c.prototype.outers.length
  gives : f.Neat 0 s → ∀ c ∈ added, ∀ (i : Nat) (o : OuterInfo) (d : CellId),
    c.prototype.outers[i]? = some o → c.captures[i]? = some d → g.Gives t o d
  covers : ∀ d, s.cells.size ≤ d → d < t.cells.size → ∃ c ∈ added, d ∈ c.captures.toList

theorem Makes.mayCreate (h : f.Makes places added g s t) : ∀ c ∈ added, f.MayCreate c := by
  intro c hc
  have hmem : some c.prototype ∈ places.map (f.prototype.nested[·]?) := by
    rw [h.prototypes]
    exact List.mem_map_of_mem hc
  obtain ⟨i, _, hi⟩ := List.mem_map.1 hmem
  exact ⟨List.mem_of_getElem? hi, h.sizes c hc⟩

theorem Makes.trans {u : Store} {places' : List Nat} {added' : List Closure}
    (h₁ : f.Makes places added g s t) (hg : Capturing f g s t) (h₂ : g.Makes places' added' h t u)
    (hh : Capturing g h t u) : f.Makes (places ++ places') (added ++ added') h s u := by
  have hneat : f.Neat 0 s → g.Neat 0 t := hg.neat 0 (Nat.zero_le _)
  refine ⟨?_, ?_, fun c hc => ?_, fun hf c hc i o d ho hd => ?_, fun d hge hlt => ?_⟩
  · rw [h₂.closures, h₁.closures, List.append_assoc]
  · have h₂p := h₂.prototypes
    rw [prototype, hg.closure] at h₂p
    rw [List.map_append, List.map_append, h₁.prototypes, ← h₂p]
    rfl
  · exact (List.mem_append.1 hc).elim (h₁.sizes c) (h₂.sizes c)
  · rcases List.mem_append.1 hc with hc | hc
    · exact (h₁.gives hf c hc i o d ho hd).capturing (hneat hf) hh
    · exact h₂.gives (hneat hf) c hc i o d ho hd
  · by_cases hd : d < t.cells.size
    · obtain ⟨c, hc, hmem⟩ := h₁.covers d hge hd
      exact ⟨c, List.mem_append_left _ hc, hmem⟩
    · obtain ⟨c, hc, hmem⟩ := h₂.covers d (Nat.le_of_not_lt hd) hlt
      exact ⟨c, List.mem_append_right _ hc, hmem⟩

theorem Makes.grows (h : f.Makes places added g s t) (hg : Takes f g s t) :
    s.Grows f.MayCreate t := by
  refine ⟨⟨added, h.closures, h.mayCreate⟩, fun a ha => ?_⟩
  simp only [Store.locals, hg.activations]
  exact ⟨ha, trivial⟩

/-- What creating the functions at the places guarantees: a call that is the same up to its open
cells. -/
def Creates {α : Type} (f : Frame) (s : Store) (places : List Nat) (x : Action (α × Frame)) :
    Prop :=
  Ensures x s (fun r t => Capturing f r.2 s t ∧ ∃ added, f.Makes places added r.2 s t) fun _ _ =>
    False

theorem ClosureFits.of_sameCall (h : SameCall f g) {k : Nat} (hk : f.ClosureFits k) :
    g.ClosureFits k := by
  unfold ClosureFits prototype at *
  rw [h.closure]
  exact hk

theorem Creates.bind {β : Type} {places' : List Nat} {x : Action (α × Frame)}
    {k : α × Frame → Action (β × Frame)} (hx : Creates f s places x)
    (hk : ∀ a g t, Capturing f g s t → Creates g t places' (k (a, g))) :
    Creates f s (places ++ places') (x >>= k) := by
  unfold Creates
  rw [ensures_bind]
  refine Ensures.imp hx ?_ fun _ _ h => h
  rintro ⟨a, g⟩ t ⟨hg, added, hmade⟩
  refine (hk a g t hg).imp ?_ fun _ _ h => h
  rintro ⟨b, g'⟩ u ⟨hg', added', hmade'⟩
  exact ⟨hg.trans hg', added ++ added', hmade.trans hg hmade' hg'⟩

theorem Makes.none (f : Frame) (hclosures : t.closures = s.closures) (hcells : t.cells = s.cells) :
    f.Makes [] [] f s t := by
  refine ⟨by rw [hclosures, List.append_nil], rfl, by simp, by simp, fun d hge hlt => ?_⟩
  rw [hcells] at hlt
  exact absurd hlt (Nat.not_lt.2 hge)

theorem Creates.pure (f : Frame) (s : Store) (a : α) : Creates f s [] (Pure.pure (a, f)) :=
  ⟨.refl f s, [], .none f rfl rfl⟩

theorem Creates.map {β : Type} {x : Action (α × Frame)} (k : α → β) (hx : Creates f s places x) :
    Creates f s places (do let (a, g) ← x; return (k a, g)) := by
  rw [← List.append_nil places]
  exact hx.bind fun a g t _ => .pure g t (k a)

theorem nestedAt_cases (f : Frame) (index : Nat) :
    (∃ p, f.nestedAt index = .ok p ∧ f.prototype.nested[index]? = some p ∧ f.Supplies p.outers) ∨
      ¬f.ClosureFits index ∧ ∃ n, f.nestedAt index = .error (.invalidInstruction n) := by
  unfold nestedAt
  cases hp : f.prototype.nested[index]? with
  | none =>
    refine .inr ⟨?_, index, rfl⟩
    rintro ⟨p, hp', _⟩
    rw [hp] at hp'
    cases hp'
  | some p =>
    dsimp only
    cases hfind : p.outers.find? f.lacks with
    | none =>
      refine .inl ⟨p, rfl, rfl, fun o ho hkind => ?_⟩
      have hlacks := List.find?_eq_none.1 hfind o ho
      simp only [lacks, hkind, true_and, decide_eq_true_eq] at hlacks
      omega
    | some o =>
      refine .inr ⟨?_, o.position, rfl⟩
      rintro ⟨q, hq, hall⟩
      cases hp.symm.trans hq
      have hlacks := List.find?_some hfind
      simp only [lacks, decide_eq_true_eq] at hlacks
      have := hall o (List.mem_of_find?_eq_some hfind) hlacks.1
      omega

theorem ClosureFits.nestedAt (h : f.ClosureFits index) :
    ∃ p, f.nestedAt index = .ok p ∧ f.prototype.nested[index]? = some p ∧ f.Supplies p.outers :=
  (f.nestedAt_cases index).resolve_right fun hr => hr.1 h

theorem makeClosure_creates (h : f.ClosureFits index) (s : Store) :
    Creates f s [index] (f.makeClosure index) := by
  obtain ⟨p, hok, hp, hsupplies⟩ := h.nestedAt
  unfold Creates makeClosure
  simp only [ensures_bind, ensures_ofExcept, hok, ensures_adding, ensures_pure, Except.ok.injEq,
    reduceCtorEq, false_implies, implies_true, and_true]
  rintro _ rfl
  refine (captures_ensures p.outers f s hsupplies).imp ?_ fun _ _ h => h
  rintro ⟨cs, g⟩ t hr
  have hadded : Capturing g g t (t.addClosure ⟨p, cs.toArray⟩).2 := .of_eq g rfl rfl
  refine ⟨hr.toCapturing.trans hadded, [⟨p, cs.toArray⟩], ?_, ?_, ?_, ?_, ?_⟩
  · simp [Store.addClosure, hr.closures]
  · simp [hp]
  · intro c hc
    rw [List.mem_singleton.1 hc]
    simpa using hr.length
  · intro hf c hc i o d ho hd
    rw [List.mem_singleton.1 hc] at ho hd
    exact (hr.gives hf i o d ho (by simpa using hd)).capturing (hr.neat 0 (Nat.zero_le _) hf) hadded
  · intro d hge hlt
    exact ⟨_, List.mem_singleton_self _, hr.covers d hge hlt⟩

theorem makeClosure_refused (h : ¬f.ClosureFits index) (s : Store) :
    ∃ n, f.makeClosure index s = .error (.invalidInstruction n) s := by
  obtain ⟨p, _, hp, hall⟩ | ⟨_, n, herr⟩ := f.nestedAt_cases index
  · exact absurd ⟨p, hp, hall⟩ h
  · refine ⟨n, ?_⟩
    simp only [makeClosure, herr, bind, EStateM.bind, Action.ofExcept]

theorem makeMember_creates {k : Option Nat} (h : ∀ i ∈ k.toList, f.ClosureFits i) (s : Store) :
    Creates f s k.toList (f.makeMember k) := by
  cases k with
  | none => exact .pure f s none
  | some i =>
    unfold makeMember
    exact (makeClosure_creates (h i (by simp)) s).map fun id => some (Value.closure id)

theorem makeMembers_creates {ms : List (String × Nat)} (h : ∀ i ∈ ms.map Prod.snd, f.ClosureFits i)
    (s : Store) : Creates f s (ms.map Prod.snd) (f.makeMembers ms) := by
  induction ms generalizing f s with
  | nil => exact .pure f s []
  | cons m rest ih =>
    obtain ⟨name, i⟩ := m
    obtain ⟨hi, hrest⟩ := List.forall_mem_cons.1 h
    unfold makeMembers
    refine (makeClosure_creates hi s).bind fun id g t hg => ?_
    exact (ih (fun j hj => (hrest j hj).of_sameCall hg.toSameCall) t).map
      ((name, Value.closure id) :: ·)

theorem checkNested_cases (f : Frame) (ks : List Nat) :
    (f.checkNested ks = .ok () ∧ ∀ k ∈ ks, f.ClosureFits k) ∨
      (¬∀ k ∈ ks, f.ClosureFits k) ∧ ∃ n, f.checkNested ks = .error (.invalidInstruction n) := by
  induction ks with
  | nil => exact .inl ⟨rfl, fun k hk => (List.not_mem_nil hk).elim⟩
  | cons k rest ih =>
    unfold checkNested
    obtain ⟨p, hok, hp, hall⟩ | ⟨hnot, n, herr⟩ := f.nestedAt_cases k
    · have hk : f.ClosureFits k := ⟨p, hp, hall⟩
      rw [hok]
      rcases ih with ⟨hrest, hfit⟩ | ⟨hnot, n, herr⟩
      · exact .inl ⟨hrest, List.forall_mem_cons.2 ⟨hk, hfit⟩⟩
      · exact .inr ⟨fun h => hnot (List.forall_mem_cons.1 h).2, n, herr⟩
    · rw [herr]
      exact .inr ⟨fun h => hnot (h k List.mem_cons_self), n, rfl⟩

theorem makeType_creates (h : f.TypeFits index) (s : Store) :
    ∃ t, f.prototype.types[index]? = some t ∧ Creates f s t.members (f.makeType index) := by
  obtain ⟨t, ht, hall⟩ := h
  refine ⟨t, ht, ?_⟩
  have hcheck := ((f.checkNested_cases t.members).resolve_right fun hr => hr.1 hall).1
  have hfit : ∀ {g : Frame} {l : List Nat}, SameCall f g → (∀ i ∈ l, f.ClosureFits i) → ∀ i ∈ l,
    g.ClosureFits i :=
    fun hg h i hi => (h i hi).of_sameCall hg
  simp only [TypeInfo.members, List.mem_append] at hall
  have hctor : ∀ i ∈ t.ctor.toList, f.ClosureFits i := fun i hi => hall i (by simp [hi])
  have hinvoke : ∀ i ∈ t.invoke.toList, f.ClosureFits i := fun i hi => hall i (by simp [hi])
  have hunary : ∀ i ∈ t.prefixOps.map Prod.snd, f.ClosureFits i :=
    fun i hi => hall i (by simp only [hi]; simp)
  have hbinary : ∀ i ∈ t.infixOps.map Prod.snd, f.ClosureFits i :=
    fun i hi => hall i (by simp only [hi]; simp)
  have hmethods : ∀ i ∈ t.methods.map Prod.snd, f.ClosureFits i :=
    fun i hi => hall i (by simp only [hi]; simp)
  have hmembers : t.members = t.ctor.toList ++ (t.invoke.toList ++ (t.prefixOps.map Prod.snd ++
      (t.infixOps.map Prod.snd ++ (t.methods.map Prod.snd ++ [])))) := by
    simp [TypeInfo.members]
  unfold Creates makeType
  rw [ht]
  simp only
  rw [ensures_bind, hcheck, hmembers]
  change Creates f s _ _
  refine (makeMember_creates hctor s).bind fun ctor g₁ s₁ h₁ => ?_
  replace h₁ := h₁.toSameCall
  refine (makeMember_creates (hfit h₁ hinvoke) s₁).bind fun invoke g₂ s₂ h₂ => ?_
  replace h₂ := h₁.trans h₂.toSameCall
  refine (makeMembers_creates (hfit h₂ hunary) s₂).bind fun prefixOps g₃ s₃ h₃ => ?_
  replace h₃ := h₂.trans h₃.toSameCall
  refine (makeMembers_creates (hfit h₃ hbinary) s₃).bind fun infixOps g₄ s₄ h₄ => ?_
  replace h₄ := h₃.trans h₄.toSameCall
  refine (makeMembers_creates (hfit h₄ hmethods) s₄).bind fun methods g₅ s₅ h₅ => ?_
  exact ⟨.of_eq g₅ rfl rfl, [], .none g₅ rfl rfl⟩

theorem makeType_refused (h : ¬f.TypeFits index) (s : Store) :
    ∃ n, f.makeType index s = .error (.invalidInstruction n) s := by
  unfold makeType
  cases ht : f.prototype.types[index]? with
  | none => exact ⟨index, rfl⟩
  | some t =>
    obtain ⟨_, hall⟩ | ⟨_, n, herr⟩ := f.checkNested_cases t.members
    · exact absurd ⟨t, ht, hall⟩ h
    · refine ⟨n, ?_⟩
      simp only [herr, bind, EStateM.bind, Action.ofExcept]

theorem closeFrom_spec (f : Frame) (slot : Nat) (s : Store) :
    SameCall f (f.closeFrom slot s).1 ∧ s.Grows (fun _ => False) (f.closeFrom slot s).2 := by
  refine ⟨⟨rfl, rfl, rfl, rfl⟩, ?_⟩
  have hfold : ∀ (cells : List CellId) (s : Store),
      s.Grows (fun _ => False) (cells.foldl Store.closeCell s) := by
    intro cells
    induction cells with
    | nil => exact .refl
    | cons c cs ih => exact fun s => (s.grows_closeCell c).trans (ih _)
  exact hfold _ s

end Frame

namespace Exec

/-- Where an instruction at offset `i` takes the call, as the static check has it. A call that waits
for a result has one value less than the check counts. -/
inductive Moves (f : Frame) (w : Word) (op : Opcode) (i : Nat) : Effect → Prop where
  | next {g : Frame} {popped pushed : Nat} {targets : List (Nat × Nat)} :
      f.SameCall g → effect? op w = some (popped, pushed) → popped ≤ f.stack.length →
      successors? f.prototype op w i (f.stack.length - popped + pushed) = some targets →
      (g.ip, g.stack.length) ∈ targets → Moves f w op i (.next g)
  | call {c : Call} {g : Frame} {popped pushed : Nat} {targets : List (Nat × Nat)} :
      f.SameCall g → effect? op w = some (popped, pushed) → popped ≤ f.stack.length →
      successors? f.prototype op w i (f.stack.length - popped + pushed) = some targets →
      (g.ip, g.stack.length + 1) ∈ targets → Moves f w op i (.call c g)
  | ret {g : Frame} :
      f.SameCall g → op = .ret → 0 < f.stack.length → g.ip = f.prototype.code.size →
        g.stack.length = 1 →
      Moves f w op i (.next g)

/-- The call as an instruction leaves it. -/
def after : Effect → Frame
  | .next g | .call _ g => g

theorem Moves.sameCall {i : Nat} {eff : Effect} (h : Moves f w op i eff) :
    f.SameCall (after eff) := by
  cases h with
  | next hsame | call hsame | ret hsame => exact hsame

/-- Whether an instruction may take cells for slots of its call. -/
def takesCells : Opcode → Bool
  | .closure | .makeType | .ref => true
  | _ => false

/-- What an instruction does with functions and with the cells that stand for slots of its call. -/
inductive Ties (f : Frame) (s : Store) (w : Word) (op : Opcode) (g : Frame) (t : Store) : Prop where
  | still : g.openCells = f.openCells → s.Still t → Ties f s w op g t
  | takes : takesCells op = true → f.Takes g s t → s.Grows f.MayCreate t → Ties f s w op g t
  | closes : op = .closeOuters → g.openCells = (f.closeFrom w.c s).1.openCells →
      t = (f.closeFrom w.c s).2 → Ties f s w op g t

theorem Ties.grows (h : Ties f s w op g t) : s.Grows f.MayCreate t := by
  cases h with
  | still _ ht => exact ht.grows
  | takes _ _ ht => exact ht
  | closes _ _ ht =>
    rw [ht]
    exact (f.closeFrom_spec w.c s).2.mono fun _ h => h.elim

theorem Ties.refl (s : Store) (h : g.openCells = f.openCells) : Ties f s w op g s :=
  .still h (.refl s)

theorem Ties.push (h : Ties f s w op g t) (v : Value) : Ties f s w op (g.push v) t := by
  cases h with
  | still hcells ht => exact .still hcells ht
  | takes hop htakes ht => exact .takes hop (htakes.congr ⟨rfl, rfl⟩ ⟨rfl, rfl⟩ ⟨rfl, rfl⟩) ht
  | closes hop hcells ht => exact .closes hop hcells ht

theorem Ties.reference (h : Ties f s w .ref g t) (place : Place) :
    Ties f s w .ref g (t.newReference place).2 := by
  cases h with
  | still hcells ht => exact .still hcells (ht.trans (.of_eq rfl rfl rfl))
  | takes hop htakes ht =>
    exact .takes hop (htakes.congr ⟨rfl, rfl⟩ ⟨rfl, rfl⟩ ⟨rfl, rfl⟩) (ht.trans (.of_eq rfl rfl))
  | closes hop => cases hop

/-- What a fault of the machine's own says about the code. -/
structure Blames (f : Frame) (s : Store) (w : Word) (op : Opcode) (e : Fault) : Prop where
  underflow : e = .stackUnderflow → ∀ {popped pushed}, effect? op w = some (popped, pushed) →
    f.stack.length < popped
  invalid : ∀ n, e = .invalidInstruction n → ¬f.OperandsFit s w op

section

variable {f : Frame} {s t : Store} {w : Word} {op : Opcode} {e : Fault} {i n : Nat}

theorem Blames.of_harmless (h : e.isMachine = false) : Blames f s w op e := by
  refine ⟨?_, ?_⟩
  · rintro rfl
    cases h
  · rintro n rfl
    cases h

theorem Blames.short (heff : effect? op w = some (popped, pushed)) (h : f.stack.length < popped) :
    Blames f s w op .stackUnderflow := by
  refine ⟨?_, fun n hn => by cases hn⟩
  intro _ p q hpq
  rw [heff] at hpq
  cases hpq
  exact h

theorem Blames.unfit (h : ¬f.OperandsFit s w op) : Blames f s w op (.invalidInstruction n) :=
  ⟨(nomatch ·), fun _ _ => h⟩

/-- What holds after an instruction from store `s` that has come to an end. -/
def Done (f : Frame) (s : Store) (w : Word) (op : Opcode) (i : Nat) (eff : Effect) (t : Store) :
    Prop :=
  Moves f w op i eff ∧ Ties f s w op (after eff) t

/-- What holds after an instruction from store `s` that has failed. -/
def Failed (f : Frame) (s : Store) (w : Word) (op : Opcode) (e : Fault) (t : Store) : Prop :=
  Blames f s w op e ∧ s.Still t

theorem Failed.of_harmless (h : e.isMachine = false) (ht : s.Still t) : Failed f s w op e t :=
  ⟨.of_harmless h, ht⟩

theorem Failed.deref (h : s.deref v = .error e) : Failed f s w op e s :=
  .of_harmless (s.harmless_deref v e h) (.refl s)

theorem Failed.short (heff : effect? op w = some (popped, pushed)) (h : f.stack.length < popped) :
    Failed f s w op .stackUnderflow s :=
  ⟨.short heff h, .refl s⟩

theorem Failed.unfit (h : ¬f.OperandsFit s w op) : Failed f s w op (.invalidInstruction n) s :=
  ⟨.unfit h, .refl s⟩

theorem Done.next {g : Frame} (heff : effect? op w = some (popped, pushed))
    (hnext : ∀ after, successors? f.prototype op w i after = some [(i + 1, after)])
    (hpop : popped ≤ f.stack.length) (hsame : f.SameCall g) (hip : g.ip = i + 1)
    (hlen : g.stack.length + popped = f.stack.length + pushed) (ht : Ties f s w op g t) :
    Done f s w op i (.next g) t := by
  refine ⟨.next hsame heff hpop (hnext _) ?_, ht⟩
  have : g.stack.length = f.stack.length - popped + pushed := by omega
  rw [hip, this]
  exact List.mem_singleton_self _

/-- An instruction that has a call made, whose result the next instruction finds on the stack. -/
theorem Done.call {c : Call} {g : Frame} (heff : effect? op w = some (popped, pushed))
    (hnext : ∀ after, successors? f.prototype op w i after = some [(i + 1, after)])
    (hpop : popped ≤ f.stack.length) (hsame : f.SameCall g) (hip : g.ip = i + 1)
    (hlen : g.stack.length + 1 + popped = f.stack.length + pushed) (ht : Ties f s w op g t) :
    Done f s w op i (.call c g) t := by
  refine ⟨.call hsame heff hpop (hnext _) ?_, ht⟩
  have : g.stack.length + 1 = f.stack.length - popped + pushed := by omega
  rw [hip, this]
  exact List.mem_singleton_self _

end

section

variable {f : Frame} {s : Store} {w : Word} {i : Nat} {op : Opcode}

theorem Done.push {g : Frame} {t : Store} (heff : effect? op w = some (popped, 1))
    (hnext : ∀ after, successors? f.prototype op w i after = some [(i + 1, after)])
    (hsame : f.SameCall g) (hip : g.ip = i + 1) (hlen : g.stack.length + popped = f.stack.length)
    (ht : Ties f s w op g t) : Done f s w op i (.next (g.push v)) t := by
  refine .next heff hnext (by omega) ⟨hsame.closure, hsame.activation, hsame.this, hsame.result⟩ hip
    ?_ (ht.push v)
  simp only [Frame.push, List.length_cons]
  omega

theorem jumpIf_ensures {cond : Bool} (hip : f.ip = i + 1) (heff : effect? op w = some (1, 0))
    (hnext : ∀ after, successors? f.prototype op w i after = some [(w.c, after), (i + 1, after)]) :
    Ensures (jumpIf f cond w.c) s (Done f s w op i) (Failed f s w op) := by
  simp only [jumpIf, ensures_bind, ensures_popPlain, ensures_pure]
  refine ⟨fun v rest h => ⟨fun u _ => ?_, fun e he => .deref he⟩,
    fun h => .short heff (by simp [h])⟩
  split
  · exact ⟨.next ⟨rfl, rfl, rfl, rfl⟩ heff (by simp [h]) (hnext _) (by simp [h]), .refl s rfl⟩
  · exact ⟨.next ⟨rfl, rfl, rfl, rfl⟩ heff (by simp [h]) (hnext _) (by simp [h, hip]), .refl s rfl⟩

theorem keepIf_ensures {cond : Bool} (hip : f.ip = i + 1) (heff : effect? op w = some (1, 1))
    (hnext : ∀ after, successors? f.prototype op w i after =
      some [(w.c, after), (i + 1, after - 1)]) :
    Ensures (keepIf f cond w.c) s (Done f s w op i) (Failed f s w op) := by
  simp only [keepIf, ensures_bind, ensures_top, ensures_reading]
  refine ⟨fun v rest h => ⟨fun u _ => ?_, fun e he => .deref he⟩,
    fun h => .short heff (by simp [h])⟩
  split
  · exact ⟨.next ⟨rfl, rfl, rfl, rfl⟩ heff (by simp [h]) (hnext _) (by simp [h]), .refl s rfl⟩
  · simp only [ensures_bind, ensures_pop, ensures_pure]
    refine ⟨fun v' rest' h' => ⟨?_, .refl s rfl⟩, fun h' => .short heff (by simp [h'])⟩
    exact .next ⟨rfl, rfl, rfl, rfl⟩ heff (by simp [h']) (hnext _) (by simp [h', hip])

/-- The end of an operator: its value is left, or the call of the operand's own function is to be
made. -/
theorem Done.applied {g : Frame} {t : Store} {r : Applied} (heff : effect? op w = some (popped, 1))
    (hnext : ∀ after, successors? f.prototype op w i after = some [(i + 1, after)])
    (hsame : f.SameCall g) (hip : g.ip = i + 1) (hlen : g.stack.length + popped = f.stack.length)
    (ht : Ties f s w op g t) : Done f s w op i (Exec.applied g r) t := by
  cases r with
  | value v => exact .push heff hnext hsame hip hlen ht
  | call c => exact .call heff hnext (by omega) hsame hip (by omega) ht

/-- An instruction that stores the top of the stack somewhere and leaves it there. -/
theorem store_ensures {l : Location} {rest : List Value} (hip : f.ip = i + 1)
    (heff : effect? op w = some (1, 1))
    (hnext : ∀ after, successors? f.prototype op w i after = some [(i + 1, after)])
    (h : f.stack = v :: rest) :
    Ensures (do Store.assign l v; return .next f : Action Effect) s (Done f s w op i)
      (Failed f s w op) := by
  simp only [ensures_bind, ensures_pure]
  refine ensures_tame (Store.tame_assign l v) (fun _ t ht => ?_) fun e t he ht => .of_harmless he ht
  exact .next heff hnext (by simp [h]) (.refl f) hip rfl (.still rfl ht)

theorem makeReference_ensures (hip : f.ip = i + 1) :
    Ensures (makeReference f w) s
      (fun r t => ∀ v, Done f s w .ref i (.next (r.2.push v)) t) (Failed f s w .ref) := by
  unfold makeReference
  split
  · rename_i hkind
    exact .unfit (by simp [Frame.OperandsFit, hkind])
  · rename_i hkind
    have heff : effect? .ref w = some (0, 1) := by simp [effect?, hkind]
    simp only [ensures_bind, ensures_name, ensures_pure]
    refine ⟨fun n _ => ?_, fun h => .unfit (by simpa [Frame.OperandsFit, hkind] using h)⟩
    exact fun v => .push heff (fun _ => rfl) (.refl f) hip rfl (.refl s rfl)
  · rename_i hkind
    have heff : effect? .ref w = some (0, 1) := by simp [effect?, hkind]
    simp only [ensures_bind, ensures_pure]
    refine (f.capture_ensures w.b s).imp ?_ fun _ _ h => h.elim
    rintro ⟨c, g⟩ t hg
    intro v
    refine .push heff (fun _ => rfl) hg.toSameCall (hg.ip.trans hip)
      (congrArg List.length hg.stack) ?_
    exact .takes rfl hg.toTakes (hg.toCapturing.grows hg.closures)
  · rename_i hkind
    have heff : effect? .ref w = some (0, 1) := by simp [effect?, hkind]
    simp only [ensures_bind, ensures_outer, ensures_pure]
    refine ⟨fun c _ => ?_, fun h => .unfit (by simpa [Frame.OperandsFit, hkind] using h)⟩
    exact fun v => .push heff (fun _ => rfl) (.refl f) hip rfl (.refl s rfl)
  · rename_i hkind
    have heff : effect? .ref w = some (2, 1) := by simp [effect?, hkind]
    simp only [ensures_bind, ensures_popPlain, ensures_pure]
    refine ⟨fun k rest h => ⟨fun _ _ => ⟨fun t rest' h' => ⟨fun _ _ => ?_, fun e he => .deref he⟩,
      fun h' => .short heff (by simp [h, h'])⟩, fun e he => .deref he⟩,
      fun h => .short heff (by simp [h])⟩
    exact fun v =>
      .push heff (fun _ => rfl) ⟨rfl, rfl, rfl, rfl⟩ hip (by simp [h, h']) (.refl s rfl)
  · rename_i hkind
    have heff : effect? .ref w = some (1, 1) := by simp [effect?, hkind]
    simp only [ensures_bind, ensures_popPlain, ensures_name, ensures_pure]
    refine ⟨fun t rest h =>
      ⟨fun _ _ => ⟨fun n _ => ?_, fun hn => .unfit ?_⟩, fun e he => .deref he⟩,
      fun h => .short heff (by simp [h])⟩
    · exact fun v => .push heff (fun _ => rfl) ⟨rfl, rfl, rfl, rfl⟩ hip (by simp [h]) (.refl s rfl)
    · have hname : ¬f.NameFits w.b := hn
      simpa [Frame.OperandsFit, hkind] using hname

theorem target?_mem {t : JumpTable} {key : Option MatchKey} {target : Nat}
    (h : t.target? key = some target) : ∃ k, (k, target) ∈ t.cases.entries := by
  unfold JumpTable.target? at h
  split at h
  · rename_i found hk
    cases h
    obtain ⟨k, _, hget⟩ := Option.bind_eq_some_iff.1 hk
    exact ⟨k, Table.mem_of_get? hget⟩
  · exact ⟨_, Table.mem_of_get? h⟩

theorem matchOn_ensures :
    Ensures (operation f w .matchOn) s (Done f s w .matchOn i) (Failed f s w .matchOn) := by
  simp only [operation, ensures_bind, ensures_popPlain]
  refine ⟨fun v rest h => ⟨fun u _ => ?_, fun e he => .deref he⟩, fun h => .short rfl (by simp [h])⟩
  split
  · rename_i target htarget
    obtain ⟨t, ht, htgt⟩ := Option.bind_eq_some_iff.1 htarget
    obtain ⟨k, hk⟩ := target?_mem htgt
    change f.prototype.tables[w.c]? = some t at ht
    have hnext : successors? f.prototype .matchOn w i (f.stack.length - 1) =
        some (t.cases.entries.map fun entry => (entry.2, f.stack.length - 1)) := by
      simp only [successors?, ht]
    refine ⟨.next ⟨rfl, rfl, rfl, rfl⟩ rfl (by simp [h]) hnext ?_, .refl s rfl⟩
    exact List.mem_map.2 ⟨_, hk, by simp [h]⟩
  · rename_i hnone
    refine .unfit ?_
    rintro ⟨t, ht, hdef⟩
    change f.prototype.tables[w.c]?.bind _ = none at hnone
    rw [ht] at hnone
    simp only [Option.bind_some, JumpTable.target?] at hnone
    split at hnone
    · cases hnone
    · rw [JumpTable.HasDefault, hnone] at hdef
      cases hdef

/-- Executing one operation: the static check foresees where it goes and with which height, and a
fault of the machine's own has its reason in the code. -/
theorem operation_ensures (op : Opcode) (hip : f.ip = i + 1) :
    Ensures (operation f w op) s (Done f s w op i) (Failed f s w op) := by
  have hsame : ∀ {stack}, f.SameCall { f with stack } := ⟨rfl, rfl, rfl, rfl⟩
  cases op with
  | pop =>
    simp only [operation, ensures_bind, ensures_pop, ensures_pure]
    refine ⟨fun v rest h => ?_, fun h => .short rfl (by simp [h])⟩
    exact .next rfl (fun _ => rfl) (by simp [h]) hsame hip (by simp [h]) (.refl s rfl)
  | dup =>
    simp only [operation, ensures_bind, ensures_top, ensures_pure, pushed]
    refine ⟨fun v rest h => ?_, fun h => .short rfl (by simp [h])⟩
    exact .next rfl (fun _ => rfl) (by simp [h]) hsame hip (by simp [Frame.push]) (.refl s rfl)
  | dup2 =>
    simp only [operation, ensures_bind, ensures_popN, ensures_pure]
    refine ⟨fun h => ?_, fun h => .short rfl h⟩
    refine .next rfl (fun _ => rfl) h hsame hip ?_ (.refl s rfl)
    simp only [List.length_append, List.length_reverse, List.length_take, List.length_drop]
    omega
  | closeOuters =>
    simp only [operation, ensures_bind, ensures_adding, ensures_pure]
    exact .next rfl (fun _ => rfl) (Nat.zero_le _) (f.closeFrom_spec w.c s).1 hip rfl
      (.closes rfl rfl rfl)
  | jump =>
    refine ⟨.next ⟨rfl, rfl, rfl, rfl⟩ rfl (Nat.zero_le _) rfl ?_, .refl s rfl⟩
    simp
  | jumpTrue | jumpFalse => exact jumpIf_ensures hip rfl fun _ => rfl
  | and | or => exact keepIf_ensures hip rfl fun _ => rfl
  | loadLocal =>
    simp only [operation, ensures_bind, ensures_localAt, pushed, ensures_pure]
    refine ⟨fun v _ => ?_, fun h => .unfit (Nat.not_lt.2 h)⟩
    exact .push rfl (fun _ => rfl) hsame hip rfl (.refl s rfl)
  | storeLocal =>
    simp only [operation, ensures_bind, ensures_top, ensures_localAt]
    refine ⟨fun v rest h => ⟨fun _ _ => ?_, fun hl => .unfit (Nat.not_lt.2 hl)⟩,
      fun h => .short rfl (by simp [h])⟩
    simpa only [ensures_bind] using store_ensures hip rfl (fun _ => rfl) h
  | initLocal =>
    simp only [operation, ensures_bind, ensures_top, ensures_look]
    refine ⟨fun v rest h => ?_, fun h => .short rfl (by simp [h])⟩
    split
    · simp only [ensures_bind, ensures_pure]
      refine ensures_tame (Store.tame_put _ v) (fun _ t ht => ?_) fun e t he ht =>
        .of_harmless he ht
      exact .next rfl (fun _ => rfl) (by simp [h]) (.refl f) hip rfl (.still rfl ht)
    · rename_i hl
      exact .unfit (by simpa [Frame.OperandsFit] using hl)
  | loadOuter =>
    simp only [operation, ensures_bind, ensures_outer, ensures_look, pushed, ensures_pure]
    refine ⟨fun c _ => ?_, fun h => .unfit (Nat.not_lt.2 h)⟩
    exact .push rfl (fun _ => rfl) hsame hip rfl (.refl s rfl)
  | storeOuter =>
    simp only [operation, ensures_bind, ensures_top, ensures_outer]
    refine ⟨fun v rest h => ⟨fun _ _ => ?_, fun hl => .unfit (Nat.not_lt.2 hl)⟩,
      fun h => .short rfl (by simp [h])⟩
    simpa only [ensures_bind] using store_ensures hip rfl (fun _ => rfl) h
  | loadGlobal =>
    simp only [operation, ensures_bind, ensures_name, ensures_look, pushed, ensures_pure]
    refine ⟨fun n _ => ?_, fun h => .unfit h⟩
    exact .push rfl (fun _ => rfl) hsame hip rfl (.refl s rfl)
  | storeGlobal =>
    simp only [operation, ensures_bind, ensures_name, ensures_top]
    refine ⟨fun n _ => ⟨fun v rest h => ?_, fun h => .short rfl (by simp [h])⟩, fun h => .unfit h⟩
    simpa only [ensures_bind] using store_ensures hip rfl (fun _ => rfl) h
  | loadIndex =>
    simp only [operation, ensures_bind, ensures_popPlain, ensures_reading, pushed, ensures_pure]
    refine ⟨fun k rest h =>
      ⟨fun _ _ => ⟨fun t rest' h' => ⟨fun _ _ => ⟨fun v _ => ?_, fun e he => ?_⟩,
      fun e he => .deref he⟩, fun h' => .short rfl (by simp [h, h'])⟩, fun e he => .deref he⟩,
      fun h => .short rfl (by simp [h])⟩
    · exact .push rfl (fun _ => rfl) hsame hip (by simp [h, h']) (.refl s rfl)
    · exact .of_harmless (s.harmless_readIndex _ _ e he) (.refl s)
  | storeIndex =>
    simp only [operation, ensures_bind, ensures_pop, ensures_popPlain, ensures_reading,
      pushed, ensures_pure]
    refine ⟨fun v rest h =>
      ⟨fun k rest' h' => ⟨fun _ _ => ⟨fun t rest'' h'' => ⟨fun _ _ => ⟨fun l _ => ?_,
      fun e he => ?_⟩, fun e he => .deref he⟩, fun h'' => .short rfl (by simp [h, h', h''])⟩,
      fun e he => .deref he⟩,
      fun h' => .short rfl (by simp [h, h'])⟩, fun h => .short rfl (by simp [h])⟩
    · refine ensures_tame (Store.tame_assign l v) (fun _ t ht => ?_) fun e t he ht =>
        .of_harmless he ht
      exact .push rfl (fun _ => rfl) hsame hip (by simp [h, h', h'']) (.still rfl ht)
    · exact .of_harmless (s.harmless_locateIndex _ _ e he) (.refl s)
  | loadField =>
    simp only [operation, ensures_bind, ensures_name, ensures_popPlain, ensures_reading,
      pushed, ensures_pure]
    refine ⟨fun n _ =>
      ⟨fun t rest h => ⟨fun _ _ => ⟨fun v _ => ?_, fun e he => ?_⟩, fun e he => .deref he⟩,
      fun h => .short rfl (by simp [h])⟩, fun h => .unfit h⟩
    · exact .push rfl (fun _ => rfl) hsame hip (by simp [h]) (.refl s rfl)
    · exact .of_harmless (s.harmless_readField _ _ e he) (.refl s)
  | storeField =>
    simp only [operation, ensures_bind, ensures_name, ensures_pop, ensures_popPlain,
      ensures_reading, pushed, ensures_pure]
    refine ⟨fun n _ =>
      ⟨fun v rest h => ⟨fun t rest' h' => ⟨fun _ _ => ⟨fun l _ => ?_, fun e he => ?_⟩,
      fun e he => .deref he⟩, fun h' => .short rfl (by simp [h, h'])⟩,
      fun h => .short rfl (by simp [h])⟩, fun h => .unfit h⟩
    · refine ensures_tame (Store.tame_assign l v) (fun _ t ht => ?_) fun e t he ht =>
        .of_harmless he ht
      exact .push rfl (fun _ => rfl) hsame hip (by simp [h, h']) (.still rfl ht)
    · exact .of_harmless (s.harmless_locateField _ _ e he) (.refl s)
  | pushNull => exact .push rfl (fun _ => rfl) hsame hip rfl (.refl s rfl)
  | pushTrue => exact .push rfl (fun _ => rfl) hsame hip rfl (.refl s rfl)
  | pushFalse => exact .push rfl (fun _ => rfl) hsame hip rfl (.refl s rfl)
  | const =>
    simp only [operation]
    split
    · exact .push rfl (fun _ => rfl) hsame hip rfl (.refl s rfl)
    · rename_i hnone
      exact .unfit (Nat.not_lt.2 (Array.getElem?_eq_none_iff.1 hnone))
  | smallInt k => exact .push rfl (fun _ => rfl) hsame hip rfl (.refl s rfl)
  | smallFloat k => exact .push rfl (fun _ => rfl) hsame hip rfl (.refl s rfl)
  | list =>
    simp only [operation, ensures_bind, ensures_popN, ensures_adding, pushed, ensures_pure]
    refine ⟨fun h => ?_, fun h => .short rfl h⟩
    exact .push rfl (fun _ => rfl) hsame hip (by simp only [List.length_drop]; omega)
      (.still rfl (.of_eq rfl rfl rfl))
  | tuple =>
    simp only [operation, ensures_bind, ensures_popN, pushed, ensures_pure]
    refine ⟨fun h => ?_, fun h => .short rfl h⟩
    exact .push rfl (fun _ => rfl) hsame hip (by simp only [List.length_drop]; omega) (.refl s rfl)
  | closure =>
    simp only [operation, ensures_bind, pushed, ensures_pure]
    by_cases hfit : f.ClosureFits w.c
    · refine Ensures.imp (Frame.makeClosure_creates hfit s) ?_ fun _ _ h => h.elim
      rintro ⟨id, g⟩ t ⟨hg, added, hmade⟩
      exact .push rfl (fun _ => rfl) hg.toSameCall (hg.ip.trans hip) (congrArg List.length hg.stack)
        (.takes rfl hg.toTakes (hmade.grows hg.toTakes))
    · obtain ⟨n, hrun⟩ := Frame.makeClosure_refused hfit s
      exact .of_error hrun (.unfit hfit)
  | makeType =>
    simp only [operation, ensures_bind, pushed, ensures_pure]
    by_cases hfit : f.TypeFits w.c
    · obtain ⟨_, _, hcreates⟩ := Frame.makeType_creates hfit s
      refine Ensures.imp hcreates ?_ fun _ _ h => h.elim
      rintro ⟨id, g⟩ t ⟨hg, added, hmade⟩
      exact .push rfl (fun _ => rfl) hg.toSameCall (hg.ip.trans hip) (congrArg List.length hg.stack)
        (.takes rfl hg.toTakes (hmade.grows hg.toTakes))
    · obtain ⟨n, hrun⟩ := Frame.makeType_refused hfit s
      exact .of_error hrun (.unfit hfit)
  | this => exact .push rfl (fun _ => rfl) hsame hip rfl (.refl s rfl)
  | invoke =>
    simp only [operation, ensures_bind, ensures_popN, ensures_pop, ensures_pure]
    refine ⟨fun h => ⟨fun v rest h' => ?_, fun h' => ?_⟩, fun h => .short rfl (by omega)⟩
    · have hlen := congrArg List.length h'
      simp only [List.length_drop, List.length_cons] at hlen
      exact .call rfl (fun _ => rfl) (by omega) hsame hip (by dsimp only; omega) (.refl s rfl)
    · have hlen := congrArg List.length h'
      simp only [List.length_drop, List.length_nil] at hlen
      exact .short rfl (by omega)
  | invokeMethod =>
    simp only [operation, ensures_bind, ensures_name, ensures_popN, ensures_popPlain,
      ensures_reading, ensures_pure]
    refine ⟨fun n _ => ⟨fun h => ⟨fun v rest h' =>
      ⟨fun _ _ => ⟨fun m _ => ?_, fun e he => ?_⟩, fun e he => .deref he⟩,
      fun h' => ?_⟩, fun h => .short rfl (by omega)⟩, fun h => .unfit h⟩
    · have hlen := congrArg List.length h'
      simp only [List.length_drop, List.length_cons] at hlen
      exact .call rfl (fun _ => rfl) (by omega) hsame hip (by dsimp only; omega) (.refl s rfl)
    · exact .of_harmless (s.harmless_readField _ _ e he) (.refl s)
    · have hlen := congrArg List.length h'
      simp only [List.length_drop, List.length_nil] at hlen
      exact .short rfl (by omega)
  | prefixOp =>
    simp only [operation, ensures_bind, ensures_name, ensures_pop, ensures_reading, ensures_pure]
    refine ⟨fun n _ =>
      ⟨fun v rest h => ⟨fun r _ => ?_, fun e he => ?_⟩, fun h => .short rfl (by simp [h])⟩,
      fun h => .unfit h⟩
    · exact .applied rfl (fun _ => rfl) hsame hip (by simp [h]) (.refl s rfl)
    · exact .of_harmless (s.harmless_applyPrefix _ _ e he) (.refl s)
  | infixOp =>
    simp only [operation, ensures_bind, ensures_name, ensures_pop, ensures_pure]
    refine ⟨fun n _ =>
      ⟨fun r rest h => ⟨fun l rest' h' => ?_, fun h' => .short rfl (by simp [h, h'])⟩,
      fun h => .short rfl (by simp [h])⟩, fun h => .unfit h⟩
    refine ensures_tame (Store.tame_applyInfix n l r) (fun a t ht => ?_) fun e t he ht =>
      .of_harmless he ht
    exact .applied rfl (fun _ => rfl) hsame hip (by simp [h, h']) (.still rfl ht)
  | eq | neq =>
    simp only [operation, ensures_bind, ensures_popPlain, ensures_look, pushed, ensures_pure]
    refine ⟨fun r rest h => ⟨fun _ _ => ⟨fun l rest' h' => ⟨fun _ _ => ?_, fun e he => .deref he⟩,
      fun h' => .short rfl (by simp [h, h'])⟩, fun e he => .deref he⟩,
      fun h => .short rfl (by simp [h])⟩
    exact .push rfl (fun _ => rfl) hsame hip (by simp [h, h']) (.refl s rfl)
  | not | deref =>
    simp only [operation, ensures_bind, ensures_popPlain, pushed, ensures_pure]
    refine ⟨fun v rest h => ⟨fun _ _ => ?_, fun e he => .deref he⟩,
      fun h => .short rfl (by simp [h])⟩
    exact .push rfl (fun _ => rfl) hsame hip (by simp [h]) (.refl s rfl)
  | matchOn => exact matchOn_ensures
  | ref =>
    simp only [operation, ensures_bind, ensures_adding, pushed, ensures_pure]
    refine (makeReference_ensures hip).imp (fun r t h => ?_) fun e t h => h
    obtain ⟨hmoves, ht⟩ := h (t.newReference r.1).1
    exact ⟨hmoves, ht.reference r.1⟩
  | storeDeref =>
    simp only [operation, ensures_bind, ensures_pop]
    refine ⟨fun v rest h => ⟨fun t rest' h' => ?_, fun h' => .short rfl (by simp [h, h'])⟩,
      fun h => .short rfl (by simp [h])⟩
    split
    · simp only [ensures_bind, pushed, ensures_pure]
      refine ensures_tame (Store.tame_overwrite _ v) (fun _ t ht => ?_) fun e t he ht =>
        .of_harmless he ht
      exact .push rfl (fun _ => rfl) hsame hip (by simp [h, h']) (.still rfl ht)
    · exact .of_harmless rfl (.refl s)
  | ret =>
    simp only [operation, ensures_bind, ensures_pop, ensures_pure]
    refine ⟨fun v rest h => ⟨.ret ⟨rfl, rfl, rfl, rfl⟩ rfl (by simp [h]) rfl rfl, .refl s rfl⟩,
      fun h => ?_⟩
    exact .short rfl (by simp [h])

end

end Exec
end Refscript
