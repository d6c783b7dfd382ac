import Refscript.Proofs.Machine.Operands
import Refscript.Proofs.Machine.World
import Refscript.Proofs.Store.Spare

/-!
# Refscript.Proofs.Machine.Lockstep

Calls of compiled functions use no slots but those that their functions ask for. A machine in which
one call has further slots takes the same steps as the machine without them: it has the same
outcomes, and the further slots keep their values (`Machine.step_inStep`, `Outcome.after_inStep`).
-/

namespace Refscript

open Refscript.Action Store

/-- The embedding program cannot tell whether a call has slots that it does not need. -/
def Host.Blind (host : Host) : Prop :=
  ∀ name (s : Store) A xs this args, s.Lends A xs → host name (s.spare A xs) this args =
    host name s this args

variable {A a : ActivationId} {xs : Array Value} {n : Nat} {s t : Store}

theorem Method.respects_apply (m : Method) (receiver : Value) (args : List Value) :
    Respects (Spared A xs a n) (m.apply receiver args) := by
  have hlist : ∀ (id : ListId) (change : Array Value → Array Value) (v : Value),
      Respects (Spared A xs a n) (do changing (·.modifyList id change); return v) :=
        fun id change v =>
    (Respects.changing fun _ _ h => h.update (u := (·.modifyList id change)) rfl rfl rfl).bind
      fun _ => .pure v
  unfold apply
  split
  case h_9 => exact hlist _ _ _
  case h_10 => exact .look fun _ _ h => by rw [h.alike.listItems]
  case h_11 =>
    refine (Respects.look fun _ _ h => by rw [h.alike.listItems]).bind fun last => ?_
    split
    · exact hlist _ _ _
    · exact .fail _
  case h_12 => exact hlist _ _ _
  case h_14 => exact .reading fun _ _ h => by rw [h.alike.typeName]
  all_goals exact .pure _

theorem Method.respects_run (m : Method) (this : Option Value) (args : List Value) :
    Respects (Spared A xs a n) (m.run this args) := by
  unfold run
  split
  · cases this with
    | some receiver => exact m.respects_apply receiver args
    | none => exact .fail _
  · exact .fail _

theorem LibraryFunction.run_spared (f : LibraryFunction) (args : List Value)
    (h : Spared A xs a n s t) : f.run t args = f.run s args := by
  have htext : ∀ args, joinedText t args = joinedText s args := fun args => by
    rw [joinedText, joinedText, funext h.alike.display]
  have happly : ∀ args, f.apply t args = f.apply s args := by
    intro args
    unfold apply
    split <;> simp only [htext, h.alike.display, h.alike.typeName]
  unfold run
  simp only [h.derefAll, happly]

theorem Callback.respects_run (c : Callback) {host : Host} (hhost : host.Blind)
    (this : Option Value) (args : List Value) :
    Respects (Spared A xs a n) (c.run host this args) := by
  unfold run
  split
  · rename_i m _
    exact (m.respects_run this args).bind fun v => .pure _
  · rename_i f _
    exact .reading fun _ _ h => f.run_spared args h
  · refine (Respects.look fun s t h => by rw [h.eq, hhost _ s A xs this args h.toLends]).bind
      fun reply => ?_
    split
    · exact .pure _
    · exact (blurs_spared.newList fun _ _ _ => rfl).bind fun v => .pure _
    · exact .fail _
    · exact .pure _

namespace Frame

variable {f g : Frame}

theorem closeFrom_spared (f : Frame) (slot : Nat) (h : Spared A xs a n s t) :
    (f.closeFrom slot t).1 = (f.closeFrom slot s).1 ∧
      Spared A xs a n (f.closeFrom slot s).2 (f.closeFrom slot t).2 := by
  have hstands : standsFrom t slot = standsFrom s slot := funext fun c => by
    rw [standsFrom, standsFrom, h.cell]
  unfold closeFrom
  rw [hstands]
  exact ⟨rfl, h.closeAll _⟩

theorem respects_capture {slot : Nat} (ha : f.activation = a) (hslot : slot < n) :
    Respects (Spared A xs a n) (f.capture slot) := by
  have hfind : ∀ s t, Spared A xs a n s t →
      f.openCells.find? (f.standsFor t slot) = f.openCells.find? (f.standsFor s slot) := by
    intro s t h
    rw [funext fun c => show f.standsFor t slot c =
      f.standsFor s slot c by rw [standsFor, standsFor, h.cell]]
  refine (Respects.look hfind).bind fun found => ?_
  cases found with
  | some c => exact .pure _
  | none =>
    refine (Respects.adding fun s t h => ⟨by rw [h.eq]; rfl, ?_⟩).bind fun c => .pure _
    rw [ha]
    exact h.addCell (Nat.lt_of_lt_of_le hslot h.room)

/-- The call is `a`, and its first `n` slots are all that functions made in it capture. -/
structure Dwells (f : Frame) (a : ActivationId) (n : Nat) : Prop where
  activation : f.activation = a
  captured : ∀ q ∈ f.prototype.nested, ∀ o ∈ q.outers, o.kind = .localInParent → o.position < n

theorem Dwells.of_sameCall (h : f.Dwells a n) (hg : f.SameCall g) : g.Dwells a n :=
  ⟨hg.activation.trans h.activation, by rw [prototype, hg.closure]; exact h.captured⟩

theorem respects_captures {os : List OuterInfo} (ha : f.activation = a)
    (hos : ∀ o ∈ os, o.kind = .localInParent → o.position < n) :
    Respects (Spared A xs a n) (f.captures os) := by
  induction os generalizing f with
  | nil => exact .pure _
  | cons o os ih =>
    obtain ⟨ho, hos⟩ := List.forall_mem_cons.1 hos
    have hrest : ∀ (c : CellId) (g : Frame), g.activation = a →
        Respects (Spared A xs a n) (do let r ← g.captures os; return (c :: r.1, r.2)) :=
      fun c g hg => (ih hg hos).bind fun r => .pure _
    unfold captures
    split
    · rename_i hkind
      refine (respects_capture ha (ho hkind)).bind_of (Q := fun r => r.2.activation = a)
        (fun s => ?_) ?_
      · exact (f.capture_ensures o.position s).imp (fun r t h => h.activation.trans ha) fun _ _ h =>
          h.elim
      · rintro ⟨c, g⟩ hg
        exact hrest c g hg
    · refine .ofExcept_bind ?_
      rintro ⟨c, g⟩ hr
      have hg : g = f := by
        cases houter : f.outer o.position with
        | ok d =>
          rw [houter] at hr
          cases hr
          rfl
        | error e =>
          rw [houter] at hr
          cases hr
      exact hrest c g (hg ▸ ha)

theorem respects_makeClosure (h : f.Dwells a n) (index : Nat) :
    Respects (Spared A xs a n) (f.makeClosure index) := by
  refine .ofExcept_bind fun p hp => ?_
  rcases f.nestedAt_cases index with ⟨q, hq, hmem, _⟩ | ⟨_, k, herr⟩
  · cases hp.symm.trans hq
    refine (respects_captures h.activation (h.captured p (List.mem_of_getElem? hmem))).bind ?_
    rintro ⟨cs, g⟩
    refine (Respects.adding fun s t hst => ⟨by rw [hst.eq]; rfl, ?_⟩).bind fun id => .pure _
    exact hst.update (u := fun s => (s.addClosure ⟨p, cs.toArray⟩).2) rfl rfl rfl
  · cases hp.symm.trans herr

theorem respects_creating {α β : Type} {R : Store → Store → Prop} {places : List Nat}
    {x : Action (α × Frame)} {k : α × Frame → Action β} (hx : Respects R x)
    (hcreates : ∀ s, Creates f s places x) (hk : ∀ v g, f.SameCall g → Respects R (k (v, g))) :
    Respects R (x >>= k) := by
  refine hx.bind_of (Q := fun r => f.SameCall r.2) (fun s => ?_) fun r hr => hk r.1 r.2 hr
  exact Ensures.imp (hcreates s) (fun _ _ hr => hr.1.toSameCall) fun _ _ _ => trivial

theorem respects_makeMember (h : f.Dwells a n) (k : Option Nat) :
    Respects (Spared A xs a n) (f.makeMember k) := by
  cases k with
  | none => exact .pure _
  | some i => exact (respects_makeClosure h i).bind fun r => .pure _

theorem respects_makeMembers {ms : List (String × Nat)} (h : f.Dwells a n)
    (hfit : ∀ i ∈ ms.map Prod.snd, f.ClosureFits i) :
    Respects (Spared A xs a n) (f.makeMembers ms) := by
  induction ms generalizing f with
  | nil => exact .pure _
  | cons m ms ih =>
    obtain ⟨name, i⟩ := m
    obtain ⟨hi, hrest⟩ := List.forall_mem_cons.1 hfit
    refine respects_creating (respects_makeClosure h i) (makeClosure_creates hi) fun id g hg => ?_
    exact (ih (h.of_sameCall hg) fun j hj => (hrest j hj).of_sameCall hg).bind fun r => .pure _

theorem respects_makeType (h : f.Dwells a n) (index : Nat) :
    Respects (Spared A xs a n) (f.makeType index) := by
  unfold makeType
  split
  · exact .fail _
  · rename_i ty _
    refine .ofExcept_bind fun _ hcheck => ?_
    have hall : ∀ k ∈ ty.members, f.ClosureFits k := by
      rcases f.checkNested_cases ty.members with ⟨_, hall⟩ | ⟨_, k, herr⟩
      · exact hall
      · cases hcheck.symm.trans herr
    simp only [TypeInfo.members, List.mem_append] at hall
    have hctor : ∀ i ∈ ty.ctor.toList, f.ClosureFits i := fun i hi => hall i (by simp [hi])
    have hinvoke : ∀ i ∈ ty.invoke.toList, f.ClosureFits i := fun i hi => hall i (by simp [hi])
    have hunary : ∀ i ∈ ty.prefixOps.map Prod.snd, f.ClosureFits i :=
      fun i hi => hall i (by simp only [hi]; simp)
    have hbinary : ∀ i ∈ ty.infixOps.map Prod.snd, f.ClosureFits i :=
      fun i hi => hall i (by simp only [hi]; simp)
    have hmethods : ∀ i ∈ ty.methods.map Prod.snd, f.ClosureFits i :=
      fun i hi => hall i (by simp only [hi]; simp)
    have hfit : ∀ {g : Frame} {l : List Nat}, f.SameCall g → (∀ i ∈ l, f.ClosureFits i) → ∀ i ∈ l,
      g.ClosureFits i :=
      fun hg h i hi => (h i hi).of_sameCall hg
    refine respects_creating (respects_makeMember h ty.ctor) (makeMember_creates hctor)
      fun ctor g₁ h₁ => ?_
    refine respects_creating (respects_makeMember (h.of_sameCall h₁) ty.invoke)
      (makeMember_creates (hfit h₁ hinvoke)) fun invoke g₂ h₂ => ?_
    replace h₂ := h₁.trans h₂
    refine respects_creating (respects_makeMembers (h.of_sameCall h₂) (hfit h₂ hunary))
      (makeMembers_creates (hfit h₂ hunary)) fun prefixOps g₃ h₃ => ?_
    replace h₃ := h₂.trans h₃
    refine respects_creating (respects_makeMembers (h.of_sameCall h₃) (hfit h₃ hbinary))
      (makeMembers_creates (hfit h₃ hbinary)) fun infixOps g₄ h₄ => ?_
    replace h₄ := h₃.trans h₄
    refine (respects_makeMembers (h.of_sameCall h₄) (hfit h₄ hmethods)).bind fun r => ?_
    refine (Respects.adding fun s t hst => ⟨by rw [hst.eq]; rfl, ?_⟩).bind fun id => .pure _
    exact hst.update (u := fun s => (s.addType _).2) rfl rfl rfl

end Frame

namespace Exec

variable {f : Frame} {w : Word}

theorem respects_popPlain (f : Frame) : Respects (Spared A xs a n) (popPlain f) :=
  (Respects.ofExcept _).bind fun r => (respects_deref r.1).bind fun _ => .pure _

theorem respects_jumpIf (f : Frame) (when : Bool) (target : Nat) :
    Respects (Spared A xs a n) (jumpIf f when target) :=
  (respects_popPlain f).bind fun _ => .pure _

theorem respects_keepIf (f : Frame) (when : Bool) (target : Nat) :
    Respects (Spared A xs a n) (keepIf f when target) := by
  refine (Respects.ofExcept _).bind fun top => (respects_deref top).bind fun v => ?_
  split
  · exact .pure _
  · exact (Respects.ofExcept _).bind fun r => .pure _

theorem respects_makeReference (ha : f.activation = a)
    (hslot : RefKind.ofNumber? w.a = some .loc → w.b < n) :
    Respects (Spared A xs a n) (makeReference f w) := by
  unfold makeReference
  split
  · exact .fail _
  · exact (Respects.ofExcept _).bind fun name => .pure _
  · rename_i hkind
    exact (Frame.respects_capture ha (hslot hkind)).bind fun r => .pure _
  · exact (Respects.ofExcept _).bind fun c => .pure _
  · exact (respects_popPlain f).bind fun key => (respects_popPlain key.2).bind fun target => .pure _
  · exact (respects_popPlain f).bind fun target => (Respects.ofExcept _).bind fun name => .pure _

/-- The operands that are slots are among the first `n`. -/
structure WithinSlots (w : Word) (op : Opcode) (n : Nat) : Prop where
  slot : op = .loadLocal ∨ op = .storeLocal ∨ op = .initLocal → w.c < n
  captured : op = .ref → RefKind.ofNumber? w.a = some .loc → w.b < n

theorem respects_operation {op : Opcode} (h : f.Dwells a n) (hw : WithinSlots w op n) :
    Respects (Spared A xs a n) (operation f w op) := by
  have hlocal : w.c < n → Respects (Spared A xs a n) (Action.reading (f.localAt · w.c)) := by
    intro hc
    refine .reading fun s t hst => ?_
    have hsize : w.c < (s.locals f.activation).size := by
      rw [h.activation]
      exact Nat.lt_of_lt_of_le hc hst.room
    rw [Frame.localAt, Frame.localAt, hst.locals hsize]
  have hslot : w.c < n → ∀ b i, Location.slot f.activation w.c = .slot b i → b = a ∧ i < n := by
    intro hc b i heq
    cases heq
    exact ⟨h.activation, hc⟩
  have hplace : ∀ {l : Location}, (∀ b i, l ≠ .slot b i) → ∀ b i, l = .slot b i → b = a ∧ i < n :=
    fun hl b i heq => absurd heq (hl b i)
  unfold operation
  cases op with
  | pop | dup2 | tuple | ret => exact (Respects.ofExcept _).bind fun r => .pure _
  | dup => exact (Respects.ofExcept _).bind fun v => .pure _
  | closeOuters =>
    exact (Respects.adding fun s t hst => f.closeFrom_spared w.c hst).bind fun g => .pure _
  | jump | pushNull | pushTrue | pushFalse | smallInt | smallFloat | this => exact .pure _
  | jumpTrue | jumpFalse => exact respects_jumpIf _ _ _
  | and | or => exact respects_keepIf _ _ _
  | loadLocal => exact (hlocal (hw.slot (by simp))).bind fun v => .pure _
  | storeLocal =>
    have hc := hw.slot (by simp)
    refine (Respects.ofExcept _).bind fun v => (hlocal hc).bind fun _ => ?_
    exact (respects_assign (hslot hc) v).bind fun _ => .pure _
  | initLocal =>
    have hc := hw.slot (by simp)
    refine (Respects.ofExcept _).bind fun v =>
      (Respects.look fun s t hst => ?_).bind fun inside => ?_
    · have hsize : w.c < (s.locals f.activation).size := by
        rw [h.activation]
        exact Nat.lt_of_lt_of_le hc hst.room
      have hsize' : w.c < (t.locals f.activation).size := by
        rw [hst.eq, locals_spare hst.begun]
        split
        · rw [Array.size_append]
          exact Nat.lt_add_right _ hsize
        · exact hsize
      simp [hsize, hsize']
    · split
      · exact (respects_put (hslot hc) v).bind fun _ => .pure _
      · exact .fail _
  | loadOuter =>
    refine (Respects.ofExcept _).bind fun c => ?_
    exact (Respects.look fun _ _ hst => hst.cellValue c).bind fun v => .pure _
  | storeOuter =>
    refine (Respects.ofExcept _).bind fun v => (Respects.ofExcept _).bind fun c => ?_
    exact (respects_assign (hplace fun _ _ heq => by cases heq) v).bind fun _ => .pure _
  | loadGlobal =>
    refine (Respects.ofExcept _).bind fun name => ?_
    exact (Respects.look fun _ _ hst => by rw [hst.eq]; rfl).bind fun v => .pure _
  | storeGlobal =>
    refine (Respects.ofExcept _).bind fun name => (Respects.ofExcept _).bind fun v => ?_
    exact (respects_assign (hplace fun _ _ heq => by cases heq) v).bind fun _ => .pure _
  | loadIndex =>
    refine (respects_popPlain f).bind fun key => (respects_popPlain key.2).bind fun target => ?_
    exact (Respects.reading fun _ _ hst => by rw [hst.eq]; rfl).bind fun v => .pure _
  | storeIndex =>
    refine (Respects.ofExcept _).bind fun v => (respects_popPlain v.2).bind fun key =>
      (respects_popPlain key.2).bind fun target => ?_
    refine .reading_bind (fun _ _ hst => by rw [hst.eq]; rfl) fun s l hl => ?_
    exact (respects_assign (hplace (locate_ne_slot (.element target.1 key.1) hl)) _).bind fun _ =>
      .pure _
  | loadField =>
    refine (Respects.ofExcept _).bind fun name => (respects_popPlain f).bind fun target => ?_
    exact (Respects.reading fun _ _ hst => by rw [hst.eq]; rfl).bind fun v => .pure _
  | storeField =>
    refine (Respects.ofExcept _).bind fun name => (Respects.ofExcept _).bind fun v =>
      (respects_popPlain v.2).bind fun target => ?_
    refine .reading_bind (fun _ _ hst => by rw [hst.eq]; rfl) fun s l hl => ?_
    exact (respects_assign (hplace (locate_ne_slot (.field target.1 name) hl)) _).bind fun _ =>
      .pure _
  | const =>
    dsimp only
    split
    · exact .pure _
    · exact .fail _
  | list =>
    refine (Respects.ofExcept _).bind fun r => ?_
    exact (blurs_spared.newList fun _ _ _ => rfl).bind fun v => .pure _
  | closure => exact (Frame.respects_makeClosure h w.c).bind fun r => .pure _
  | makeType => exact (Frame.respects_makeType h w.c).bind fun r => .pure _
  | invoke => exact (Respects.ofExcept _).bind fun r => (Respects.ofExcept _).bind fun c => .pure _
  | invokeMethod =>
    refine (Respects.ofExcept _).bind fun name => (Respects.ofExcept _).bind fun r =>
      (respects_popPlain r.2).bind fun receiver => ?_
    exact (Respects.reading fun _ _ hst => by rw [hst.eq]; rfl).bind fun v => .pure _
  | prefixOp =>
    refine (Respects.ofExcept _).bind fun op => (Respects.ofExcept _).bind fun r => ?_
    exact (Respects.reading fun _ _ hst => hst.applyPrefix op r.1).bind fun v => .pure _
  | infixOp =>
    refine (Respects.ofExcept _).bind fun op => (Respects.ofExcept _).bind fun r =>
      (Respects.ofExcept _).bind fun l => ?_
    exact (respects_applyInfix op l.1 r.1).bind fun v => .pure _
  | eq | neq =>
    refine (respects_popPlain f).bind fun r => (respects_popPlain r.2).bind fun l => ?_
    exact (Respects.look fun _ _ hst => hst.alike.equal l.1 r.1).bind fun v => .pure _
  | not | deref => exact (respects_popPlain f).bind fun v => .pure _
  | matchOn =>
    refine (respects_popPlain f).bind fun v => ?_
    dsimp only
    split
    · exact .pure _
    · exact .fail _
  | ref =>
    refine (respects_makeReference h.activation (hw.captured rfl)).bind fun r => ?_
    refine (Respects.adding fun s t hst => ⟨by rw [hst.eq]; rfl, ?_⟩).bind fun v => .pure _
    exact hst.update (u := fun s => (s.newReference r.1).2) rfl rfl rfl
  | storeDeref =>
    refine (Respects.ofExcept _).bind fun v => (Respects.ofExcept _).bind fun target => ?_
    dsimp only
    split
    · exact (respects_overwrite _ _).bind fun _ => .pure _
    · exact .reading fun _ _ hst => by rw [hst.alike.typeName]

/-- Instructions of well-formed functions name no slots but those of their function. -/
theorem withinSlots_of_has {P : Prototype} {k : Nat} {i : Insn} (hi : P.Has k i) :
    WithinSlots i.pack i.op P.maxLocals := by
  obtain ⟨⟨_, hfits⟩, hadmits⟩ := hi
  obtain ⟨op, x, y⟩ := i
  refine ⟨?_, ?_⟩
  · rintro (rfl | rfl | rfl) <;> (rw [Insn.c_pack rfl hfits]; exact hadmits)
  · rintro rfl hkind
    rw [Insn.a_pack rfl hfits] at hkind
    rw [Insn.b_pack rfl hfits]
    simp only [Prototype.Admits, hkind] at hadmits
    exact hadmits

end Exec

theorem Frame.dwells_of_wellFormed {f : Frame} (h : f.prototype.WellFormed) :
    f.Dwells f.activation f.prototype.maxLocals := by
  obtain ⟨_, _, _, hprovides, _⟩ := h
  refine ⟨rfl, fun q hq o ho hkind => ?_⟩
  have hp := hprovides q hq o ho
  rw [Prototype.Provides, hkind] at hp
  exact hp

/-- The machine in whose store a call has further slots. -/
def Machine.spare (m : Machine) (A : ActivationId) (xs : Array Value) : Machine :=
  { m with store := m.store.spare A xs }

/-- The same outcome of another machine. -/
def Outcome.map (g : Machine → Machine) : Outcome → Outcome
  | running m => .running (g m)
  | waiting r m => .waiting r (g m)
  | returned v m => .returned v (g m)
  | failed e m => .failed e (g m)
  | stuck m => .stuck (g m)

def Outcome.spare (o : Outcome) (A : ActivationId) (xs : Array Value) : Outcome :=
  o.map (·.spare A xs)

/-- The second outcome is the first one with the further slots. -/
structure Outcome.InStep (A : ActivationId) (xs : Array Value) (o o' : Outcome) : Prop where
  eq : o' = o.spare A xs
  lends : o.machine.store.Lends A xs

theorem Outcome.InStep.ite {c : Prop} [Decidable c] {o₁ o₂ o₁' o₂' : Outcome}
    (hyes : c → InStep A xs o₁ o₁') (hno : ¬c → InStep A xs o₂ o₂') :
    InStep A xs (if c then o₁ else o₂) (if c then o₁' else o₂') := by
  split
  · exact hyes ‹_›
  · exact hno ‹_›

namespace Machine

open Outcome (InStep)

variable {m : Machine} {host : Host} {frames : List Frame} {pending : Option Call}
  {depth limit : Nat}

theorem deliver_inStep (h : m.store.Lends A xs) (v : Value) :
    InStep A xs (m.deliver v) ((m.spare A xs).deliver v) := by
  obtain ⟨s, frames, pending, depth, limit⟩ := m
  cases frames with
  | nil | cons f rest => exact ⟨rfl, h⟩

theorem popFrame_spare (h : m.store.Lends A xs) :
    (m.spare A xs).popFrame = m.popFrame.spare A xs ∧ m.popFrame.store.Lends A xs := by
  obtain ⟨s, frames, pending, depth, limit⟩ := m
  cases frames with
  | nil => exact ⟨rfl, h⟩
  | cons f rest =>
    have hclose := (f.closeFrom_spared 0 (⟨h, rfl, Nat.zero_le _⟩ : Spared A xs 0 0 s _)).2
    refine ⟨?_, hclose.toLends⟩
    simp only [popFrame, spare]
    rw [hclose.eq]

theorem unwind_spare (h : m.store.Lends A xs) :
    (m.spare A xs).unwind = m.unwind.spare A xs ∧ m.unwind.store.Lends A xs := by
  have hfold : ∀ (fs : List Frame) (m : Machine), m.store.Lends A xs →
      fs.foldl (fun m _ => m.popFrame) (m.spare A xs) =
        (fs.foldl (fun m _ => m.popFrame) m).spare A xs ∧
        (fs.foldl (fun m _ => m.popFrame) m).store.Lends A xs := by
    intro fs
    induction fs with
    | nil => exact fun m h => ⟨rfl, h⟩
    | cons f fs ih =>
      intro m h
      obtain ⟨heq, h'⟩ := m.popFrame_spare h
      rw [List.foldl_cons, List.foldl_cons, heq]
      exact ih m.popFrame h'
  exact hfold m.frames m h

theorem raise_inStep (h : m.store.Lends A xs) (e : Fault) :
    InStep A xs (m.raise e) ((m.spare A xs).raise e) := by
  obtain ⟨heq, h'⟩ := m.unwind_spare h
  have hframes : (m.spare A xs).frames = m.frames := rfl
  unfold raise
  rw [heq, hframes]
  split
  · exact ⟨rfl, h'⟩
  · exact ⟨rfl, h'⟩

theorem start_inStep (h : m.store.Lends A xs) (c : Closure) (this : Option Value)
    (args : List Value) (result : Option Value) :
    InStep A xs (m.start c this args result) ((m.spare A xs).start c this args result) := by
  obtain ⟨s, frames, pending, depth, limit⟩ := m
  have hs : Spared A xs 0 0 s (s.spare A xs) := ⟨h, rfl, Nat.zero_le _⟩
  have hraise : ∀ e, InStep A xs _ _ :=
    fun e => raise_inStep (m := ⟨s, frames, pending, depth, limit⟩) h e
  simp only [start, spare] at hraise ⊢
  refine .ite (fun _ => hraise _) fun _ => .ite (fun _ => hraise _) fun _ =>
    .ite (fun _ => ⟨rfl, h⟩) fun _ => ?_
  -- the list of the further arguments is made before the call begins
  have hbind : ((s.spare A xs).bindArguments c.prototype args).1 =
    (s.bindArguments c.prototype args).1 ∧ Spared A xs 0 0 (s.bindArguments c.prototype args).2
        ((s.spare A xs).bindArguments c.prototype args).2 := by
    unfold bindArguments
    split
    · exact ⟨rfl, hs.update (u := fun s => (s.newList _).2) rfl rfl rfl⟩
    · exact ⟨rfl, hs⟩
  rw [hbind.1]
  obtain ⟨hid, hbegun⟩ := hbind.2.addActivation (s.bindArguments c.prototype args).1
  refine ⟨?_, hbegun.toLends⟩
  rw [hid, hbegun.eq]
  rfl

theorem callMember_inStep (h : m.store.Lends A xs) (v : Value) (c : Call) :
    InStep A xs (m.callMember v c) ((m.spare A xs).callMember v c) := by
  cases v with
  | closure id => exact start_inStep h _ _ _ _
  | _ => exact ⟨rfl, h⟩

theorem instantiate_inStep (h : m.store.Lends A xs) (id : TypeId) (c : Call) :
    InStep A xs (m.instantiate id c) ((m.spare A xs).instantiate id c) := by
  obtain ⟨s, frames, pending, depth, limit⟩ := m
  have hs : Spared A xs 0 0 s (s.spare A xs) := ⟨h, rfl, Nat.zero_le _⟩
  have hadd := (hs.update (u := fun s => (s.addObject ⟨id, .empty⟩).2) rfl rfl rfl).toLends
  simp only [instantiate, spare]
  refine .ite (fun _ => raise_inStep (m := ⟨s, frames, pending, depth, limit⟩) h _) fun _ => ?_
  have hctor : ((s.spare A xs).type id).ctor = (s.type id).ctor := rfl
  rw [hctor]
  cases (s.type id).ctor with
  | some f =>
    exact callMember_inStep
      (m := ⟨(s.addObject ⟨id, .empty⟩).2, frames, pending, depth, limit⟩) hadd f _
  | none =>
    refine .ite (fun _ => ?_) fun _ => ?_
    · exact deliver_inStep (m := ⟨(s.addObject ⟨id, .empty⟩).2, frames, pending, depth, limit⟩) hadd
        _
    · exact raise_inStep (m := ⟨(s.addObject ⟨id, .empty⟩).2, frames, pending, depth, limit⟩) hadd _

theorem callNative_inStep (hhost : host.Blind) (h : m.store.Lends A xs) (id : CallbackId)
    (c : Call) :
    InStep A xs (callNative host m id c) (callNative host (m.spare A xs) id c) := by
  obtain ⟨s, frames, pending, depth, limit⟩ := m
  have hrun :=
    h.run (n := 0) (a := 0) (Nat.zero_le _) ((s.callback id).respects_run hhost c.this c.args)
  have hcallback : (s.spare A xs).callback id = s.callback id := rfl
  simp only [callNative, spare, hcallback]
  unfold Ensures at hrun
  cases hx : (s.callback id).run host c.this c.args s with
  | ok reply s' =>
    rw [hx] at hrun
    rw [hrun.1]
    cases reply with
    | value v => exact deliver_inStep (m := ⟨s', frames, none, depth, limit⟩) hrun.2 _
    | request r | call c => exact ⟨rfl, hrun.2⟩
  | error e s' =>
    rw [hx] at hrun
    rw [hrun.1]
    exact raise_inStep (m := ⟨s', frames, none, depth, limit⟩) hrun.2 e

theorem enter_inStep (hhost : host.Blind) (h : m.store.Lends A xs) (c : Call) :
    InStep A xs (enter host m c) (enter host (m.spare A xs) c) := by
  have hs : Spared A xs 0 0 m.store (m.store.spare A xs) := ⟨h, rfl, Nat.zero_le _⟩
  have hderef : (m.spare A xs).store.deref c.callee = m.store.deref c.callee := hs.deref c.callee
  unfold enter
  rw [hderef]
  split
  · exact raise_inStep h _
  · exact start_inStep h _ _ _ _
  · exact callNative_inStep hhost h _ _
  · exact instantiate_inStep h _ _
  · rename_i id _
    have htype : (m.spare A xs).store.typeOf id = m.store.typeOf id := rfl
    rw [htype]
    split
    · exact callMember_inStep h _ _
    · exact raise_inStep h _
  · rename_i v _ _ _ _ _
    have hname : (m.spare A xs).store.typeName v = m.store.typeName v := hs.alike.typeName v
    rw [hname]
    exact raise_inStep h _

theorem execute_inStep {f : Frame} {w : Word} {op : Opcode} (h : s.Lends A xs)
    (hwell : f.prototype.WellFormed) (hroom : f.prototype.maxLocals ≤ (s.locals f.activation).size)
    (hop : w.op? = some op) (hslots : Exec.WithinSlots w op f.prototype.maxLocals)
    (rest : List Frame) :
    InStep A xs (execute f w rest s depth limit) (execute f w rest (s.spare A xs) depth limit) := by
  have hdwells : Frame.Dwells { f with ip := f.ip + 1 } f.activation f.prototype.maxLocals :=
    Frame.dwells_of_wellFormed (f := { f with ip := f.ip + 1 }) hwell
  have hrun := h.run hroom (Exec.respects_operation hdwells hslots)
  simp only [execute, Exec.word, hop]
  unfold Ensures at hrun
  cases hx : Exec.operation { f with ip := f.ip + 1 } w op s with
  | ok eff s' =>
    rw [hx] at hrun
    rw [hrun.1]
    cases eff with
    | next g | call c g => exact ⟨rfl, hrun.2⟩
  | error e s' =>
    rw [hx] at hrun
    rw [hrun.1]
    exact raise_inStep (m := ⟨s', { f with ip := f.ip + 1 } :: rest, none, depth, limit⟩) hrun.2 e

/-- A step among compiled functions is the same whether or not a call has further slots. -/
theorem step_inStep (hhost : host.Blind) (hm : Intact Closure.Compiled m.store m.frames)
    (h : m.store.Lends A xs) : InStep A xs (m.step host) ((m.spare A xs).step host) := by
  obtain ⟨s, frames, pending, depth, limit⟩ := m
  cases pending with
  | some c => exact enter_inStep (m := ⟨s, frames, none, depth, limit⟩) hhost h c
  | none =>
    cases frames with
    | nil => exact ⟨rfl, h⟩
    | cons f rest =>
      have hslots := (hm.slots f List.mem_cons_self).2
      simp only [step, spare]
      cases hw : f.prototype.code[f.ip]? with
      | some w =>
        rcases hm.frames f List.mem_cons_self with hempty | hcompiled
        · -- the empty function has no instruction to execute
          rw [Frame.prototype, hempty] at hw
          cases hw
        · have hwell := hcompiled.wellFormed
          have hcode := hwell
          obtain ⟨hcode, _⟩ := hcode
          obtain ⟨i, hi⟩ := hcode f.ip (Array.getElem?_eq_some_iff.1 hw).1
          cases hw.symm.trans hi.word
          refine execute_inStep h hwell ?_ i.op?_pack (Exec.withinSlots_of_has hi) rest
          rw [hslots]
          exact Nat.le_max_left _ _
      | none =>
        obtain ⟨heq, hpop⟩ := popFrame_spare (m := ⟨s, f :: rest, none, depth, limit⟩) h
        have hdeliver := deliver_inStep hpop (f.result.getD (f.stack.headD .null))
        rw [← heq] at hdeliver
        exact hdeliver

theorem resume_inStep (h : m.store.Lends A xs) (answer : Except Fault Value) :
    InStep A xs (m.resume answer) ((m.spare A xs).resume answer) := by
  cases answer with
  | ok v => exact deliver_inStep h v
  | error e => exact raise_inStep h e

end Machine

namespace Outcome

variable {ω : Type} (t : Terminal (StateM ω)) {host : Host} {o : Outcome}

theorem move_inStep (hhost : host.Blind) (ho : o.Intact Closure.Compiled)
    (h : o.machine.store.Lends A xs) (w : ω) :
    InStep A xs (move t host (o, w)).1 (move t host (o.spare A xs, w)).1 ∧
      (move t host (o.spare A xs, w)).2 = (move t host (o, w)).2 := by
  cases o with
  | running m => exact ⟨m.step_inStep hhost ho h, rfl⟩
  | waiting r m => exact ⟨m.resume_inStep h _, rfl⟩
  | returned | failed | stuck => exact ⟨⟨rfl, h⟩, rfl⟩

/-- A run among compiled functions is the same whether or not a call has further slots, and these
keep their values. -/
theorem after_inStep (hhost : host.Blind) (ho : o.Intact Closure.Compiled)
    (h : o.machine.store.Lends A xs) (w : ω) (n : Nat) :
    InStep A xs (after t host n (o, w)).1 (after t host n (o.spare A xs, w)).1 ∧
      (after t host n (o.spare A xs, w)).2 = (after t host n (o, w)).2 := by
  induction n generalizing o w with
  | zero => exact ⟨⟨rfl, h⟩, rfl⟩
  | succ n ih =>
    obtain ⟨hmove, hworld⟩ := move_inStep t hhost ho h w
    have hpair : move t host (o.spare A xs, w) =
      ((move t host (o, w)).1.spare A xs, (move t host (o, w)).2) :=
      Prod.ext hmove.eq hworld
    rw [after, after, hpair]
    exact ih ((Intact.kept hereditary_compiled).after t host ho w 1) hmove.lends _

/-- The cells of an idle machine stand for slots that there are, and so do those of its runs. -/
theorem Run.linked {m₀ : Machine} (hhost : host.Blind) (hidle : m₀.frames = [])
    (hclosures : ∀ c ∈ m₀.store.closures.toList, c.Compiled) (hlinked : m₀.store.Linked)
    (hr : Run host (.running m₀) o) : o.machine.store.Linked := by
  have hlends : o.machine.store.Lends 0 #[] := by
    induction hr with
    | refl => exact ⟨.inl rfl, hlinked⟩
    | @move o₁ o₂ hr hm ih =>
      have hintact := hr.intact hereditary_compiled (intact_idle hidle hclosures)
      cases hm with
      | step m => exact (m.step_inStep hhost hintact ih).lends
      | answer r m _ => exact (m.resume_inStep ih _).lends
  exact hlends.linked

end Outcome
end Refscript
