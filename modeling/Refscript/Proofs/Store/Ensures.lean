import Refscript.Store.Operation

/-!
# Refscript.Proofs.Store.Ensures

Reasoning about actions on the store, and what all of them leave alone.

* `Action.Ensures x s Q E`: from store `s` the action `x` ends in `Q`, or fails in `E`.
* `Store.Grows new s t`: the functions of `s` are still there in `t`, those added satisfy `new`, and
  every call keeps the number of its slots.
* `Store.Still s t`: no function is added, and every cell stands for the slot that it stood for.
* `Action.Tame`: an action that leaves the store still and whose faults are not the machine's own.
  Everything that reads, writes or computes with values is tame.
-/

namespace Refscript

/-- The faults that only ill-formed code raises. -/
def Fault.isMachine : Fault → Bool
  | stackUnderflow => true
  | invalidInstruction _ => true
  | _ => false

structure Store.Grows (new : Closure → Prop) (s t : Store) : Prop where
  closures : ∃ added, t.closures.toList = s.closures.toList ++ added ∧ ∀ c ∈ added, new c
  slots : ∀ a, a < s.activations.size → a < t.activations.size ∧
    (t.locals a).size = (s.locals a).size

namespace Store
namespace Grows

variable {new : Closure → Prop} {r s t : Store}

theorem refl (s : Store) : Grows new s s :=
  ⟨⟨[], by simp, by simp⟩, fun _ h => ⟨h, rfl⟩⟩

theorem trans (h₁ : Grows new r s) (h₂ : Grows new s t) : Grows new r t := by
  obtain ⟨c₁, he₁, hn₁⟩ := h₁.closures
  obtain ⟨c₂, he₂, hn₂⟩ := h₂.closures
  refine ⟨⟨c₁ ++ c₂, by rw [he₂, he₁, List.append_assoc], ?_⟩, fun a ha => ?_⟩
  · intro c hc
    rcases List.mem_append.1 hc with hc | hc
    · exact hn₁ c hc
    · exact hn₂ c hc
  · obtain ⟨ha₁, hs₁⟩ := h₁.slots a ha
    obtain ⟨ha₂, hs₂⟩ := h₂.slots a ha₁
    exact ⟨ha₂, hs₂.trans hs₁⟩

theorem mono {old : Closure → Prop} (h : Grows old s t) (hn : ∀ c, old c → new c) :
    Grows new s t := by
  obtain ⟨added, he, ha⟩ := h.closures
  exact ⟨⟨added, he, fun c hc => hn c (ha c hc)⟩, h.slots⟩

theorem of_eq (hc : t.closures = s.closures) (ha : t.activations = s.activations) :
    Grows new s t := by
  refine ⟨⟨[], by simp [hc], by simp⟩, fun a h => ?_⟩
  simp only [locals, ha]
  exact ⟨h, trivial⟩

theorem mem_closures (h : Grows new s t) {c : Closure} (hc : c ∈ t.closures.toList) :
    c ∈ s.closures.toList ∨ new c := by
  obtain ⟨added, he, ha⟩ := h.closures
  rw [he] at hc
  rcases List.mem_append.1 hc with hc | hc
  · exact .inl hc
  · exact .inr (ha c hc)

theorem closures_eq (h : Grows (fun _ => False) s t) : t.closures = s.closures := by
  obtain ⟨added, he, hnew⟩ := h.closures
  have hnone : added = [] := List.eq_nil_iff_forall_not_mem.2 hnew
  rw [hnone, List.append_nil] at he
  exact Array.toList_inj.1 he

end Grows

theorem grows_setLocal (s : Store) (a i : Nat) (v : Value) {new : Closure → Prop} :
    Grows new s (s.setLocal a i v) := by
  refine ⟨⟨[], by simp [setLocal], by simp⟩, fun b hb => ?_⟩
  simp only [setLocal, locals, Array.size_modify]
  refine ⟨hb, ?_⟩
  rw [Array.getD_eq_getD_getElem?, Array.getD_eq_getD_getElem?, Array.getElem?_modify]
  split
  · cases s.activations[b]? <;> simp
  · rfl

theorem grows_closeCell (s : Store) (c : CellId) {new : Closure → Prop} :
    Grows new s (s.closeCell c) :=
  .of_eq rfl rfl

theorem grows_addActivation (s : Store) (locals : Array Value) {new : Closure → Prop} :
    Grows new s (s.addActivation locals).2 := by
  refine ⟨⟨[], by simp [addActivation], by simp⟩, fun a ha => ?_⟩
  simp only [addActivation, Store.locals, Array.size_push]
  refine ⟨by omega, ?_⟩
  rw [Array.getD_eq_getD_getElem?, Array.getD_eq_getD_getElem?, Array.getElem?_push,
    if_neg (by omega)]

end Store

/-- The slot that a cell stands for, as long as it is open. -/
def Cell.link? : Cell → Option (ActivationId × Nat)
  | opened a i => some (a, i)
  | closed _ => none

theorem Cell.link?_eq_some_iff {k : Cell} {a i : Nat} :
    k.link? = some (a, i) ↔ k = .opened a i := by
  cases k <;> simp [link?]

structure Store.Still (s t : Store) : Prop extends Grows (fun _ => False) s t where
  cells : t.cells.size = s.cells.size
  links : ∀ c, (t.cell c).link? = (s.cell c).link?

namespace Store

namespace Still

variable {r s t : Store}

theorem refl (s : Store) : Still s s :=
  ⟨.refl s, rfl, fun _ => rfl⟩

theorem trans (h₁ : Still r s) (h₂ : Still s t) : Still r t :=
  ⟨h₁.toGrows.trans h₂.toGrows, h₂.cells.trans h₁.cells, fun c => (h₂.links c).trans (h₁.links c)⟩

theorem of_grows (h : Grows (fun _ => False) s t) (hcells : t.cells = s.cells) : Still s t :=
  ⟨h, congrArg Array.size hcells, fun c => by rw [cell, cell, hcells]⟩

theorem of_eq (hc : t.closures = s.closures) (ha : t.activations = s.activations)
    (hcells : t.cells = s.cells) : Still s t :=
  .of_grows (.of_eq hc ha) hcells

theorem grows (h : Still s t) {new : Closure → Prop} : Grows new s t :=
  h.toGrows.mono fun _ h => h.elim

theorem closures_eq (h : Still s t) : t.closures = s.closures :=
  h.toGrows.closures_eq

theorem opened_iff (h : Still s t) {c : CellId} {a i : Nat} :
    t.cell c = .opened a i ↔ s.cell c = .opened a i := by
  rw [← Cell.link?_eq_some_iff, h.links c, Cell.link?_eq_some_iff]

end Still

theorem still_setLocal (s : Store) (a i : Nat) (v : Value) : Still s (s.setLocal a i v) :=
  .of_grows (s.grows_setLocal a i v) rfl

theorem cell_set (s : Store) (c d : CellId) (k : Cell) (hc : c < s.cells.size) :
    { s with cells := s.cells.setIfInBounds c k }.cell d = if d = c then k else s.cell d := by
  simp only [cell, Array.getD_eq_getD_getElem?, Array.getElem?_setIfInBounds]
  by_cases h : c = d
  · subst h
    simp [hc]
  · rw [if_neg h, if_neg (Ne.symm h)]

theorem cell_addCell (s : Store) (k : Cell) (c : CellId) :
    (s.addCell k).2.cell c = if c = s.cells.size then k else s.cell c := by
  simp only [addCell, cell, Array.getD_eq_getD_getElem?, Array.getElem?_push]
  by_cases h : c = s.cells.size <;> simp [h]

/-- A cell that was never made reads as an open one. -/
theorem lt_of_closed {s : Store} {c : CellId} {v : Value} (h : s.cell c = .closed v) :
    c < s.cells.size := by
  by_cases hc : c < s.cells.size
  · exact hc
  · rw [cell, Array.getD_eq_getD_getElem?, Array.getElem?_eq_none (Nat.le_of_not_lt hc)] at h
    cases h

theorem still_setCell (s : Store) (c : CellId) (v : Value) : Still s (s.setCell c v) := by
  unfold setCell
  split
  · exact s.still_setLocal _ _ v
  · rename_i w hclosed
    refine ⟨.of_eq rfl rfl, by simp, fun d => ?_⟩
    rw [cell_set s c d (.closed v) (lt_of_closed hclosed)]
    split
    · rename_i hd
      rw [hd, hclosed]
      rfl
    · rfl

theorem still_addActivation (s : Store) (locals : Array Value) :
    Still s (s.addActivation locals).2 :=
  .of_grows (s.grows_addActivation locals) rfl

end Store

namespace Action

variable {α β : Type} {x : Action α} {s : Store}

/-- From `s` the action ends in `Q`, or fails in `E`. -/
def Ensures (x : Action α) (s : Store) (Q : α → Store → Prop) (E : Fault → Store → Prop) : Prop :=
  match x s with
  | .ok a t => Q a t
  | .error f t => E f t

variable {Q : α → Store → Prop} {E : Fault → Store → Prop} {f : Fault} {t : Store}

theorem Ensures.ok {a : α} (h : Ensures x s Q E) (hx : x s = .ok a t) : Q a t := by
  unfold Ensures at h
  rw [hx] at h
  exact h

theorem Ensures.error (h : Ensures x s Q E) (hx : x s = .error f t) : E f t := by
  unfold Ensures at h
  rw [hx] at h
  exact h

theorem Ensures.of_error (hx : x s = .error f t) (h : E f t) : Ensures x s Q E := by
  unfold Ensures
  rw [hx]
  exact h

theorem Ensures.imp {Q' : α → Store → Prop} {E' : Fault → Store → Prop} (h : Ensures x s Q E)
    (hq : ∀ a t, Q a t → Q' a t) (he : ∀ f t, E f t → E' f t) : Ensures x s Q' E' := by
  unfold Ensures at *
  split at h
  · exact hq _ _ h
  · exact he _ _ h

theorem ensures_bind {f : α → Action β} {Q : β → Store → Prop} :
    Ensures (x >>= f) s Q E ↔ Ensures x s (fun a t => Ensures (f a) t Q E) E := by
  simp only [Ensures, bind, EStateM.bind]
  cases x s <;> exact Iff.rfl

theorem ensures_map {f : α → β} {Q : β → Store → Prop} :
    Ensures (f <$> x) s Q E ↔ Ensures x s (fun a t => Q (f a) t) E := by
  simp only [Ensures, Functor.map, EStateM.map]
  cases x s <;> exact Iff.rfl

theorem ensures_pure {a : α} : Ensures (pure a) s Q E ↔ Q a s := Iff.rfl

theorem ensures_look {view : Store → α} : Ensures (look view) s Q E ↔ Q (view s) s := Iff.rfl

theorem ensures_adding {add : Store → α × Store} :
    Ensures (adding add) s Q E ↔ Q (add s).1 (add s).2 := Iff.rfl

theorem ensures_reading {look : Store → Except Fault α} :
    Ensures (reading look) s Q E ↔ (∀ a, look s = .ok a → Q a s) ∧ ∀ f,
      look s = .error f → E f s := by
  simp only [Ensures, reading]
  cases look s <;> simp

theorem ensures_ofExcept {r : Except Fault α} :
    Ensures (ofExcept r) s Q E ↔ (∀ a, r = .ok a → Q a s) ∧ ∀ f, r = .error f → E f s := by
  simp only [Ensures, ofExcept]
  cases r <;> simp

/-- The result is no fault of the machine's own. -/
def Harmless (r : Except Fault α) : Prop :=
  ∀ f, r = .error f → f.isMachine = false

/-- The action leaves the store still, and its faults are not the machine's own. -/
def Tame (x : Action α) : Prop :=
  ∀ s, Ensures x s (fun _ t => s.Still t) fun f t => f.isMachine = false ∧ s.Still t

theorem Harmless.ok (a : α) : Harmless (.ok a) :=
  fun _ h => nomatch h

theorem Harmless.error (h : f.isMachine = false) : Harmless (.error f : Except Fault α) := by
  rintro _ ⟨⟩
  exact h

theorem Harmless.bind {r : Except Fault α} {f : α → Except Fault β} (h : Harmless r)
    (hf : ∀ a, Harmless (f a)) : Harmless (r >>= f) := by
  cases r with
  | ok a => exact hf a
  | error e => exact .error (h e rfl)

theorem Harmless.map {r : Except Fault α} (h : Harmless r) (f : α → β) : Harmless (r.map f) := by
  cases r with
  | ok a => exact .ok (f a)
  | error e => exact .error (h e rfl)

theorem Tame.pure (a : α) : Tame (Pure.pure a) :=
  fun s => .refl s

theorem Tame.look (view : Store → α) : Tame (look view) :=
  fun s => .refl s

theorem Tame.reading {view : Store → Except Fault α} (h : ∀ s, Harmless (view s)) :
    Tame (reading view) :=
  fun s => ensures_reading.2 ⟨fun _ _ => .refl s, fun f hf => ⟨h s f hf, .refl s⟩⟩

theorem Tame.ofExcept {r : Except Fault α} (h : Harmless r) : Tame (ofExcept r) :=
  fun s => ensures_ofExcept.2 ⟨fun _ _ => .refl s, fun f hf => ⟨h f hf, .refl s⟩⟩

theorem Tame.bind {f : α → Action β} (hx : Tame x) (hf : ∀ a, Tame (f a)) : Tame (x >>= f) := by
  intro s
  rw [ensures_bind]
  refine (hx s).imp (fun a t hst => ?_) fun e t h => h
  exact (hf a t).imp (fun _ u htu => hst.trans htu) fun e u h => ⟨h.1, hst.trans h.2⟩

theorem Tame.map {f : α → β} (hx : Tame x) : Tame (f <$> x) := by
  intro s
  rw [ensures_map]
  exact hx s

end Action

namespace Store

open Refscript.Action

theorem harmless_readField (s : Store) (target : Value) (name : String) :
    Harmless (s.readField target name) := by
  unfold readField
  split
  · exact .ok _
  · exact .error rfl

theorem harmless_position (s : Store) (target : Value) (key : Number) (length : Nat) :
    Harmless (s.position target key length) := by
  unfold position
  split
  · split
    · exact .error rfl
    · exact .ok _
  · exact .error rfl

theorem harmless_readIndex (s : Store) (target key : Value) :
    Harmless (s.readIndex target key) := by
  unfold readIndex
  split
  · exact (s.harmless_position _ _ _).bind fun _ => .ok _
  · exact (s.harmless_position _ _ _).bind fun _ => .ok _
  · exact (s.harmless_position _ _ _).bind fun _ => .ok _
  · exact s.harmless_readField _ _
  · exact s.harmless_readField _ _
  · exact s.harmless_readField _ _
  · exact .error rfl

theorem harmless_read (s : Store) (place : Place) : Harmless (s.read place) := by
  cases place with
  | global name | loc c | outer c => exact .ok _
  | element target key => exact s.harmless_readIndex target key
  | field target name => exact s.harmless_readField target name

theorem harmless_derefWithin (s : Store) (n : Nat) (v : Value) : Harmless (s.derefWithin n v) := by
  induction n generalizing v with
  | zero =>
    unfold derefWithin
    split
    · exact .error rfl
    · exact .ok _
  | succ n ih =>
    unfold derefWithin
    split
    · rename_i place
      have hread := s.harmless_read place
      dsimp only
      cases hr : s.read place with
      | ok w => exact ih w
      | error e => exact .error (hread e hr)
    · exact .ok _

theorem harmless_deref (s : Store) (v : Value) : Harmless (s.deref v) :=
  s.harmless_derefWithin maxChain v

theorem derefWithin_of_plain (s : Store) {v : Value} (hv : ∀ id place, v ≠ .ref id place)
    (n : Nat) : s.derefWithin n v = .ok v := by
  rw [derefWithin]
  exact hv

theorem deref_of_plain (s : Store) {v : Value} (hv : ∀ id place, v ≠ .ref id place) :
    s.deref v = .ok v :=
  s.derefWithin_of_plain hv maxChain

theorem harmless_derefAll (s : Store) (vs : List Value) : Harmless (s.derefAll vs) := by
  induction vs with
  | nil => exact .ok _
  | cons v vs ih =>
    simp only [derefAll, List.mapM_cons]
    exact (s.harmless_deref v).bind fun _ => ih.bind fun _ => .ok _

theorem harmless_locateField (s : Store) (target : Value) (name : String) :
    Harmless (s.locateField target name) := by
  unfold locateField
  split
  · exact .ok _
  · exact .ok _
  · exact .ok _
  · exact .error rfl

theorem harmless_locateIndex (s : Store) (target key : Value) :
    Harmless (s.locateIndex target key) := by
  unfold locateIndex
  split
  · exact (s.harmless_position _ _ _).map _
  · exact .error rfl
  · exact .error rfl
  · exact s.harmless_locateField _ _
  · exact s.harmless_locateField _ _
  · exact s.harmless_locateField _ _
  · exact .error rfl

theorem harmless_locate (s : Store) (place : Place) : Harmless (s.locate place) := by
  cases place with
  | global name | loc c | outer c => exact .ok _
  | element target key => exact s.harmless_locateIndex target key
  | field target name => exact s.harmless_locateField target name

theorem tame_put (l : Location) (v : Value) : Tame (put l v) := by
  intro s
  cases l with
  | slot a i => exact s.still_setLocal a i v
  | cell c => exact s.still_setCell c v
  | method id name =>
    unfold Ensures put
    cases s.invocable v with
    | true => exact .of_eq rfl rfl rfl
    | false => exact ⟨rfl, .refl s⟩
  | _ => exact .of_eq rfl rfl rfl

theorem tame_overwrite (place : Place) (v : Value) : Tame (overwrite place v) :=
  (Tame.reading (harmless_locate · place)).bind fun l => tame_put l v

theorem tame_assign (l : Location) (v : Value) : Tame (assign l v) := by
  refine (Tame.look _).bind fun held => ?_
  split
  · exact tame_overwrite _ v
  · exact tame_put l v

theorem tame_newList (items : Store → Array Value) : Tame (adding fun s => s.newList (items s)) :=
  fun _ => .of_eq rfl rfl rfl

theorem harmless_onNumbers (op : Operator) (a b : Number) :
    Harmless (Operation.onNumbers op a b) := by
  cases op with
  | slash | doubleSlash | percent =>
    -- the operations that fail when the divisor is zero
    simp only [Operation.onNumbers]
    split
    · exact .ok _
    · exact .error rfl
  | _ => exact .ok _

theorem harmless_repeatText (text : String) (n : Int64) :
    Harmless (Operation.repeatText text n) := by
  simp only [Operation.repeatText]
  split
  · exact .ok _
  · exact .error rfl

theorem harmless_range (a b : Int64) : Harmless (Operation.range a b) := by
  simp only [Operation.range]
  split
  · exact .error rfl
  · split
    · exact .ok _
    · exact .ok _

theorem tame_operate (op : Operator) (left right : Value) : Tame (operate op left right) := by
  unfold operate
  split
  · exact Tame.look _
  · exact (Tame.ofExcept (harmless_range _ _)).bind fun items => (tame_newList _).map
  · exact Tame.ofExcept (harmless_onNumbers _ _ _)
  · exact Tame.look _
  · exact Tame.look _
  · exact Tame.ofExcept ((harmless_repeatText _ _).map _)
  · exact (tame_newList _).map
  · exact Tame.pure _
  · exact Tame.pure _

theorem tame_plainInfix (op : String) (left right : Value) : Tame (plainInfix op left right) := by
  unfold plainInfix
  extract_lets finish
  have hfinish : ∀ result, Tame (finish result) := by
    intro result
    cases result with
    | some v => exact Tame.pure v
    | none => exact Tame.reading fun s => .error rfl
  split
  · exact (Tame.look _).bind hfinish
  · exact (Tame.look _).bind hfinish
  · exact (tame_operate _ left right).bind hfinish
  · exact (Tame.pure _).bind hfinish

theorem tame_applyInfix (op : String) (left right : Value) : Tame (applyInfix op left right) := by
  unfold applyInfix
  refine (Tame.reading (harmless_deref · left)).bind fun l => ?_
  refine (Tame.reading (harmless_deref · right)).bind fun r => ?_
  refine (Tame.look _).bind fun own => ?_
  split
  · exact Tame.pure _
  · exact (tame_plainInfix op l r).bind fun v => Tame.pure _

theorem harmless_plainPrefix (s : Store) (op : String) (operand : Value) :
    Harmless (s.plainPrefix op operand) := by
  unfold plainPrefix
  split
  · exact .ok _
  · exact .ok _
  · exact .ok _
  · exact .error rfl

theorem harmless_applyPrefix (s : Store) (op : String) (operand : Value) :
    Harmless (s.applyPrefix op operand) := by
  unfold applyPrefix
  refine (s.harmless_deref operand).bind fun v => ?_
  split
  · exact .ok _
  · exact (s.harmless_plainPrefix op v).bind fun _ => .ok _

end Store
end Refscript
