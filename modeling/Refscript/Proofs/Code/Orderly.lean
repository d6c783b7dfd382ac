import Mathlib.Data.List.Nodup
import Refscript.Proofs.Code.Walk

/-!
# Refscript.Proofs.Code.Orderly

The locals and captured variables of functions that are being built: the local at place `i` has slot
`i`, and neither two locals in scope nor two captured variables have the same name. No step of
lowering breaks this, for whatever program, with or without mistakes in it, and whether the step
succeeds or not.

* `Builder.Orderly`, and `Lower.State.Orderly` for the function at hand and all those around it.
* `Lower.Guards`: a step of lowering that keeps order.
* `Lower.walk_guards`: this passes from steps to sequences of steps, to functions and to blocks.
* `Lower.guards_node`: lowering a node keeps order.
-/

namespace Refscript

namespace Builder

/-- The locals in scope and the captured variables of a function that is being built are in
order. -/
structure Orderly (b : Builder) : Prop where
  slots : ∀ (i : Nat) (l : LocalInfo), b.active[i]? = some l → l.slot = i
  locals : (b.active.map LocalInfo.name).Nodup
  outers : (b.outers.map OuterInfo.name).Nodup

namespace Orderly

variable {b c : Builder} {name : String}

theorem new (name : Option String) : (Builder.new name).Orderly :=
  ⟨nofun, .nil, .nil⟩

theorem congr (h : b.Orderly) (hactive : c.active = b.active) (houters : c.outers = b.outers) :
    c.Orderly := by
  refine ⟨?_, ?_, ?_⟩
  · rw [hactive]
    exact h.slots
  · rw [hactive]
    exact h.locals
  · rw [houters]
    exact h.outers

theorem addLocal (h : b.Orderly) {slot : Nat} (hadd : b.addLocal? name = some (slot, c)) :
    c.Orderly := by
  unfold addLocal? at hadd
  split at hadd
  · cases hadd
  · rename_i hnew
    cases hadd
    refine ⟨fun i l hl => ?_, ?_, h.outers⟩
    · rcases Nat.lt_trichotomy i b.active.length with hi | rfl | hi
      · exact h.slots i l ((List.getElem?_append_left hi).symm.trans hl)
      · simp only [List.getElem?_concat_length, Option.some.injEq] at hl
        rw [← hl]
      · rw [List.getElem?_eq_none (by simp; omega)] at hl
        cases hl
    · rw [List.map_append, List.map_singleton, ← List.concat_eq_append]
      refine h.locals.concat fun hmem => hnew ?_
      obtain ⟨l, hl, hname⟩ := List.mem_map.1 hmem
      exact List.any_eq_true.2 ⟨l, hl, by simpa using hname⟩

theorem addParameter (h : b.Orderly) {slot : Nat} (hadd : b.addParameter? name = some (slot, c)) :
    c.Orderly := by
  obtain ⟨⟨slot', b'⟩, hlocal, heq⟩ := Option.map_eq_some_iff.1 hadd
  cases heq
  exact (h.addLocal hlocal).congr rfl rfl

theorem map_name_markCapturedIn (slot : Nat) (ls : List LocalInfo) :
    (markCapturedIn slot ls).map LocalInfo.name = ls.map LocalInfo.name := by
  induction ls with
  | nil => rfl
  | cons l ls ih =>
    rw [markCapturedIn]
    split
    · rfl
    · rw [List.map_cons, List.map_cons, ih]

theorem markCaptured (h : b.Orderly) (slot : Nat) : (b.markCaptured slot).Orderly := by
  refine ⟨fun i l hl => ?_, ?_, h.outers⟩
  · have hslot : ((markCapturedIn slot b.active).map LocalInfo.slot)[i]? = some l.slot := by
      rw [List.getElem?_map, show (markCapturedIn slot b.active)[i]? = some l from hl,
        Option.map_some]
    rw [map_slot_markCapturedIn, List.getElem?_map] at hslot
    obtain ⟨l', hl', heq⟩ := Option.map_eq_some_iff.1 hslot
    rw [← heq]
    exact h.slots i l' hl'
  · exact (map_name_markCapturedIn slot b.active).symm ▸ h.locals

theorem take (h : b.Orderly) (n : Nat) (hactive : c.active = b.active.take n)
    (houters : c.outers = b.outers) : c.Orderly := by
  refine ⟨fun i l hl => ?_, ?_, ?_⟩
  · rw [hactive, List.getElem?_take] at hl
    split at hl
    · exact h.slots i l hl
    · cases hl
  · rw [hactive, List.map_take]
    exact h.locals.sublist (List.take_sublist _ _)
  · rw [houters]
    exact h.outers

theorem pushOuter (h : b.Orderly) (hnew : b.outerPosition? name = none) (position : Nat)
    (kind : OuterKind) : (b.pushOuter name position kind).2.Orderly := by
  refine ⟨h.slots, h.locals, ?_⟩
  rw [Builder.pushOuter, List.map_append, List.map_singleton, ← List.concat_eq_append]
  refine h.outers.concat fun hmem => ?_
  obtain ⟨o, ho, hname⟩ := List.mem_map.1 hmem
  exact absurd hname (by simpa using List.findIdx?_eq_none_iff.1 hnew o ho)

end Orderly

/-- Capturing a variable keeps the function and those around it in order. -/
theorem resolveOuter?_orderly {name : String} {position : Nat} {b c : Builder}
    {ps qs : List Builder} (hb : b.Orderly) (hps : ∀ p ∈ ps, p.Orderly)
    (h : b.resolveOuter? name ps = some (position, c, qs)) : c.Orderly ∧ ∀ q ∈ qs, q.Orderly := by
  induction ps generalizing b position c qs with
  | nil =>
    unfold resolveOuter? at h
    split at h
    · cases h
      exact ⟨hb, hps⟩
    · cases h
  | cons p ps ih =>
    obtain ⟨hp, hps'⟩ := List.forall_mem_cons.1 hps
    unfold resolveOuter? at h
    split at h
    · cases h
      exact ⟨hb, hps⟩
    · rename_i hnew
      simp only at h
      split at h
      · cases h
        exact ⟨hb.pushOuter hnew _ _, List.forall_mem_cons.2 ⟨hp.markCaptured _, hps'⟩⟩
      · split at h
        · cases h
        · rename_i outer p' ps' hrest
          cases h
          exact ⟨hb.pushOuter hnew _ _, List.forall_mem_cons.2 (ih hp hps' hrest)⟩

end Builder

theorem Builder.Orderly.leftBy {α : Type} {x : Build α} {b : Builder} (h : b.Orderly)
    (hx : x.Quiet) : (leftBy x b).Orderly :=
  h.congr (hx b).active (hx b).outers

namespace Lower

/-- The function at hand and all functions around it are in order. -/
def State.Orderly (s : State) : Prop :=
  ∀ b ∈ s.builder :: s.enclosing, b.Orderly

theorem State.orderly_start : State.start.Orderly :=
  List.forall_mem_cons.2 ⟨.new _, nofun⟩

/-- The step keeps order, even where it fails. -/
def Guards {α : Type} (x : LowerM α) : Prop :=
  ∀ s, s.Orderly → (leftBy x s).Orderly

section

variable {α β : Type} {x : LowerM α} {s : State}

theorem Guards.bind {f : α → LowerM β} (hx : Guards x) (hf : ∀ a, Guards (f a)) :
    Guards (x >>= f) :=
  fun s hs => leftBy_bind (hx s hs) fun a t ht => hf a t ht

theorem leftBy_build (x : Build α) (s : State) :
    leftBy (build x) s = { s with builder := leftBy x s.builder } := by
  obtain ⟨b, enclosing, ds⟩ := s
  unfold leftBy build
  dsimp only
  cases x b <;> rfl

theorem guards_build {x : Build α} (hx : ∀ b, b.Orderly → (leftBy x b).Orderly) :
    Guards (build x) := by
  intro s hs
  obtain ⟨hb, henclosing⟩ := List.forall_mem_cons.1 hs
  rw [leftBy_build]
  exact List.forall_mem_cons.2 ⟨hx _ hb, henclosing⟩

theorem guards_endScope : Guards (build .endScope) := by
  refine guards_build fun b hb => ?_
  unfold Build.endScope
  rw [leftBy_get]
  split
  · exact hb
  · rename_i base scopes _
    refine leftBy_bind (P := Builder.Orderly) (hb.take base rfl rfl) fun _ c hc => ?_
    have hretire : ∀ c : Builder, c.Orderly →
      (leftBy (modify (·.retire (b.active.drop base)) : Build Unit) c).Orderly :=
      fun c hc => hc.congr rfl rfl
    dsimp only
    split
    · have hclose := hc.leftBy (Build.routine_sameNames.emitUnit 0 0 (.wide .closeOuters base))
      exact leftBy_bind (P := Builder.Orderly) hclose fun _ c hc => hretire c hc
    · exact hretire c hc

theorem guards_resolve (name : String) : Guards (resolve name) := by
  rintro ⟨b, enclosing, ds⟩ hs
  obtain ⟨hb, henclosing⟩ := List.forall_mem_cons.1 hs
  unfold leftBy resolve
  dsimp only
  cases b.localSlot? name with
  | some slot => exact hs
  | none =>
    dsimp only
    cases houter : b.resolveOuter? name enclosing with
    | none => exact hs
    | some r => exact List.forall_mem_cons.2 (Builder.resolveOuter?_orderly hb henclosing houter)

theorem guards_declareLocal (name : String) (pos : Position) : Guards (declareLocal name pos) := by
  intro s hs
  obtain ⟨hb, henclosing⟩ := List.forall_mem_cons.1 hs
  unfold declareLocal
  rw [leftBy_get]
  split
  · rename_i slot b hadd
    exact List.forall_mem_cons.2 ⟨hb.addLocal hadd, henclosing⟩
  · exact hs

theorem guards_declareParameter (pos : Position) (name : String) :
    Guards (declareParameter pos name) := by
  intro s hs
  obtain ⟨hb, henclosing⟩ := List.forall_mem_cons.1 hs
  unfold declareParameter
  rw [leftBy_get]
  split
  · rename_i slot b hadd
    exact List.forall_mem_cons.2 ⟨hb.addParameter hadd, henclosing⟩
  · exact hs

theorem guards_declareBinding (name : String) (pos : Position) :
    Guards (declareBinding name pos) := by
  have hroot : Guards isRoot := fun _ hs => hs
  refine hroot.bind fun root => ?_
  cases root with
  | true => exact fun _ hs => hs
  | false => exact guards_declareLocal name pos

end

theorem steps_guards : Steps fun _ _ x _ => Guards x where
  pure _ _ hs := hs
  bind hx hf := hx.bind hf
  get _ hs := hs
  quiet hx := guards_build fun _ hb => hb.leftBy hx
  report _ _ hs := hs
  resolve := guards_resolve
  markCaptured slot := guards_build fun _ hb => hb.markCaptured slot
  declareLocal := guards_declareLocal
  declareParameter := guards_declareParameter
  declareBinding := guards_declareBinding

theorem guards_enter (name : Option String) (pos : Position) (params : List String)
    (variadic : Bool) : Guards (enter name pos params variadic) := by
  have hnew : Guards
    (modify fun s => { s with builder := .new name, enclosing := s.builder :: s.enclosing }) :=
    fun s hs => List.forall_mem_cons.2 ⟨.new name, hs⟩
  exact hnew.bind fun _ => steps_guards.setUp false pos params variadic

theorem guards_leave (pos : Position) : Guards (leave pos) := by
  refine (steps_guards.checkSize false pos).bind fun _ => ?_
  rintro ⟨b, enclosing, ds⟩ hs
  cases enclosing with
  | nil => exact List.forall_mem_cons.2 ⟨.new none, nofun⟩
  | cons parent rest => exact (List.forall_mem_cons.1 hs).2

theorem walk_guards : Walk fun _ _ x _ => Guards x where
  toSteps := steps_guards
  within name pos params variadic hbody :=
    (guards_enter name pos params variadic).bind fun _ => hbody.bind fun _ => guards_leave pos
  block hbody := by
    have hstart : Guards (build .startScope) := guards_build fun _ hb => hb.congr rfl rfl
    exact hstart.bind fun _ => hbody.bind fun _ => guards_endScope
  condition h := h

/-- Lowering a node keeps order in the function at hand and in all those around it. -/
theorem guards_node (n : Node) : Guards (node n) :=
  walk_guards.node n true

end Lower
end Refscript
