import Refscript.Proofs.Code.StraightLine
import Refscript.Proofs.Code.Walk

/-!
# Refscript.Proofs.Code.Commands

All calls on a builder, in any order. What matters here of a builder is its code, the line of each
instruction, the line that is set and the pool of constants.

* `Build.Command`, `Build.performAll`: the calls, and sequences of them.
* `Builder.Extends`: instructions were added on the line that was set, and the pool has only grown.
  So it is after every call, except that `setLine` sets another line and `patchJump` changes an
  operand (`Command.performed`).
* `Builder.Pools`: the pool keeps what it has, and has no constant twice if it had none.
* `insn_of_performAll`: an instruction stays what it is, but for an operand that `patchJump`
  changes.
-/

namespace Refscript

namespace Build

/-- The calls on a builder. What a call gives back is dropped; a declaration that is refused changes
nothing. -/
inductive Command where
  | setLine (line : Nat)
  | setVariadic
  | addParameter (name : String)
  | addLocal (name : String)
  | markCaptured (slot : Nat)
  | pushOuter (name : String) (position : Nat) (kind : OuterKind)
  | startScope
  | endScope
  | setHeight (height : Nat)
  | addConstant (c : Constant)
  | addNested (p : Prototype)
  | reserveTable
  | fillTable (i : Nat) (t : JumpTable)
  | patchJump (site target : Nat)
  | jump (target : Nat)
  | jumpTrue (target : Nat)
  | jumpFalse (target : Nat)
  | and (target : Nat)
  | or (target : Nat)
  | matchOn (table : Nat)
  | ret
  | emission {x : Build Unit} (h : Emission x)

namespace Command

def perform : Command → Build Unit
  | setLine line => Build.setLine line
  | setVariadic => modify fun b => { b with variadic := true }
  | addParameter name => modify fun b => ((b.addParameter? name).map Prod.snd).getD b
  | addLocal name => modify fun b => ((b.addLocal? name).map Prod.snd).getD b
  | markCaptured slot => modify (·.markCaptured slot)
  | pushOuter name position kind => modify fun b => (b.pushOuter name position kind).2
  | startScope => Build.startScope
  | endScope => Build.endScope
  | setHeight height => Build.setHeight height
  | addConstant c => do let _ ← constant c
  | addNested p => modify fun b => (b.addNested p).2
  | reserveTable => modify fun b => b.reserveTable.2
  | fillTable i t => modify (·.fillTable i t)
  | patchJump site target => Build.patchJump site target
  | jump target => do let _ ← Build.jump target
  | jumpTrue target => do let _ ← Build.jumpTrue target
  | jumpFalse target => do let _ ← Build.jumpFalse target
  | and target => do let _ ← Build.and target
  | or target => do let _ ← Build.or target
  | matchOn table => Build.matchOn table
  | ret => Build.ret
  | @emission x _ => x

/-- The line that the call sets. -/
def line? : Command → Option Nat
  | setLine line => some line
  | _ => none

end Command

/-- Calls one after the other. -/
def performAll : List Command → Build Unit
  | [] => return
  | x :: xs => do
    x.perform
    performAll xs

end Build

namespace Builder

/-- The pool has only grown, and not by what it had. -/
structure Pools (b c : Builder) : Prop where
  kept : b.constants.toList <+: c.constants.toList
  nodup : b.constants.toList.Nodup → c.constants.toList.Nodup

/-- Instructions were added, all on the line that was set. -/
structure Extends (b c : Builder) (is : List Insn) : Prop where
  code : c.code.toList = b.code.toList ++ is
  lines : c.lines = is.foldl (fun t _ => t.push b.line) b.lines
  line : c.line = b.line
  pool : b.Pools c

variable {b c d : Builder} {is js : List Insn}

theorem Pools.refl (b : Builder) : b.Pools b :=
  ⟨List.prefix_refl _, id⟩

theorem Pools.trans (h : b.Pools c) (h' : c.Pools d) : b.Pools d :=
  ⟨h.kept.trans h'.kept, fun hb => h'.nodup (h.nodup hb)⟩

theorem pools_addConstant (b : Builder) (k : Constant) : b.Pools (b.addConstant k).2 := by
  unfold addConstant
  split
  · exact .refl b
  · rename_i hnew
    have hk : k ∉ b.constants.toList := fun hmem => by
      have := Array.findIdx?_eq_none_iff.1 hnew k (Array.mem_toList_iff.1 hmem)
      simp at this
    refine ⟨by simp, fun hb => ?_⟩
    rw [Array.toList_push]
    exact List.nodup_append.2
      ⟨hb, by simp, by simpa using fun a ha => (fun h => hk (h ▸ ha) : a ≠ k)⟩

namespace Extends

theorem of_same (hcode : c.code = b.code) (hlines : c.lines = b.lines) (hline : c.line = b.line)
    (hconstants : c.constants = b.constants) : b.Extends c [] := by
  refine ⟨by rw [hcode, List.append_nil], hlines, hline, hconstants ▸ List.prefix_refl _, ?_⟩
  rw [hconstants]
  exact id

theorem trans (h : b.Extends c is) (h' : c.Extends d js) : b.Extends d (is ++ js) := by
  refine ⟨?_, ?_, h'.line.trans h.line, h.pool.trans h'.pool⟩
  · rw [h'.code, h.code, List.append_assoc]
  · rw [h'.lines, h.lines, h.line, List.foldl_append]

end Extends

end Builder

namespace Build

/-- The step adds instructions on the line that is set, if it does anything to code or lines. -/
abbrev Extending {α : Type} (x : Build α) : Prop :=
  Respects (fun b c => ∃ is, b.Extends c is) x

theorem routine_extends : Routine fun b c => ∃ is, b.Extends c is where
  refl _ := ⟨[], .of_same rfl rfl rfl rfl⟩
  trans := by
    rintro b c d ⟨is, his⟩ ⟨js, hjs⟩
    exact ⟨is ++ js, his.trans hjs⟩
  height _ _ := ⟨[], .of_same rfl rfl rfl rfl⟩
  push _ _ i := ⟨[i], Array.toList_push, rfl, rfl, List.prefix_refl _, id⟩
  constant b c := by
    refine ⟨[], ?_, ?_, ?_, b.pools_addConstant c⟩
    · rw [Builder.addConstant_eq, List.append_nil]
    · rw [Builder.addConstant_eq]
      rfl
    · rw [Builder.addConstant_eq]
  nested _ _ := ⟨[], .of_same rfl rfl rfl rfl⟩
  types _ _ := ⟨[], .of_same rfl rfl rfl rfl⟩

theorem extending_modifyGet {α : Type} {f : Builder → α × Builder}
    (hcode : ∀ b, (f b).2.code = b.code) (hlines : ∀ b, (f b).2.lines = b.lines)
    (hline : ∀ b, (f b).2.line = b.line) (hconstants : ∀ b, (f b).2.constants = b.constants) :
    Extending (modifyGet f) :=
  fun b => ⟨[], .of_same (hcode b) (hlines b) (hline b) (hconstants b)⟩

theorem extending_endScope : Extending endScope := by
  intro b
  unfold endScope
  rw [leftBy_get]
  split
  · exact routine_extends.refl b
  · rename_i base scopes _
    have hretire : Extending (modify (·.retire (b.active.drop base)) : Build Unit) :=
      extending_modifyGet (fun _ => rfl) (fun _ => rfl) (fun _ => rfl) fun _ => rfl
    refine leftBy_bind (P := fun c : Builder => ∃ is, b.Extends c is) ⟨[], .of_same rfl rfl rfl rfl⟩
      fun _ c hc => ?_
    refine routine_extends.trans hc ?_
    dsimp only
    split
    · exact routine_extends.bind (routine_extends.emitUnit 0 0 (.wide .closeOuters base))
        (fun _ => hretire) c
    · exact hretire c

theorem Emission.extending {x : Build Unit} (h : Emission x) : Extending x := by
  cases h with
  | pop | dup | dup2 | closeOuters | loadLocal | storeLocal | initLocal | loadOuter
      | storeOuter | loadIndex
  | storeIndex | null | bool | list | tuple | this | invoke | eq | not | refLocal | refOuter
      | refIndex | deref
  | storeDeref => exact routine_extends.emitUnit _ _ _
  | loadGlobal | storeGlobal | loadField | storeField | string | invokeMethod | prefixOp
      | infixOp | refGlobal
  | refField => exact routine_extends.pooled _ _ _ _
  | int i => exact routine_extends.int i
  | float d => exact routine_extends.float d
  | closure p => exact routine_extends.closure p
  | makeType t => exact routine_extends.makeType t

namespace Command

/-- What a call can do: set the line, change the operand of an instruction, or add instructions on
the line set. -/
inductive Performed (b : Builder) : Command → Builder → Prop where
  | setLine (line : Nat) : Performed b (.setLine line) { b with line := line }
  | patchJump (site target : Nat) : Performed b (.patchJump site target) (b.patch site target)
  | other {x : Command} {c : Builder} {is : List Insn} : x.line? = none → b.Extends c is →
      Performed b x c

theorem performed_other {x : Command} {b c : Builder} (hline : x.line? = none)
    (hx : Extending x.perform) (h : x.perform b = .ok () c) : Performed b x c := by
  obtain ⟨is, his⟩ := hx b
  rw [leftBy, h] at his
  exact .other hline his

theorem performed {x : Command} {b c : Builder} (h : x.perform b = .ok () c) : Performed b x c := by
  cases x with
  | setLine line =>
    cases h
    exact .setLine line
  | patchJump site target =>
    cases h
    exact .patchJump site target
  | setVariadic | markCaptured | pushOuter | startScope | setHeight | addNested | reserveTable
    | fillTable =>
    exact performed_other rfl
      (extending_modifyGet (fun _ => rfl) (fun _ => rfl) (fun _ => rfl) fun _ => rfl) h
  | addParameter name =>
    refine performed_other rfl (fun b => ⟨[], ?_⟩) h
    show b.Extends (((b.addParameter? name).map Prod.snd).getD b) []
    unfold Builder.addParameter? Builder.addLocal?
    split
    · exact .of_same rfl rfl rfl rfl
    · exact .of_same rfl rfl rfl rfl
  | addLocal name =>
    refine performed_other rfl (fun b => ⟨[], ?_⟩) h
    show b.Extends (((b.addLocal? name).map Prod.snd).getD b) []
    unfold Builder.addLocal?
    split
    · exact .of_same rfl rfl rfl rfl
    · exact .of_same rfl rfl rfl rfl
  | endScope => exact performed_other rfl extending_endScope h
  | addConstant c =>
    exact performed_other rfl
      (routine_extends.bind (fun b => routine_extends.constant b c) fun _ => routine_extends.refl) h
  | jump | jumpTrue | jumpFalse | and | or =>
    exact performed_other rfl
      (routine_extends.bind (routine_extends.emit _ _ _) fun _ => routine_extends.refl) h
  | matchOn | ret => exact performed_other rfl (routine_extends.emitUnit _ _ _) h
  | emission hx => exact performed_other rfl hx.extending h

end Command

theorem performAll_cons {x : Command} {xs : List Command} {b d : Builder}
    (h : performAll (x :: xs) b = .ok () d) :
    ∃ c, x.perform b = .ok () c ∧ performAll xs c = .ok () d := by
  simp only [performAll, bind, EStateM.bind] at h
  split at h
  · rename_i c hx
    exact ⟨c, hx, h⟩
  · cases h

variable {x : Command} {xs : List Command} {b c d : Builder}

theorem Command.Performed.pools (h : Performed b x c) : b.Pools c := by
  cases h with
  | setLine => exact ⟨List.prefix_refl _, id⟩
  | patchJump site target =>
    rw [Builder.patch_eq]
    exact ⟨List.prefix_refl _, id⟩
  | other _ hext => exact hext.pool

/-- An instruction stays, but for an operand that a call changes. -/
theorem Command.Performed.insn (h : Performed b x c) {k : Nat} {i : Insn}
    (hi : b.code[k]? = some i) :
    ∃ a, c.code[k]? = some { i with a := a } ∧ ((∀ target, x ≠ .patchJump k target) → a = i.a) := by
  cases h with
  | setLine => exact ⟨i.a, hi, fun _ => rfl⟩
  | patchJump site target =>
    rw [Builder.getElem?_patch, hi]
    by_cases hk : k = site
    · exact ⟨target, by rw [if_pos hk, Option.map_some], fun hx => absurd (by rw [hk]) (hx target)⟩
    · exact ⟨i.a, by rw [if_neg hk], fun _ => rfl⟩
  | other _ hext =>
    refine ⟨i.a, ?_, fun _ => rfl⟩
    rw [← Array.getElem?_toList] at hi ⊢
    rw [hext.code, List.getElem?_append_left (List.getElem?_eq_some_iff.1 hi).1, hi]

theorem pools_of_performAll (h : performAll xs b = .ok () d) : b.Pools d := by
  induction xs generalizing b with
  | nil =>
    cases h
    exact .refl _
  | cons x xs ih =>
    obtain ⟨c, hx, hxs⟩ := performAll_cons h
    exact (Command.performed hx).pools.trans (ih hxs)

theorem insn_of_performAll (h : performAll xs b = .ok () d) {k : Nat} {i : Insn}
    (hi : b.code[k]? = some i) : ∃ a, d.code[k]? = some { i with a := a } ∧
      ((∀ target, .patchJump k target ∉ xs) → a = i.a) := by
  induction xs generalizing b i with
  | nil =>
    cases h
    exact ⟨i.a, hi, fun _ => rfl⟩
  | cons x xs ih =>
    obtain ⟨c, hx, hxs⟩ := performAll_cons h
    obtain ⟨a, hc, ha⟩ := (Command.performed hx).insn hi
    obtain ⟨a', hd, ha'⟩ := ih hxs hc
    refine ⟨a', hd, fun hnone => ?_⟩
    rw [ha' fun target hmem => hnone target (List.mem_cons_of_mem _ hmem)]
    exact ha fun target heq => hnone target (by rw [heq]; exact List.mem_cons_self)

def succeeds (x : Build Unit) (b : Builder) : Bool :=
  match x b with
  | .ok _ _ => true
  | .error _ _ => false

theorem eq_ok {x : Build Unit} {b : Builder} (h : succeeds x b = true) :
    x b = .ok () (leftBy x b) := by
  unfold succeeds at h
  unfold leftBy
  split at h
  · rename_i c hrun
    rw [hrun]
  · cases h

end Build
end Refscript
