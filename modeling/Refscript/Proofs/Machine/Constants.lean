import Refscript.Proofs.Code.Commands
import Refscript.Proofs.Machine.Definition
import Refscript.Proofs.Number.Small

/-!
# Refscript.Proofs.Machine.Constants

The literals of a built function. Some numbers have an instruction of their own; the other literals
are kept in the pool of constants.

* `literal_of_short?`, `literal_of_pooled`: what the call for a literal emits.
* `Frame.reads_short`, `Frame.reads_const`: what such an instruction pushes.
* `literals_faithful`: after any other calls it pushes the very literal, unless a call has given the
  instruction another operand (`literal_patched`).
-/

namespace Refscript

namespace Build

/-- The call for a literal. -/
def literal : Constant → Build Unit
  | .int i => int i
  | .float d => float d
  | .str s => string s

/-- The instruction that only this literal has. -/
def short? : Constant → Option Opcode
  | .int i => (small? i.toInt).map .smallInt
  | .float d => (smallDouble? d).map .smallFloat
  | .str _ => none

variable {k : Constant} {op : Opcode}

theorem literal_of_short? (h : short? k = some op) (b : Builder) :
    literal k b = .ok () (b.emitted 0 1 (.simple op)) := by
  cases k with
  | int i =>
    obtain ⟨n, hn, rfl⟩ := Option.map_eq_some_iff.1 h
    rw [literal, int, hn]
    exact Lower.emitUnit_run (Nat.zero_le _) 1 _
  | float d =>
    obtain ⟨n, hn, rfl⟩ := Option.map_eq_some_iff.1 h
    rw [literal, float, hn]
    exact Lower.emitUnit_run (Nat.zero_le _) 1 _
  | str s => cases h

theorem literal_of_pooled (h : short? k = none) (b : Builder) :
    literal k b = .ok () ((b.addConstant k).2.emitted 0 1 (.wide .const (b.addConstant k).1)) := by
  cases k with
  | int i =>
    rw [literal, int, Option.map_eq_none_iff.1 h]
    exact Lower.emitUnit_run (b := (b.addConstant _).2) (Nat.zero_le _) 1 _
  | float d =>
    rw [literal, float, Option.map_eq_none_iff.1 h]
    exact Lower.emitUnit_run (b := (b.addConstant _).2) (Nat.zero_le _) 1 _
  | str s => exact Lower.emitUnit_run (b := (b.addConstant _).2) (Nat.zero_le _) 1 _

end Build

open Build

namespace Frame

variable {host : Host} {f : Frame} {s : Store} {n : Nat} {k : Constant}

/-- An instruction cannot push two values: some machine has reached it. -/
theorem Reads.unique {v w : Value} (hv : f.Reads host s n v) (hw : f.Reads host s n w) : v = w := by
  have hm : Machine.At ⟨s, [{ f with ip := n }], none, 1, 1⟩ { f with ip := n } [] n :=
    ⟨rfl, rfl, rfl⟩
  have heq :=
    (hv _ _ _ rfl hm ⟨rfl, rfl, rfl, rfl⟩).symm.trans (hw _ _ _ rfl hm ⟨rfl, rfl, rfl, rfl⟩)
  simpa using heq

theorem reads_short {i : Insn} (hop : short? k = some i.op) (hi : f.prototype.Carries n i) :
    f.Reads host s n k.value := by
  refine .of_operation hi fun g _ => ?_
  cases k with
  | int z =>
    obtain ⟨m, hm, hsmall⟩ := Option.map_eq_some_iff.1 hop
    rw [← hsmall, Constant.value, ← ofInt_of_small? hm]
    rfl
  | float d =>
    obtain ⟨m, hm, hsmall⟩ := Option.map_eq_some_iff.1 hop
    rw [← hsmall, Constant.value, ← ofInt_of_smallDouble? hm]
    rfl
  | str _ => cases hop

theorem reads_const {j : Nat} (hi : f.prototype.Carries n (.wide .const j))
    (hk : f.prototype.constants[j]? = some k) : f.Reads host s n k.value := by
  refine .of_operation hi fun g hsame => ?_
  have hc : (Insn.wide .const j).pack.c = j := hi.c_eq hi.word rfl
  have hconstant : g.prototype.constants[j]? = some k := by
    rw [prototype, hsame.closure]
    exact hk
  show Exec.operation g _ .const s = _
  simp only [Exec.operation, hc, hconstant]
  rfl

end Frame

theorem Builder.carries_build {d : Builder} {n : Nat} {i : Insn} (hi : d.code[n]? = some i)
    (hfits : i.fits = true) : d.build.Carries n i := by
  refine ⟨?_, hfits⟩
  show (d.code.map Insn.pack)[n]? = some i.pack
  rw [Array.getElem?_map, hi, Option.map_some]

theorem Build.constant_of_performAll {k : Constant} {b d : Builder} {xs : List Command} {j : Nat}
    (h : performAll xs b = .ok () d) (hk : b.constants[j]? = some k) :
    d.build.constants[j]? = some k := by
  obtain ⟨more, hmore⟩ := (pools_of_performAll h).kept
  show d.constants[j]? = some k
  rw [← Array.getElem?_toList] at hk ⊢
  rw [← hmore, List.getElem?_append_left (List.getElem?_eq_some_iff.1 hk).1, hk]

/-- After any calls the pool has no constant twice. A constant that is added is found at its index
after all later calls. The call for a literal emits one instruction, which pushes this literal, bit
by bit, in the function that is built after all later calls, if its operand fits. Where the literal
is in the pool, no later call must give the instruction another operand, as if it were a jump. -/
theorem literals_faithful {name : Option String} {before : List Command} {b : Builder}
    (hb : performAll before (.new name) = .ok () b) :
    b.build.constants.toList.Nodup ∧
    (∀ k after d, performAll after (b.addConstant k).2 = .ok () d →
      d.build.constants[(b.addConstant k).1]? = some k) ∧
    ∀ k, ∃ c, literal k b = .ok () c ∧ c.position = b.position + 1 ∧ ∀ after d,
      performAll after c = .ok () d →
      (short? k = none → ∀ target, .patchJump b.position target ∉ after) →
      (∀ i ∈ d.code[b.position]?, i.fits = true) →
      ∀ host f s, Frame.prototype f = d.build → f.Reads host s b.position k.value := by
  refine ⟨(pools_of_performAll hb).nodup List.nodup_nil,
    fun k after d hafter => constant_of_performAll hafter (b.getElem?_addConstant k), fun k => ?_⟩
  cases hshort : short? k with
  | some op =>
    refine ⟨_, literal_of_short? hshort b, b.position_emitted _ _ _, ?_⟩
    intro after d hafter _ hfits host f s hf
    obtain ⟨a, ha, -⟩ := insn_of_performAll hafter (b.getElem?_emitted _ _ _)
    refine Frame.reads_short hshort (i := { Insn.simple op with a := a }) ?_
    rw [hf]
    exact Builder.carries_build ha (hfits _ ha)
  | none =>
    have hposition : (b.addConstant k).2.position = b.position := by
      rw [Builder.addConstant_eq]; rfl
    refine ⟨_, literal_of_pooled hshort b, by rw [Builder.position_emitted, hposition], ?_⟩
    intro after d hafter hnone hfits host f s hf
    obtain ⟨a, ha, hsame⟩ := insn_of_performAll hafter ((b.addConstant k).2.getElem?_emitted _ _ _)
    rw [hposition] at ha hsame
    obtain rfl := hsame (hnone rfl)
    have hcarries := Builder.carries_build ha (hfits _ ha)
    have hconstant := constant_of_performAll hafter (b.getElem?_addConstant k)
    rw [← hf] at hcarries hconstant
    exact Frame.reads_const hcarries hconstant

/-- A name, a string, an integer and a float that all look like zero. -/
def Build.zeros : Build Unit :=
  performAll [.emission (.loadGlobal "0"), .emission (.string "0"), .emission (.int 0),
    .emission (.float ⟨0⟩)]

/-- Among all of them, negative zero is read as negative zero. -/
theorem literals_faithful_zeros :
    ∃ b c d, zeros (.new none) = .ok () b ∧ b.build.constants.toList.Nodup ∧
    literal (.float ⟨9223372036854775808⟩) b = .ok () c ∧
    performAll [.emission (.float ⟨0⟩), .jump 0, .patchJump 6 9, .emission (.string "0")]
      c = .ok () d ∧
    ∀ host f s, Frame.prototype f = d.build → f.Reads host s 4 (.float ⟨9223372036854775808⟩) := by
  have hb : zeros (.new none) = .ok () (leftBy zeros (.new none)) := eq_ok (by decide +kernel)
  obtain ⟨hnodup, -, hliteral⟩ := literals_faithful hb
  obtain ⟨c, hc, -, hreads⟩ := hliteral (.float ⟨9223372036854775808⟩)
  obtain rfl : leftBy (literal (.float ⟨9223372036854775808⟩)) (leftBy zeros (.new none)) = c := by
    rw [leftBy, hc]
  have hposition : (leftBy zeros (.new none)).position = 4 := by decide +kernel
  rw [hposition] at hreads
  refine ⟨_, _, _, hb, hnodup, hc, eq_ok (by decide +kernel),
    hreads _ _ (eq_ok (by decide +kernel)) ?_ ?_⟩
  · simp
  · decide +kernel

/-- An operand that is changed: the instruction for 100 pushes 200. -/
theorem literal_patched : ∃ c d, literal (.int 100) (.new none) = .ok () c ∧
    performAll [.emission (.int 200), .emission .pop, .patchJump 0 1] c = .ok () d ∧
      d.oversized = false ∧
    ∀ host f s, Frame.prototype f = d.build → f.Reads host s 0 (.int 200) ∧
      ¬ f.Reads host s 0 (.int 100) := by
  refine ⟨_, _, eq_ok (by decide +kernel),
    eq_ok (by decide +kernel), by decide +kernel, fun host f s hf => ?_⟩
  have hreads : f.Reads host s 0 (.int 200) := by
    refine Frame.reads_const (k := .int 200) (j := 1) ?_ ?_
    · rw [hf]
      exact ⟨by decide +kernel, by decide⟩
    · rw [hf]
      decide +kernel
  exact ⟨hreads, fun hother => by cases hreads.unique hother⟩

end Refscript
