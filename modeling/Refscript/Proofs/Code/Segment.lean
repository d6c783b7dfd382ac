import Refscript.Proofs.Code.HeightSearch
import Refscript.Proofs.Code.Labels
import Refscript.Proofs.Code.Operands
import Refscript.Proofs.Code.Words

/-!
# Refscript.Proofs.Code.Segment

Pieces of finished code, labelled with their heights.

`Segment P X Y i j` says that the instructions of `P` from offset `i` up to `j` respect some
assignment of heights. `Y` lists places in the piece whose heights are known, its ends among them;
`X` lists the places outside that its jumps lead to, with the heights they bring. Pieces that meet
at a known height are joined by `Segment.join`, and a jump is settled by `Segment.close` once the
place it leads to is known.

Each instruction of a piece also has operands that denote something (`Prototype.Admits`).

* `Segment.check`: a function that is one piece, from an empty stack to at most one value, passes
  the check.
-/

namespace Refscript

open StackCheck

/-- The instruction at `k` respects the height `h` before it and leads to `targets`. -/
def Steady (P : Prototype) (k h : Nat) (targets : List (Nat × Nat)) : Prop :=
  ∃ insn popped pushed, P.Has k insn ∧ effect? insn.op insn.pack =
    some (popped, pushed) ∧ popped ≤ h ∧ h - popped + pushed ≤ P.maxStack ∧
      successors? P insn.op insn.pack k (h - popped + pushed) = some targets

def Segment (P : Prototype) (X Y : List (Nat × Nat)) (i j : Nat) : Prop :=
  ∃ e, Labelled Eq (Steady P) X Y i j e

namespace Segment

variable {P : Prototype} {X Y X' Y' : List (Nat × Nat)} {i j m : Nat}

theorem empty (P : Prototype) (i h : Nat) : Segment P [] [(i, h)] i i :=
  ⟨h, .empty rfl i⟩

theorem join {h : Nat} (h₁ : Segment P X Y i m) (h₂ : Segment P X' Y' m j) (hY : (m, h) ∈ Y)
    (hY' : (m, h) ∈ Y') : Segment P (X ++ X') (Y ++ Y') i j := by
  obtain ⟨d, h₁⟩ := h₁
  obtain ⟨e, h₂⟩ := h₂
  -- the height at the end of the first piece is the one that is known there
  obtain rfl : h = d := by
    obtain ⟨_, H, hend, hy, _⟩ := h₁
    exact (hy _ hY).2.2.trans hend
  exact ⟨e, h₁.join Eq.trans h₂ hY'⟩

theorem close (h : Segment P X Y i j) (hX : ∀ x ∈ X, x ∈ Y ∨ x ∈ X') (hY : ∀ y ∈ Y', y ∈ Y) :
    Segment P X' Y' i j := by
  obtain ⟨e, h⟩ := h
  refine ⟨e, h.close Eq.trans (fun x hx => ?_) fun y hy => .inl ⟨y, hY y hy, rfl, rfl⟩⟩
  exact (hX x hx).imp (fun hx => .inl ⟨x, hx, rfl, rfl⟩) fun hx => ⟨x, hx, rfl, rfl⟩

theorem single {insn : Insn} {h h' popped pushed : Nat} {targets : List (Nat × Nat)}
    (hhas : P.Has i insn) (heff : effect? insn.op insn.pack = some (popped, pushed))
    (hpop : popped ≤ h) (hmax : h - popped + pushed ≤ P.maxStack)
    (hs : successors? P insn.op insn.pack i (h - popped + pushed) = some targets)
    (hnext : ∀ t ∈ targets, t ∈ X ∨ t = (i + 1, h')) :
    Segment P X [(i, h), (i + 1, h')] i (i + 1) := by
  refine ⟨h', (Labelled.single (X := X) ⟨insn, popped, pushed, hhas, heff, hpop, hmax, hs⟩ rfl
    fun t ht => ?_).close Eq.trans (fun x hx => .inr ⟨x, hx, rfl, rfl⟩) fun y hy => ?_⟩
  · exact (hnext t ht).imp (fun ht => ⟨t, ht, rfl, rfl⟩) fun ht => by rw [ht]; exact ⟨rfl, rfl⟩
  · simp only [List.mem_cons, List.not_mem_nil, or_false] at hy
    rcases hy with rfl | rfl
    · exact .inl ⟨_, List.mem_singleton_self _, rfl, rfl⟩
    · exact .inr ⟨rfl, rfl⟩

theorem check {h : Nat} (hseg : Segment P [] [(0, 0), (P.code.size, h)] 0 P.code.size)
    (hle : h ≤ 1) : checkOne P = .ok () := by
  obtain ⟨_, _, H, _, hy, hs⟩ := hseg
  have hstart : H 0 = 0 := (hy (0, 0) (by simp)).2.2.symm
  have hend : H P.code.size = h := (hy (P.code.size, h) (by simp)).2.2.symm
  obtain ⟨hc, hlabel⟩ := Consistent.of_labelling (p := P) hstart (by
    intro i hi
    obtain ⟨targets, ⟨insn, popped, pushed, hhas, heff, hpop, hmax, hsucc⟩, hall⟩ :=
      hs i (Nat.zero_le i) hi
    refine ⟨targets,
      (follow_ok_iff hhas.word).2 ⟨insn.op, popped, pushed, insn.op?_pack, heff, hpop, hmax, hsucc⟩,
      ?_⟩
    intro t ht
    rcases hall t ht with ⟨x, hx, _⟩ | ⟨_, hle, hH⟩
    · cases hx
    · exact ⟨hle, hH.symm⟩)
  refine checkOne_ok_iff.2 ⟨hc, fun k hr => ?_⟩
  rw [← hlabel _ _ hr, hend]
  exact hle

/-- Every instruction of a piece has all of its operands, and they denote something. -/
theorem has {k : Nat} (h : Segment P X Y i j) (hi : i ≤ k) (hj : k < j) : ∃ insn, P.Has k insn := by
  obtain ⟨_, _, H, _, _, hs⟩ := h
  obtain ⟨_, ⟨insn, _, _, hhas, _⟩, _⟩ := hs k hi hj
  exact ⟨insn, hhas⟩

end Segment
end Refscript
