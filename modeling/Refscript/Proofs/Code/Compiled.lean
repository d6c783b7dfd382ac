import Refscript.Proofs.Code.Lowering
import Refscript.Syntax.Parse

/-!
# Refscript.Proofs.Code.Compiled

What texts compile to.

* `lower_balanced`: every text is lowered to functions that pass the check of their stack heights.
* `described_of_compile`: the functions of a program are what its chart says.
* `laid_of_compile`: the code of every part of a program is there.
-/

namespace Refscript

open StackCheck

variable {source : String} {p : Prototype}

/-- What is read without errors is normalized, and so marked. -/
theorem marks_readProgram (hclean : (readProgram source).isClean = true) :
    Marking.MarksBlock true (readProgram source).items := by
  have hitems : (readProgram source).items = (normalize (parse source).items).value := by
    unfold readProgram at hclean ⊢
    dsimp only at hclean ⊢
    split
    · rfl
    · rename_i hparse
      rw [if_neg hparse] at hclean
      simp [hparse] at hclean
  rw [hitems]
  exact Marking.marks_normalize _

/-- A text that compiles without errors is a program of marked items, in which there is no
mistake. -/
theorem lowered_of_compile (h : compile source = .ok p) :
    ∃ t, Marking.MarksBlock true (readProgram source).items ∧
      Lower.program (readProgram source).items .start = .ok p t ∧ errorCount t.diagnostics = 0 := by
  unfold compile at h
  dsimp only at h
  split at h
  · cases h
  rename_i hclean
  have hmarks := marks_readProgram (by simpa using hclean)
  obtain ⟨p', t, hrun, _⟩ := Lower.yields_program hmarks
  have hlower : lower (readProgram source).items = .ok ⟨p', t.diagnostics⟩ := by
    rw [lower, EStateM.run, hrun]
  rw [hlower] at h
  dsimp only at h
  split at h
  · rename_i hcount
    cases h
    rw [errorCount, List.countP_append] at hcount
    exact ⟨t, hmarks, hrun, Nat.eq_zero_of_add_eq_zero_left hcount⟩
  · cases h

/-- What a text compiles to is what the chart of the program says. -/
theorem described_of_compile (h : compile source = .ok p) :
    Described [] (.ofProgram (readProgram source).items) p := by
  obtain ⟨t, hmarks, hrun, hclean⟩ := lowered_of_compile h
  obtain ⟨p', t', hrun', hdescribed⟩ := Lower.yields_program_described hmarks
  rw [hrun] at hrun'
  cases hrun'
  exact hdescribed (sizesFit_of_errorCount hclean)

/-- The code of every part of a program that compiles is in the function that the part belongs to,
and nothing of it is left out. -/
theorem laid_of_compile (h : compile source = .ok p) {y : Node}
    (hy : OccursIn y (readProgram source).items) (hbare : y.bare = false) :
    Marking.Marks y.required y ∧ Complete y.expr ∧ ∃ Q i j, Prototype.Inside Q p ∧
      Lower.Laid y Q i j := by
  obtain ⟨t, hmarks, hrun, hclean⟩ := lowered_of_compile h
  obtain ⟨p', t', hrun', hhouses⟩ := Lower.yields_program_houses hmarks
  rw [hrun] at hrun'
  cases hrun'
  obtain ⟨n, hn, hy⟩ := hy
  obtain ⟨hwhole, hhoused⟩ := hhouses hclean n hn
  have hparts := hy.own_or_inner hbare
  exact ⟨hy.marks (hmarks.of_mem n hn), hwhole y hparts, hhoused y hparts⟩

/-- Every text, also one with errors, is lowered without driving a builder out of its contract.
Unless a function was reported as too large, all functions that result pass the check: every path
through them keeps to the rules, paths that meet have the same height, no height is above the
recorded maximum, and at most one value is left at the end. -/
theorem lower_balanced (source : String) :
    ∃ l, lower (parse source).normalize.items = .ok l ∧
      ((∀ d ∈ l.diagnostics, ∀ name, d.problem ≠ .tooLarge name) → ∀ q : Prototype,
        q.Inside l.prototype →
        q.checkHeights = .ok () ∧ Consistent q ∧ (∀ i h, Reached q i h → h ≤ q.maxStack) ∧
          ∀ h, Reached q q.code.size h → h ≤ 1) := by
  obtain ⟨p, s, hrun, _, hgood⟩ :=
    Lower.yields_program (Marking.marks_normalize (parse source).items)
  refine ⟨⟨p, s.diagnostics⟩, ?_, fun hfit q hq => ?_⟩
  · show lower (normalize (parse source).items).value = _
    rw [lower, EStateM.run, hrun]
  · have hcheck := ((hgood hfit).1.inside hq).heights
    obtain ⟨hconsistent, hend⟩ := checkOne_ok_iff.1 ((check_ok_iff q).1 hcheck).1
    exact ⟨hcheck, hconsistent, fun i h hr => hr.le_maxStack, hend⟩

end Refscript
