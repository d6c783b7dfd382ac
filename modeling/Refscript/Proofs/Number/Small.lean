import Refscript.Code.Builder
import Refscript.Proofs.Number.Exact

/-!
# Refscript.Proofs.Number.Small

The numbers that have instructions of their own: the number of such an instruction gives back the
literal it stands for, bit by bit (`ofInt_of_small?`, `ofInt_of_smallDouble?`).
-/

namespace Refscript
namespace Double

theorem ofMagnitude_magnitude (d : Double) : ofMagnitude d.isNegative d.magnitude = d := by
  obtain ⟨bits⟩ := d
  have hlt := bits.toNat_lt
  have hbits : (if isNegative ⟨bits⟩ then signBit + magnitude ⟨bits⟩ else magnitude ⟨bits⟩) =
      bits.toNat := by
    unfold isNegative magnitude signBit
    dsimp only
    by_cases hneg : 9223372036854775808 ≤ bits.toNat
    · rw [decide_eq_true hneg, if_pos rfl]
      omega
    · rw [decide_eq_false hneg, if_neg Bool.false_ne_true]
      omega
  rw [ofMagnitude, hbits, UInt64.ofNat_toNat]

end Double

namespace Build

theorem val_of_small? {z : Int} {k : Fin 7} (h : small? z = some k) : (k.val : Int) - 1 = z := by
  unfold small? at h
  split at h
  · cases h
    simp only
    omega
  · cases h

theorem ofInt_of_small? {i : Int64} {k : Fin 7} (h : small? i.toInt = some k) :
    Int64.ofInt (k.val - 1) = i := by
  rw [val_of_small? h]
  exact Int64.ofInt_toInt i

theorem ofInt_of_smallDouble? {d : Double} {k : Fin 7} (h : smallDouble? d = some k) :
    Double.ofInt (k.val - 1) = d := by
  unfold smallDouble? at h
  split at h
  · rename_i hd
    simp only [Double.isIntegral, Bool.and_eq_true, Bool.not_eq_true', Bool.and_eq_false_imp] at hd
    obtain ⟨⟨hfinite, hwhole⟩, hzero⟩ := hd
    have hmagnitude := Double.roundMagnitude_integralPart hfinite hwhole
    have hz := val_of_small? h
    have hk := k.isLt
    rw [hz]
    unfold Double.truncate at hz ⊢
    cases hneg : d.isNegative with
    | true =>
      rw [hneg, if_pos rfl] at hz
      have hone : d.integralPart.1 = 0 ∨ d.integralPart.1 = 1 := by omega
      rcases hone with hone | hone
      · -- this is negative zero
        rw [hone] at hmagnitude
        have := hzero (by rw [Double.isZero, ← hmagnitude]; rfl)
        rw [hneg] at this
        cases this
      · rw [hone] at hmagnitude ⊢
        rw [← d.ofMagnitude_magnitude, hneg, ← hmagnitude]
        rfl
    | false =>
      rw [hneg, if_neg Bool.false_ne_true] at hz
      rw [if_neg Bool.false_ne_true, Double.ofInt, Int.natAbs_natCast, decide_eq_false (by omega),
        Double.ofRatio, hmagnitude, ← hneg, d.ofMagnitude_magnitude]
  · cases h

end Build
end Refscript
