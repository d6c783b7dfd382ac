import Refscript.Number.Basic

/-!
# Refscript.Proofs.Number.Exact

Doubles without a fraction and the integers they stand for. Conversion of the integer gives the
double back (`roundMagnitude_integralPart`), and up to `2 ^ 53` no other double is equal to it
(`integralPart_of_roundMagnitude`).

So a double that has exactly the value of an integer is equal to it, and up to `2 ^ 53` only such a
double is (`Number.eq_int_of_stands`, `Number.stands_of_eq_int`).
-/

namespace Refscript

variable {d : Double} {k m n : Nat}

namespace Double

/-- `2 ^ 53`. Up to it, every integer is a double. -/
def exactBound : Nat := 9007199254740992

theorem pow2_add (m n : Nat) : pow2 (m + n) = pow2 m * pow2 n :=
  Nat.pow_add 2 m n

theorem pow2_pos (n : Nat) : 0 < pow2 n :=
  Nat.two_pow_pos n

theorem pow2_le (h : m ≤ n) : pow2 m ≤ pow2 n :=
  Nat.pow_le_pow_right (n := 2) (by decide) h

theorem leadingBit_eq : leadingBit = pow2 52 := rfl

theorem roundHalfEven_mul (q : Nat) {den : Nat} (h : 0 < den) :
    roundHalfEven (q * den) den = q := by
  unfold roundHalfEven
  rw [Nat.mul_div_cancel q h, Nat.mul_mod_left]
  simp [h]

theorem log2_eq (hlow : pow2 k ≤ n) (hhigh : n < pow2 (k + 1)) : n.log2 = k := by
  have hn : n ≠ 0 := Nat.ne_of_gt (Nat.lt_of_lt_of_le (pow2_pos k) hlow)
  exact (Nat.log2_eq_iff hn).2 ⟨hlow, hhigh⟩

theorem binaryExponent_one (hn : n ≠ 0) : binaryExponent n 1 = n.log2 := by
  have hlow : pow2 n.log2 ≤ n := Nat.log2_self_le hn
  have hone : Nat.log2 1 = 0 := rfl
  simp only [binaryExponent, hone]
  simp
  omega

theorem roundMagnitude_shiftLeft {t : Nat} (hlow : leadingBit ≤ n * pow2 t)
    (hhigh : n * pow2 t < 2 * leadingBit) :
    t ≤ 52 ∧ roundMagnitude n 1 = (1074 - t) * leadingBit + n * pow2 t := by
  have hn : n ≠ 0 := by
    rintro rfl
    simp [leadingBit] at hlow
  have ht : t ≤ 52 := by
    refine Nat.le_of_not_lt fun hlt => ?_
    have hpow := pow2_le hlt
    have hle := Nat.mul_le_mul (Nat.one_le_iff_ne_zero.2 hn) hpow
    rw [Nat.one_mul, pow2_add 52 1, ← leadingBit_eq] at hle
    exact absurd (Nat.lt_of_le_of_lt hle hhigh) (by simp [leadingBit, pow2])
  have hlog : n.log2 = 52 - t := by
    have hsplit : pow2 (52 - t) * pow2 t = leadingBit := by
      rw [← pow2_add, Nat.sub_add_cancel ht, leadingBit_eq]
    refine log2_eq (Nat.le_of_mul_le_mul_right ?_ (pow2_pos t))
      (Nat.lt_of_mul_lt_mul_right (a := pow2 t) ?_)
    · rw [hsplit]
      exact hlow
    · rw [pow2_add, Nat.mul_right_comm, hsplit, Nat.mul_comm leadingBit]
      exact hhigh
  refine ⟨ht, ?_⟩
  have hq : max (binaryExponent n 1 - 52) (-1074) = -(t : Int) := by
    rw [binaryExponent_one hn, hlog]
    omega
  have hscaled : roundScaled n 1 (-(t : Int)) = n * pow2 t := by
    unfold roundScaled
    by_cases hzero : t = 0
    · subst hzero
      simpa [pow2] using roundHalfEven_mul n Nat.one_pos
    · rw [if_neg (by omega)]
      simpa using roundHalfEven_mul (n * pow2 t) Nat.one_pos
  rw [roundMagnitude, if_neg hn]
  simp only [hq, hscaled]
  have hsum : (-(t : Int) + 1074).toNat = 1074 - t := by omega
  rw [hsum]
  have hfinite : (1074 - t) * leadingBit + n * pow2 t ≤ infiniteMagnitude := by
    have hle : (1074 - t) * leadingBit ≤ 1074 * leadingBit :=
      Nat.mul_le_mul_right _ (Nat.sub_le _ _)
    unfold infiniteMagnitude
    omega
  rw [Nat.min_eq_right hfinite]

theorem roundMagnitude_shifted (q : Nat) (hlow : leadingBit ≤ m) (hhigh : m < 2 * leadingBit) :
    roundMagnitude (m * pow2 q) 1 = min infiniteMagnitude ((q + 1074) * leadingBit + m) := by
  have hm : 0 < m := Nat.lt_of_lt_of_le (by decide) hlow
  have hn : m * pow2 q ≠ 0 := Nat.ne_of_gt (Nat.mul_pos hm (pow2_pos q))
  have hlog : (m * pow2 q).log2 = 52 + q := by
    refine log2_eq ?_ ?_
    · rw [pow2_add, ← leadingBit_eq]
      exact Nat.mul_le_mul_right _ hlow
    · rw [Nat.add_right_comm, pow2_add]
      exact Nat.mul_lt_mul_of_pos_right hhigh (pow2_pos q)
  have hq : max (binaryExponent (m * pow2 q) 1 - 52) (-1074) = (q : Int) := by
    rw [binaryExponent_one hn, hlog]
    omega
  have hscaled : roundScaled (m * pow2 q) 1 (q : Int) = m := by
    rw [roundScaled, if_pos (Int.natCast_nonneg q), Int.toNat_natCast, Nat.one_mul]
    exact roundHalfEven_mul m (pow2_pos q)
  rw [roundMagnitude, if_neg hn]
  simp only [hq, hscaled]
  have hsum : ((q : Int) + 1074).toNat = q + 1074 := by omega
  rw [hsum]

theorem fields_of_magnitude (hd : d.magnitude = k * leadingBit + m) (hlow : leadingBit ≤ m)
    (hhigh : m < 2 * leadingBit) : d.significand = m ∧ d.exponent = (k : Int) - 1074 := by
  have hdiv : d.magnitude / leadingBit = k + 1 := by
    rw [hd]
    simp only [leadingBit] at hlow hhigh ⊢
    omega
  have hmod : d.magnitude % leadingBit = m - leadingBit := by
    rw [hd]
    simp only [leadingBit] at hlow hhigh ⊢
    omega
  unfold significand exponent
  rw [hdiv, hmod, if_neg (Nat.succ_ne_zero k), if_neg (Nat.succ_ne_zero k)]
  constructor <;> omega

theorem magnitude_cases (d : Double) :
    d.magnitude < leadingBit ∨
      ∃ k m, d.magnitude = k * leadingBit + m ∧ leadingBit ≤ m ∧ m < 2 * leadingBit := by
  by_cases hlt : d.magnitude < leadingBit
  · exact .inl hlt
  · refine .inr ⟨d.magnitude / leadingBit - 1, d.magnitude % leadingBit + leadingBit, ?_⟩
    simp only [leadingBit] at hlt ⊢
    omega

theorem integralPart_shiftedUp {q : Nat} (he : d.exponent = q) :
    d.integralPart = (d.significand * pow2 q, false) := by
  rw [integralPart, he, if_pos (Int.natCast_nonneg q), Int.toNat_natCast]

theorem integralPart_shiftedDown {t : Nat} (he : d.exponent = -(t : Int)) (ht : t ≠ 0) :
    d.integralPart = (d.significand / pow2 t, d.significand % pow2 t != 0) := by
  rw [integralPart, he, if_neg (by omega), Int.neg_neg, Int.toNat_natCast]

theorem integralPart_small (h : d.magnitude < leadingBit) :
    d.integralPart = (0, d.magnitude != 0) := by
  have hzero : d.magnitude / leadingBit = 0 := Nat.div_eq_of_lt h
  have hsignificand : d.significand = d.magnitude := by rw [significand, if_pos hzero]
  have hexponent : d.exponent = -((1074 : Nat) : Int) := by
    rw [exponent, if_pos hzero]
    rfl
  have hle : pow2 52 ≤ pow2 1074 := pow2_le (by decide)
  have hlt : d.magnitude < pow2 1074 := Nat.lt_of_lt_of_le h hle
  rw [integralPart_shiftedDown hexponent (by decide), hsignificand, Nat.div_eq_of_lt hlt,
    Nat.mod_eq_of_lt hlt]

/-- A finite double without a fraction is what its integer converts to. -/
theorem roundMagnitude_integralPart (hfinite : d.isFinite = true)
    (hwhole : d.integralPart.2 = false) : roundMagnitude d.integralPart.1 1 = d.magnitude := by
  rcases d.magnitude_cases with hsmall | ⟨k, m, hd, hlow, hhigh⟩
  · rw [integralPart_small hsmall] at hwhole ⊢
    have hzero : d.magnitude = 0 := by simpa using hwhole
    rw [hzero]
    rfl
  obtain ⟨hsignificand, hexponent⟩ := fields_of_magnitude hd hlow hhigh
  by_cases hk : 1074 ≤ k
  · -- the significand is shifted to the left
    have he : d.exponent = ((k - 1074 : Nat) : Int) := by omega
    rw [integralPart_shiftedUp he, hsignificand, roundMagnitude_shifted _ hlow hhigh,
      Nat.sub_add_cancel hk, ← hd]
    exact Nat.min_eq_right (Nat.le_of_lt (of_decide_eq_true hfinite))
  · -- the significand is shifted to the right, and no bit of it is lost
    have he : d.exponent = -((1074 - k : Nat) : Int) := by omega
    have hparts := integralPart_shiftedDown he (by omega)
    rw [hsignificand] at hparts
    rw [hparts] at hwhole ⊢
    have hmod : m % pow2 (1074 - k) = 0 := by simpa using hwhole
    have hm : m / pow2 (1074 - k) * pow2 (1074 - k) = m := by
      have hsplit := Nat.div_add_mod m (pow2 (1074 - k))
      rw [hmod, Nat.add_zero, Nat.mul_comm] at hsplit
      exact hsplit
    have hround :=
      (roundMagnitude_shiftLeft (n := m / pow2 (1074 - k)) (hm.symm ▸ hlow) (hm.symm ▸ hhigh)).2
    rw [hround, hm, hd, Nat.sub_sub_self (by omega)]

theorem isFinite_of_magnitude (hd : d.magnitude = k * leadingBit + m) (hhigh : m < 2 * leadingBit)
    (hk : k ≤ 1075) : d.isFinite = true := by
  refine decide_eq_true ?_
  have hle : k * leadingBit ≤ 1075 * leadingBit := Nat.mul_le_mul_right _ hk
  rw [hd]
  simp only [infiniteMagnitude, leadingBit] at hle hhigh ⊢
  omega

/-- Up to `2 ^ 53`, what an integer converts to is finite and has no other integer part. -/
theorem integralPart_of_roundMagnitude (hn : n ≤ exactBound)
    (hd : d.magnitude = roundMagnitude n 1) : d.isFinite = true ∧ d.integralPart = (n, false) := by
  by_cases hzero : n = 0
  · subst hzero
    have hd : d.magnitude = 0 := hd
    refine ⟨by rw [isFinite, hd]; rfl, ?_⟩
    rw [integralPart_small (by rw [hd]; decide), hd]
    rfl
  by_cases hlast : n = exactBound
  · subst hlast
    have hround := roundMagnitude_shifted (m := leadingBit) 1 (Nat.le_refl _) (by decide)
    have hd : d.magnitude = 1075 * leadingBit + leadingBit := hd.trans hround
    obtain ⟨hsignificand, hexponent⟩ := fields_of_magnitude hd (Nat.le_refl _) (by decide)
    refine ⟨isFinite_of_magnitude hd (by decide) (Nat.le_refl _), ?_⟩
    rw [integralPart_shiftedUp (q := 1) hexponent, hsignificand]
    rfl
  -- the integer fills a significand after a shift to the left
  have hlow : pow2 n.log2 ≤ n := Nat.log2_self_le hzero
  have hhigh : n < pow2 (n.log2 + 1) := Nat.lt_log2_self
  have hlog : n.log2 ≤ 52 := by
    refine Nat.le_of_not_lt fun hlt => ?_
    have hpow : pow2 53 ≤ n := Nat.le_trans (pow2_le hlt) hlow
    exact hlast (Nat.le_antisymm hn hpow)
  obtain ⟨t, ht⟩ : ∃ t, t = 52 - n.log2 := ⟨_, rfl⟩
  have hsplit : pow2 n.log2 * pow2 t = leadingBit := by
    rw [← pow2_add, ht, Nat.add_sub_cancel' hlog, leadingBit_eq]
  have hlow' : leadingBit ≤ n * pow2 t := hsplit ▸ Nat.mul_le_mul_right _ hlow
  have hhigh' : n * pow2 t < 2 * leadingBit := by
    have hlt := Nat.mul_lt_mul_of_pos_right hhigh (pow2_pos t)
    rw [pow2_add, Nat.mul_right_comm, hsplit, Nat.mul_comm leadingBit] at hlt
    exact hlt
  obtain ⟨ht52, hround⟩ := roundMagnitude_shiftLeft hlow' hhigh'
  obtain ⟨hsignificand, hexponent⟩ := fields_of_magnitude (hd.trans hround) hlow' hhigh'
  refine ⟨isFinite_of_magnitude (hd.trans hround) hhigh' (by omega), ?_⟩
  by_cases ht0 : t = 0
  · subst ht0
    rw [integralPart_shiftedUp (q := 0) (by omega), hsignificand]
    simp [pow2]
  · rw [integralPart_shiftedDown (t := t) (by omega) ht0, hsignificand,
      Nat.mul_div_cancel _ (pow2_pos t), Nat.mul_mod_left]
    rfl

theorem ofMagnitude_fields (negative : Bool) (hm : m ≤ infiniteMagnitude) :
    (ofMagnitude negative m).magnitude = m ∧ (ofMagnitude negative m).isNegative = negative := by
  have hbits : ∀ {k : Nat}, k < 18446744073709551616 → (UInt64.ofNat k).toNat = k := fun hk => by
    rw [UInt64.toNat_ofNat']
    exact Nat.mod_eq_of_lt hk
  simp only [infiniteMagnitude, leadingBit] at hm
  unfold ofMagnitude magnitude isNegative signBit
  cases negative with
  | false =>
    rw [if_neg Bool.false_ne_true, hbits (by omega)]
    exact ⟨by omega, decide_eq_false (by omega)⟩
  | true =>
    rw [if_pos rfl, hbits (by omega)]
    exact ⟨by omega, decide_eq_true (by omega)⟩

theorem roundMagnitude_le (num den : Nat) : roundMagnitude num den ≤ infiniteMagnitude := by
  unfold roundMagnitude
  split
  · exact Nat.zero_le _
  · exact Nat.min_le_left _ _

theorem key_ofInt (z : Int) :
    (ofInt z).key = if z < 0 then -(roundMagnitude z.natAbs 1 : Int)
      else roundMagnitude z.natAbs 1 := by
  obtain ⟨hmagnitude, hnegative⟩ :=
    ofMagnitude_fields (decide (z < 0)) (roundMagnitude_le z.natAbs 1)
  rw [ofInt, ofRatio, key, hmagnitude, hnegative]
  simp

theorem isNaN_ofInt (z : Int) : (ofInt z).isNaN = false := by
  have hmagnitude := (ofMagnitude_fields (decide (z < 0)) (roundMagnitude_le z.natAbs 1)).1
  rw [ofInt, ofRatio, isNaN, hmagnitude]
  exact decide_eq_false (Nat.not_lt.2 (roundMagnitude_le _ _))

theorem isNaN_of_isFinite (h : d.isFinite = true) : d.isNaN = false :=
  decide_eq_false (Nat.not_lt.2 (Nat.le_of_lt (of_decide_eq_true h)))

theorem isInfinite_of_isFinite (h : d.isFinite = true) : d.isInfinite = false :=
  beq_false_of_ne (Nat.ne_of_lt (of_decide_eq_true h))

theorem isFinite_of_isIntegral (h : d.isIntegral = true) : d.isFinite = true := by
  simp only [isIntegral, Bool.and_eq_true] at h
  exact h.1

/-- The double has exactly the value of the integer. -/
def Stands (d : Double) (z : Int) : Prop :=
  d.isIntegral = true ∧ d.truncate = z

theorem key_of_stands {z : Int} (h : d.Stands z) : d.key = (ofInt z).key := by
  obtain ⟨hd, rfl⟩ := h
  simp only [isIntegral, Bool.and_eq_true, Bool.not_eq_true'] at hd
  have hround := roundMagnitude_integralPart hd.1 hd.2
  rw [key_ofInt, key, truncate]
  cases hneg : d.isNegative with
  | false =>
    have hnot : ¬(d.integralPart.1 : Int) < 0 := Int.not_lt.2 (Int.natCast_nonneg _)
    simp [hnot, hround]
  | true =>
    simp only [if_true, Int.natAbs_neg, Int.natAbs_natCast, hround]
    split
    · rfl
    · -- negative zero
      have hzero : d.integralPart.1 = 0 := by omega
      rw [hzero] at hround
      have hmagnitude : d.magnitude = 0 := hround.symm
      simp [hmagnitude]

/-- Up to `2 ^ 53`, only a double with exactly the value of an integer is ordered like it. -/
theorem stands_of_key {z : Int} (hz : z.natAbs ≤ exactBound) (h : d.key = (ofInt z).key) :
    d.Stands z := by
  rw [key_ofInt, key] at h
  have hmagnitude : d.magnitude = roundMagnitude z.natAbs 1 := by
    split at h <;> split at h <;> omega
  obtain ⟨hfinite, hpart⟩ := integralPart_of_roundMagnitude hz hmagnitude
  refine ⟨by rw [isIntegral, hfinite, hpart]; rfl, ?_⟩
  -- of zero, the sign is not known
  have hzero : d.magnitude = 0 → z = 0 := fun hmag => by
    rw [integralPart_small (by rw [hmag]; decide)] at hpart
    have hnat : 0 = z.natAbs := congrArg Prod.fst hpart
    omega
  rw [truncate, hpart]
  split at h <;> split at h <;> simp only [*, if_true, if_false, Bool.false_eq_true] <;> omega

end Double

namespace Number

/-- A double that has exactly the value of an integer is equal to it. -/
theorem eq_int_of_stands {i : Int64} (h : d.Stands i.toInt) : (float d).eq (int i) = true := by
  have hfinite := Double.isFinite_of_isIntegral h.1
  have hkey := Double.key_of_stands h
  simp only [eq, toDouble, Double.eq, Double.isNaN_of_isFinite hfinite, Double.isNaN_ofInt, hkey]
  simp

/-- Up to `2 ^ 53`, no other double is. -/
theorem stands_of_eq_int {i : Int64} (hi : i.toInt.natAbs ≤ Double.exactBound)
    (h : (float d).eq (int i) = true) : d.Stands i.toInt := by
  simp only [eq, toDouble, Double.eq, Bool.and_eq_true, beq_iff_eq] at h
  exact Double.stands_of_key hi h.2

end Number
end Refscript
