import Mathlib.Data.Rat.Floor
import Refscript.Proofs.Store.Ensures

/-!
# Refscript.Proofs.Number.Arithmetic

The operators on two integers, as programs apply them.

* `int_arithmetic_exact`: sums, differences, products and negations are exact or promoted, and the
  quotient and the remainder are those of one division.
* `floor_division_exact_iff`: `//` is the floor of the quotient, but for the one quotient that does
  not fit.
* `power_promotes_iff`: a power is exact or promoted, but for large exponents of 0, 1 and -1.

`Number.Promotes z n` says that `n` is the integer `z`, or a double because `z` does not fit.
-/

namespace Refscript

variable {z : Int} {o : Operator} {a b : Int64}

namespace Number

/-- The integer is in the range of 64 bits. -/
def Fits (z : Int) : Prop :=
  Int64.minValue.toInt ≤ z ∧ z ≤ Int64.maxValue.toInt

/-- The number is the integer `z`, or a double because `z` does not fit. -/
def Promotes (z : Int) : Number → Prop
  | int i => i.toInt = z
  | float _ => ¬Fits z

theorem fits_iff : Fits z ↔ -9223372036854775808 ≤ z ∧ z ≤ 9223372036854775807 :=
  Iff.rfl

theorem fits_toInt (i : Int64) : Fits i.toInt :=
  ⟨i.minValue_le_toInt, i.toInt_le⟩

theorem toInt_of_fits (h : Fits z) : (Int64.ofInt z).toInt = z := by
  rw [fits_iff] at h
  exact Int64.toInt_ofInt_of_le (by omega) (by omega)

theorem fit?_of_fits (h : Fits z) : fit? z = some (Int64.ofInt z) :=
  if_pos h

theorem fit?_of_not_fits (h : ¬Fits z) : fit? z = none :=
  if_neg h

theorem promotes_exactOr (z : Int) (d : Double) : (exactOr z d).Promotes z := by
  unfold exactOr
  by_cases h : Fits z
  · rw [fit?_of_fits h]
    exact toInt_of_fits h
  · rw [fit?_of_not_fits h]
    exact h

theorem exactOr_of_fits (h : Fits z) (d : Double) : exactOr z d = int (Int64.ofInt z) := by
  rw [exactOr, fit?_of_fits h]

theorem exactOr_of_not_fits (h : ¬Fits z) (d : Double) : exactOr z d = float d := by
  rw [exactOr, fit?_of_not_fits h]

theorem toInt_ne_zero (hb : b ≠ 0) : b.toInt ≠ 0 :=
  fun h => hb (Int64.toInt_inj.1 h)

/-- Of all quotients of integers that fit, one does not. -/
theorem fits_tdiv_iff (hb : b ≠ 0) :
    Fits (a.toInt.tdiv b.toInt) ↔ ¬(a = Int64.minValue ∧ b = -1) := by
  have ha := fits_iff.1 (fits_toInt a)
  have hb0 := toInt_ne_zero hb
  have habs := Int.natAbs_tdiv a.toInt b.toInt
  rw [fits_iff]
  constructor
  · rintro hfits ⟨rfl, rfl⟩
    exact absurd hfits (by decide)
  · intro hnot
    by_cases hone : b.toInt.natAbs = 1
    · rcases Int.natAbs_eq_iff.1 hone with h | h
      · rw [h]
        simpa using ha
      · have hmin : a.toInt ≠ -9223372036854775808 := fun hmin =>
          hnot ⟨Int64.toInt_inj.1 hmin, Int64.toInt_inj.1 h⟩
        rw [h]
        simp only [Nat.cast_one, Int.tdiv_neg, Int.tdiv_one]
        omega
    · have hhalf : a.toInt.natAbs / b.toInt.natAbs ≤ a.toInt.natAbs / 2 :=
        Nat.div_le_div_left (by omega) (by decide)
      have habs : (a.toInt.tdiv b.toInt).natAbs = a.toInt.natAbs / b.toInt.natAbs := habs
      omega

theorem toInt_div_of_fits (h : Fits (a.toInt.tdiv b.toInt)) :
    (a / b).toInt = a.toInt.tdiv b.toInt := by
  rw [fits_iff] at h
  rw [Int64.toInt_div]
  exact Int.bmod_eq_of_le (by omega) (by omega)

/-- The remainder is smaller than the divisor and has the sign of the dividend, if any. -/
theorem rem_bounds (hb : b ≠ 0) :
    (a % b).toInt.natAbs < b.toInt.natAbs ∧ (a % b = 0 ∨ (a % b).toInt.sign = a.toInt.sign) := by
  have hb0 := toInt_ne_zero hb
  rw [← Int64.toInt_inj, Int64.toInt_mod, Int64.toInt_zero]
  refine ⟨?_, ?_⟩
  · rw [Int.natAbs_tmod]
    exact Nat.mod_lt _ (by omega)
  · have hsign := Int.sign_tmod a.toInt b.toInt
    split at hsign
    · exact .inl (Int.sign_eq_zero_iff_zero.1 hsign)
    · exact .inr hsign

theorem floor_fraction {r b : Int} (hb : 0 < b) (hr : r.natAbs < b.natAbs) :
    ⌊(r : ℚ) / b⌋ = if r < 0 then -1 else 0 := by
  have hbq : (0 : ℚ) < b := Int.cast_pos.2 hb
  split
  · rename_i hneg
    rw [Int.floor_eq_iff]
    constructor
    · rw [Int.cast_neg, Int.cast_one, le_div_iff₀ hbq]
      exact_mod_cast (by omega : -1 * b ≤ r)
    · simpa using div_neg_of_neg_of_pos (Int.cast_lt_zero.2 hneg) hbq
  · rename_i hneg
    rw [Int.floor_eq_zero_iff]
    constructor
    · exact div_nonneg (Int.cast_nonneg (Int.not_lt.1 hneg)) (le_of_lt hbq)
    · rw [div_lt_one hbq]
      exact_mod_cast (by omega : r < b)

/-- Rounding toward zero is rounding down, unless a remainder is left whose sign is not that of the
divisor. -/
theorem floor_eq {a b : Int} (hb : b ≠ 0) :
    ⌊(a : ℚ) / b⌋ = if a.tmod b ≠ 0 ∧ (a.tmod b < 0) ≠ (b < 0) then a.tdiv b - 1 else a.tdiv b := by
  have hbq : (b : ℚ) ≠ 0 := Int.cast_ne_zero.2 hb
  have hr : (a.tmod b).natAbs < b.natAbs := by
    rw [Int.natAbs_tmod]
    exact Nat.mod_lt _ (by omega)
  have hsplit : (a : ℚ) / b = a.tdiv b + (a.tmod b : ℚ) / b := by
    have h : (a : ℚ) = b * a.tdiv b + a.tmod b := mod_cast (Int.mul_tdiv_add_tmod a b).symm
    rw [h]
    field_simp
  have hfloor : ⌊(a.tmod b : ℚ) / b⌋ = if a.tmod b ≠ 0 ∧ (a.tmod b < 0) ≠ (b < 0)
      then -1 else 0 := by
    simp only [ne_eq, eq_iff_iff]
    rcases Int.lt_or_gt_of_ne hb with hneg | hpos
    · have hneg' := floor_fraction (r := -a.tmod b) (b := -b) (by omega) (by omega)
      rw [Int.cast_neg, Int.cast_neg, neg_div_neg_eq] at hneg'
      rw [hneg']
      exact if_congr (by omega) rfl rfl
    · rw [floor_fraction hpos hr]
      exact if_congr (by omega) rfl rfl
  rw [hsplit, Int.floor_intCast_add, hfloor]
  split
  · rfl
  · exact Int.add_zero _

theorem toInt_div_sub_one (hb : b ≠ 0) (hr : a.toInt.tmod b.toInt ≠ 0) :
    (a / b - 1).toInt = a.toInt.tdiv b.toInt - 1 := by
  have ha := fits_iff.1 (fits_toInt a)
  have hone : b.toInt.natAbs ≠ 1 := by
    intro hone
    have hlt : (a.toInt.tmod b.toInt).natAbs < b.toInt.natAbs := by
      rw [Int.natAbs_tmod]
      exact Nat.mod_lt _ (by omega)
    omega
  have hb0 := toInt_ne_zero hb
  have habs : (a.toInt.tdiv b.toInt).natAbs = a.toInt.natAbs / b.toInt.natAbs := Int.natAbs_tdiv _ _
  have hhalf : a.toInt.natAbs / b.toInt.natAbs ≤ a.toInt.natAbs / 2 :=
    Nat.div_le_div_left (by omega) (by decide)
  have hfits : Fits (a.toInt.tdiv b.toInt) := fits_iff.2 (by omega)
  rw [Int64.toInt_sub, toInt_div_of_fits hfits, Int64.toInt_one]
  exact Int.bmod_eq_of_le (by omega) (by omega)

/-- The quotient is rounded down, unless it wraps around. -/
theorem floorDiv?_eq (hb : b ≠ 0) :
    ∃ q, floorDiv? (int a) (int b) = some (int q) ∧
      (q.toInt = ⌊(a.toInt : ℚ) / b.toInt⌋ ↔ ¬(a = Int64.minValue ∧ b = -1)) := by
  refine ⟨_, if_neg hb, ?_⟩
  rw [floor_eq (toInt_ne_zero hb)]
  constructor
  · rintro hq ⟨rfl, rfl⟩
    exact absurd hq (by decide)
  · intro hnot
    have hquotient := toInt_div_of_fits ((fits_tdiv_iff hb).2 hnot)
    simp only [Int64.lt_iff_toInt_lt, ne_eq, ← Int64.toInt_inj, Int64.toInt_mod, Int64.toInt_zero]
    split
    · rename_i h
      exact toInt_div_sub_one hb h.1
    · exact hquotient

theorem natAbs_pow_of_le_one (hz : z.natAbs ≤ 1) (e : Nat) : (z ^ e).natAbs ≤ 1 := by
  rw [Int.natAbs_pow]
  exact pow_le_one₀ (Nat.zero_le _) hz

theorem two_pow_le_natAbs_pow (hz : 1 < z.natAbs) {e : Nat} (he : 64 ≤ e) :
    2 ^ 64 ≤ (z ^ e).natAbs := by
  rw [Int.natAbs_pow]
  calc 2 ^ 64 ≤ 2 ^ e := Nat.pow_le_pow_right (by decide) he
    _ ≤ z.natAbs ^ e := Nat.pow_le_pow_left hz e

theorem not_fits_pow (hz : 1 < z.natAbs) {e : Nat} (he : 64 ≤ e) : ¬Fits (z ^ e) := by
  have hle := two_pow_le_natAbs_pow hz he
  rw [fits_iff]
  omega

/-- The powers of 0, 1 and -1 by the parity of the exponent. -/
theorem pow_of_natAbs_le_one (hz : z.natAbs ≤ 1) (e : Nat) :
    z ^ e = if e % 2 = 0 then (if e = 0 then 1 else (z.natAbs : Int)) else z := by
  have hcases : z = 0 ∨ z = 1 ∨ z = -1 := by omega
  rcases hcases with rfl | rfl | rfl
  · by_cases he : e = 0
    · subst he
      rfl
    · simp [he]
  · simp
  · split
    · rename_i heven
      rw [Even.neg_one_pow (Nat.even_iff.2 heven)]
      simp
    · rename_i hodd
      exact Odd.neg_one_pow (Nat.odd_iff.2 (by omega))

theorem intPow?_eq (z : Int) (e : Nat) :
    intPow? z e = if 4294967296 ≤ e then none else fit? (z ^ e) := by
  unfold intPow?
  split
  · rfl
  · split
    · rename_i hz
      rw [pow_of_natAbs_le_one hz]
    · rename_i hz
      split
      · rfl
      · rename_i he
        exact (fit?_of_not_fits (not_fits_pow (Nat.lt_of_not_le hz) (Nat.le_of_not_lt he))).symm

/-- The power is exact or promoted, unless the exponent is out of the range of 32 bits and the power
is not. -/
theorem pow_promotes_iff (base : Int64) {e : Int64} (he : 0 ≤ e) :
    (pow (int base) (int e)).Promotes (base.toInt ^ e.toInt.toNat) ↔
      ¬(4294967296 ≤ e.toInt ∧ base.toInt.natAbs ≤ 1) := by
  have he' : 0 ≤ e.toInt := Int64.le_iff_toInt_le.1 he
  rw [pow, if_pos he, intPow?_eq]
  by_cases hlarge : 4294967296 ≤ e.toInt
  · rw [if_pos (by omega)]
    show ¬Fits _ ↔ _
    rw [not_iff_not]
    constructor
    · intro hfits
      exact ⟨hlarge, Nat.le_of_not_lt fun hz => not_fits_pow hz (by omega) hfits⟩
    · rintro ⟨-, hz⟩
      have hle := natAbs_pow_of_le_one hz e.toInt.toNat
      exact fits_iff.2 (by omega)
  · rw [if_neg (by omega)]
    exact iff_of_true (promotes_exactOr _ _) fun h => hlarge h.1

end Number

namespace Store

open Operation

/-- The operator gives the number on the two integers, and the store stays as it is. -/
def Answers (s : Store) (op : Operator) (a b : Int64) (n : Number) : Prop :=
  applyInfix op.symbol (.int a) (.int b) s = .ok (.value (.num n)) s

/-- The operator divides the two integers, and the second one is zero. -/
def DividesByZero (s : Store) (op : Operator) (a b : Int64) : Prop :=
  applyInfix op.symbol (.int a) (.int b) s = .error .divisionByZero s

theorem ofText?_symbol (o : Operator) : InfixSymbol.ofText? o.symbol = some (.operator o) := by
  cases o <;> rfl

theorem applyInfix_ints (h : onNumbers o (.int a) (.int b) ≠ .ok none) (s : Store) :
    applyInfix o.symbol (.int a) (.int b) s =
      match onNumbers o (.int a) (.int b) with
      | .ok (some v) => .ok (.value v) s
      | .ok none => .error (s.unsupportedInfix o.symbol (.int a) (.int b)) s
      | .error e => .error e s := by
  have hoperate : operate o (.int a) (.int b) =
      Action.ofExcept (onNumbers o (.int a) (.int b)) := by
    cases o with
    | diamond | arrow => exact absurd rfl h
    | _ => rfl
  show (do return Applied.value (← plainInfix o.symbol (.int a) (.int b)) : Action Applied) s = _
  simp only [plainInfix, ofText?_symbol, hoperate]
  cases onNumbers o (.int a) (.int b) with
  | error e => rfl
  | ok r => cases r <;> rfl

theorem answers_of_ok {n : Number} (s : Store)
    (h : onNumbers o (.int a) (.int b) = .ok (some (.num n))) : s.Answers o a b n := by
  rw [Answers, applyInfix_ints (by rw [h]; simp), h]

theorem dividesByZero_of_error (s : Store)
    (h : onNumbers o (.int a) (.int b) = .error .divisionByZero) :
    s.DividesByZero o a b := by
  rw [DividesByZero, applyInfix_ints (by rw [h]; simp), h]

section

variable {a b : Int64} {n : Number} (s : Store)

theorem answers_slash (h : Number.div? (.int a) (.int b) = some n) : s.Answers .slash a b n :=
  answers_of_ok s (by simp only [onNumbers, h])

theorem answers_percent (h : Number.rem? (.int a) (.int b) = some n) : s.Answers .percent a b n :=
  answers_of_ok s (by simp only [onNumbers, h])

theorem answers_doubleSlash (h : Number.floorDiv? (.int a) (.int b) = some n) :
    s.Answers .doubleSlash a b n :=
  answers_of_ok s (by simp only [onNumbers, h])

end

end Store

open Store Number

/-- Sums, differences, products and negations of integers are exact, or doubles because they do not
fit. Division by zero has no quotient and no remainder. Else the remainder is an integer smaller
than the divisor and zero or of the dividend's sign, and the quotient is the integer that goes with
it; only the one quotient that does not fit is a double. -/
theorem int_arithmetic_exact (s : Store) (a b : Int64) :
    (∃ n, s.Answers .plus a b n ∧ n.Promotes (a.toInt + b.toInt)) ∧
    (∃ n, s.Answers .minus a b n ∧ n.Promotes (a.toInt - b.toInt)) ∧
    (∃ n, s.Answers .star a b n ∧ n.Promotes (a.toInt * b.toInt)) ∧
    (∃ n, s.applyPrefix "-" (.int a) = .ok (.value (.num n)) ∧ n.Promotes (-a.toInt)) ∧
    (b = 0 ∧ s.DividesByZero .slash a b ∧ s.DividesByZero .percent a b ∨
      b ≠ 0 ∧ ∃ r : Int64, s.Answers .percent a b (.int r) ∧ r.toInt.natAbs < b.toInt.natAbs ∧
        (r = 0 ∨ r.toInt.sign = a.toInt.sign) ∧
        if a = Int64.minValue ∧ b = -1 then r = 0 ∧ ∃ d, s.Answers .slash a b (.float d)
        else ∃ q : Int64, s.Answers .slash a b (.int q) ∧
          a.toInt = q.toInt * b.toInt + r.toInt) := by
  refine ⟨⟨_, answers_of_ok s rfl, promotes_exactOr _ _⟩,
    ⟨_, answers_of_ok s rfl, promotes_exactOr _ _⟩,
    ⟨_, answers_of_ok s rfl, promotes_exactOr _ _⟩, ⟨_, rfl, promotes_exactOr _ _⟩, ?_⟩
  by_cases hb : b = 0
  · subst hb
    exact .inl ⟨rfl, dividesByZero_of_error s rfl, dividesByZero_of_error s rfl⟩
  · obtain ⟨hsmall, hsign⟩ := rem_bounds (a := a) hb
    refine .inr ⟨hb, a % b, answers_percent s (if_neg hb), hsmall, hsign, ?_⟩
    split
    · rename_i hpair
      refine ⟨?_, _, answers_slash s ((if_neg hb).trans (congrArg some (exactOr_of_not_fits ?_ _)))⟩
      · obtain ⟨rfl, rfl⟩ := hpair
        decide
      · exact fun hfits => (fits_tdiv_iff hb).1 hfits hpair
    · rename_i hpair
      have hfits := (fits_tdiv_iff hb).2 hpair
      refine ⟨_, answers_slash s ((if_neg hb).trans (congrArg some (exactOr_of_fits hfits _))), ?_⟩
      rw [toInt_of_fits hfits, Int64.toInt_mod]
      exact (Int.tdiv_mul_add_tmod _ _).symm

/-- Division by zero has no floor. Else `//` gives the floor of the quotient, exactly unless that is
the one quotient that does not fit. -/
theorem floor_division_exact_iff (s : Store) (a b : Int64) :
    b = 0 ∧ s.DividesByZero .doubleSlash a b ∨
      b ≠ 0 ∧ ∃ q : Int64, s.Answers .doubleSlash a b (.int q) ∧
        (q.toInt = ⌊(a.toInt : ℚ) / b.toInt⌋ ↔ ¬(a = Int64.minValue ∧ b = -1)) := by
  by_cases hb : b = 0
  · subst hb
    exact .inl ⟨rfl, dividesByZero_of_error s rfl⟩
  · obtain ⟨q, hq, hiff⟩ := floorDiv?_eq (a := a) hb
    exact .inr ⟨hb, q, answers_doubleSlash s hq, hiff⟩

/-- The quotient that does not fit wraps around: it has the wrong sign. -/
theorem floor_division_wraps :
    Store.initial.Answers .doubleSlash Int64.minValue (-1) (.int Int64.minValue) ∧
      Int64.minValue.toInt ≠ ⌊(Int64.minValue.toInt : ℚ) / (-1 : Int64).toInt⌋ := by
  refine ⟨answers_doubleSlash _ (by decide), ?_⟩
  rw [floor_eq (by decide)]
  decide

/-- The power of an integer by an exponent that is not negative is exact, or a double because it
does not fit, unless the exponent is out of the range of 32 bits and the power still fits. -/
theorem power_promotes_iff (s : Store) (base : Int64) {e : Int64} (he : 0 ≤ e) :
    ∃ n, s.Answers .caret base e n ∧
      (n.Promotes (base.toInt ^ e.toInt.toNat) ↔ ¬(4294967296 ≤ e.toInt ∧ base.toInt.natAbs ≤ 1)) :=
  ⟨_, answers_of_ok s rfl, pow_promotes_iff base he⟩

/-- The least integer is a power. -/
theorem power_promotes_iff_minValue :
    (0 : Int64) ≤ 63 ∧ Store.initial.Answers .caret (-2) 63 (.int Int64.minValue) := by
  refine ⟨by decide, ?_⟩
  obtain ⟨n, hn, hiff⟩ := power_promotes_iff .initial (-2) (e := 63) (by decide)
  have hpromotes := hiff.2 (by decide)
  cases n with
  | int i =>
    have hi : i = Int64.minValue := Int64.toInt_inj.1 (hpromotes.trans (by decide))
    rwa [hi] at hn
  | float d => exact absurd ((fits_iff (z := _)).2 (by decide)) hpromotes

/-- A power of 1 fits whatever the exponent is, but with an exponent of 33 bits it is a double. -/
theorem power_of_one_promoted :
    Fits ((1 : Int64).toInt ^ (4294967296 : Int64).toInt.toNat) ∧
      ∃ d, Store.initial.Answers .caret 1 4294967296 (.float d) := by
  refine ⟨?_, _, answers_of_ok _ rfl⟩
  rw [Int64.toInt_one, one_pow]
  exact fits_iff.2 (by decide)

end Refscript
