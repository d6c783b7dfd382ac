import Refscript.Machine.Basic
import Refscript.Proofs.Number.Arithmetic

/-!
# Refscript.Proofs.Number.Range

The range operator on two integers, up to the bounds of 64 bits. A range upward is counted from its
start; a range downward is counted up from the number after its end, and turned around.

* `Operation.getElem?_countOn`: counting gives one integer after the other as long as they fit.
* `Operation.range_of_le`, `Operation.range_of_lt`: the elements of a range, upward and downward.
* `range_reaches_bounds`: what the operator answers, for all integers.
-/

namespace Refscript

variable {a b low : Int64} {i n : Nat} {items : Array Value}

namespace Operation

theorem size_countOn (items : Array Value) (low : Int64) (n : Nat) :
    (countOn items low n).size = items.size + n := by
  induction n generalizing items low with
  | zero => rfl
  | succ n ih =>
    rw [countOn, ih, Array.size_push]
    omega

theorem getElem?_countOn_of_lt (hi : i < items.size) (low : Int64) (n : Nat) :
    (countOn items low n)[i]? = items[i]? := by
  induction n generalizing items low with
  | zero => rfl
  | succ n ih =>
    rw [countOn, ih (by rw [Array.size_push]; omega), Array.getElem?_push, if_neg (by omega)]

theorem toInt_add_one (h : a.toInt < 9223372036854775807) : (a + 1).toInt = a.toInt + 1 := by
  have ha := Number.fits_iff.1 (Number.fits_toInt a)
  rw [Int64.toInt_add, Int64.toInt_one]
  exact Int.bmod_eq_of_le (by omega) (by omega)

theorem getElem?_countOn (items : Array Value) (low : Int64)
    (hfits : low.toInt + n ≤ 9223372036854775808) (hi : i < n) :
    (countOn items low n)[items.size + i]? = some (.int (Int64.ofInt (low.toInt + i))) := by
  induction n generalizing items low i with
  | zero => omega
  | succ n ih =>
    rw [countOn]
    cases i with
    | zero =>
      rw [Nat.add_zero, getElem?_countOn_of_lt (by rw [Array.size_push]; omega),
        Array.getElem?_push_size, Int.natCast_zero, Int.add_zero, Int64.ofInt_toInt]
    | succ i =>
      -- another element follows, so the addition does not wrap around
      have hstep : (low + 1).toInt = low.toInt + 1 := toInt_add_one (by omega)
      have hnext := ih (items.push (.int low)) (low + 1) (i := i) (by omega) (by omega)
      rw [Array.size_push, hstep] at hnext
      rw [show items.size + (i + 1) = items.size + 1 + i by omega, hnext]
      congr 3
      omega

/-- The number after the end of a range downward, from which it is counted. -/
theorem toInt_succ_of_lt (hba : b < a) : (b + 1).toInt = b.toInt + 1 := by
  have ha := Number.fits_iff.1 (Number.fits_toInt a)
  have hlt := Int64.lt_iff_toInt_lt.1 hba
  exact toInt_add_one (by omega)

theorem element_fits (hi : i < distance a b) :
    Number.Fits (if a ≤ b then a.toInt + i else a.toInt - i) := by
  have ha := Number.fits_iff.1 (Number.fits_toInt a)
  have hb := Number.fits_iff.1 (Number.fits_toInt b)
  have hi : i < (a.toInt - b.toInt).natAbs := hi
  rw [Number.fits_iff]
  split
  · rename_i hab
    have := Int64.le_iff_toInt_le.1 hab
    omega
  · rename_i hab
    have := Int64.le_iff_toInt_le.not.1 hab
    omega

theorem range_of_le (hlength : distance a b ≤ Value.capacity) (hab : a ≤ b) :
    range a b = .ok (countOn #[] a (distance a b)) ∧
      ∀ i, i < distance a b →
        (countOn #[] a (distance a b))[i]? = some (.int (Int64.ofInt (a.toInt + i))) := by
  have hb := Number.fits_iff.1 (Number.fits_toInt b)
  have hle := Int64.le_iff_toInt_le.1 hab
  refine ⟨?_, fun i hi => ?_⟩
  · rw [range, if_neg (Nat.not_lt.2 hlength), if_pos hab]
  · have hfits : a.toInt + distance a b ≤ 9223372036854775808 := by
      unfold distance
      omega
    simpa using getElem?_countOn #[] a hfits hi

theorem range_of_lt (hlength : distance a b ≤ Value.capacity) (hba : b < a) :
    range a b = .ok (countOn #[] (b + 1) (distance a b)).reverse ∧
      ∀ i, i < distance a b →
        (countOn #[] (b + 1) (distance a b)).reverse[i]? =
          some (.int (Int64.ofInt (a.toInt - i))) := by
  have ha := Number.fits_iff.1 (Number.fits_toInt a)
  have hlt := Int64.lt_iff_toInt_lt.1 hba
  have hdistance : (distance a b : Int) = a.toInt - b.toInt := by
    unfold distance
    omega
  have hsucc := toInt_succ_of_lt hba
  refine ⟨?_, fun i hi => ?_⟩
  · rw [range, if_neg (Nat.not_lt.2 hlength), if_neg (Int64.not_le.2 hba)]
  · have hsize : (countOn #[] (b + 1) (distance a b)).size = distance a b := by
      rw [size_countOn, Array.size_empty, Nat.zero_add]
    have helement := getElem?_countOn #[] (b + 1) (n := distance a b)
      (i := distance a b - 1 - i) (by omega) (by omega)
    rw [Array.size_empty, Nat.zero_add, hsucc] at helement
    rw [Array.getElem?_reverse (by omega), hsize, helement]
    congr 3
    omega

end Operation

open Operation

theorem Store.applyInfix_arrow (s : Store) (a b : Int64) :
    applyInfix "->" (.int a) (.int b) s =
      (Action.ofExcept (range a b) >>= fun items =>
        .value <$> Action.adding (·.newList items)) s := by
  show (((Action.ofExcept (range a b) >>= fun items => some <$> Action.adding (·.newList items)) >>=
    _) >>= _) s = _
  cases range a b <;> rfl

/-- Within what fits in memory, `a -> b` is a new list. It has as many elements as there are
integers from `a` to `b`, `b` left out: the element at place `i` is `i` more than `a`, or `i` less
if `b` is below. So it starts at `a` and ends next to `b`, and no addition leaves the range of 64
bits. A longer list is never made: the machine cannot go on. -/
theorem range_reaches_bounds (a b : Int64) :
    ((a.toInt - b.toInt).natAbs ≤ Value.capacity → ∀ s, ∃ items : Array Value,
      Store.applyInfix "->" (.int a) (.int b) s =
        .ok (.value (.list s.lists.size)) { s with lists := s.lists.push items } ∧
      items.size = (a.toInt - b.toInt).natAbs ∧
      (∀ i, i < items.size → ∃ k : Int64, items[i]? = some (.int k) ∧
        k.toInt = if a ≤ b then a.toInt + i else a.toInt - i) ∧
      (a ≠ b → items[0]? = some (.int a) ∧
        ∃ k : Int64, items.back? = some (.int k) ∧
          b.toInt = if a ≤ b then k.toInt + 1 else k.toInt - 1)) ∧
    (b < a → (b + 1).toInt = b.toInt + 1) ∧
    (Value.capacity < (a.toInt - b.toInt).natAbs → ∀ m : Machine,
      m.applyInfix "->" (.int a) (.int b) = .stuck m.unwind) := by
  refine ⟨fun hlength s => ?_, toInt_succ_of_lt, fun hlength m => ?_⟩
  · obtain ⟨items, hrange, hsize, hget⟩ : ∃ items, range a b = .ok items ∧
        items.size = distance a b ∧ ∀ i, i < distance a b →
          items[i]? = some (.int (Int64.ofInt (if a ≤ b then a.toInt + i else a.toInt - i))) := by
      by_cases hab : a ≤ b
      · obtain ⟨hrange, hget⟩ := range_of_le hlength hab
        refine ⟨_, hrange, by rw [size_countOn, Array.size_empty, Nat.zero_add], ?_⟩
        simpa only [if_pos hab] using hget
      · obtain ⟨hrange, hget⟩ := range_of_lt hlength (Int64.not_le.1 hab)
        refine ⟨_, hrange, ?_, by simpa only [if_neg hab] using hget⟩
        rw [Array.size_reverse, size_countOn, Array.size_empty, Nat.zero_add]
    have helement : ∀ i, i < items.size → ∃ k : Int64, items[i]? = some (.int k) ∧
        k.toInt = if a ≤ b then a.toInt + i else a.toInt - i := by
      intro i hi
      rw [hsize] at hi
      exact ⟨_, hget i hi, Number.toInt_of_fits (element_fits hi)⟩
    refine ⟨items, by rw [s.applyInfix_arrow, hrange]; rfl, hsize, helement, fun hne => ?_⟩
    have hint : a.toInt ≠ b.toInt := fun h => hne (Int64.toInt_inj.1 h)
    have hsize : items.size = (a.toInt - b.toInt).natAbs := hsize
    obtain ⟨first, hfirst, hfirst_eq⟩ := helement 0 (by omega)
    obtain ⟨last, hlast, hlast_eq⟩ := helement (items.size - 1) (by omega)
    refine ⟨?_, last, ?_, ?_⟩
    · have : first = a := Int64.toInt_inj.1 (by simpa using hfirst_eq)
      rw [hfirst, this]
    · rw [Array.back?, hlast]
    · by_cases hab : a ≤ b
      · have := Int64.le_iff_toInt_le.1 hab
        simp only [hab, if_true] at hlast_eq ⊢
        omega
      · have := Int64.le_iff_toInt_le.not.1 hab
        simp only [hab, if_false] at hlast_eq ⊢
        omega
  · have hrange : range a b = .error .capacityOverflow := if_pos hlength
    rw [Machine.applyInfix, m.store.applyInfix_arrow, hrange]
    rfl

/-- The integers from zero to the greatest one are too many for a list. -/
theorem range_unmade_to_greatest :
    Value.capacity < ((0 : Int64).toInt - (9223372036854775807 : Int64).toInt).natAbs ∧
      ∀ m : Machine, m.applyInfix "->" (.int 0) (.int 9223372036854775807) = .stuck m.unwind :=
  ⟨by decide, fun _ => rfl⟩

end Refscript
