import Mathlib.Data.List.Zip
import Refscript.Store.Equality

/-!
# Refscript.Proofs.Store.Difference

When two values are unequal, whatever cycles their lists make. Positions are followed through the
items of two values in parallel, and the values are unequal exactly if this leads to two items that
differ by themselves.

* `Store.unlike`, `Store.follow?`: items that differ by themselves, and the way to them.
* `equalIn_eq_false_iff`: one step of the comparison, for all sorts of values at once.
* `equalIn_eq_false`: a pair of lists that is under comparison hides no difference. Such a pair is
  farther from a difference than the items at hand, so the shortest way to a difference never comes
  back to it.
-/

namespace Refscript

theorem Double.eq_comm (a b : Double) : a.eq b = b.eq a := by
  unfold Double.eq
  rw [Bool.and_comm (x := !a.isNaN), BEq.comm (a := a.key)]

theorem Number.eq_comm (a b : Number) : a.eq b = b.eq a := by
  cases a <;> cases b <;> simp only [Number.eq, Double.eq_comm, Bool.beq_comm]

namespace Store

/-- Two values that differ by themselves, whatever their items are: values of different sorts, lists
or tuples of different lengths, and other values that are not the same. -/
def unlike (s : Store) : Value → Value → Bool
  | .null, .null => false
  | .bool a, .bool b => a != b
  | .num a, .num b => !a.eq b
  | .str a, .str b => a != b
  | .list a, .list b => (s.listItems a).size != (s.listItems b).size
  | .tuple xs, .tuple ys => xs.length != ys.length
  | .closure a, .closure b => a != b
  | .callback a, .callback b => a != b
  | .type a, .type b => a != b
  | .object a, .object b => a != b
  | .kit a, .kit b => a != b
  | .ref a _, .ref b _ => a != b
  | _, _ => true

/-- The items at a position of two lists or of two tuples. A list is not entered beside itself. -/
def itemsAt? (s : Store) (i : Nat) : Value → Value → Option (Value × Value)
  | .list a, .list b =>
    if a = b then none else ((s.listItems a).toList.zip (s.listItems b).toList)[i]?
  | .tuple xs, .tuple ys => (xs.zip ys)[i]?
  | _, _ => none

/-- Where positions lead that are followed through the items of two values in parallel. -/
def follow? (s : Store) : List Nat → Value → Value → Option (Value × Value)
  | [], x, y => some (x, y)
  | i :: path, x, y =>
    match s.itemsAt? i x y with
    | some (x, y) => s.follow? path x y
    | none => none

/-- The positions lead to items that differ. -/
def Distinguishes (s : Store) (path : List Nat) (x y : Value) : Prop :=
  ∃ x' y', s.follow? path x y = some (x', y') ∧ s.unlike x' y' = true

variable {s : Store} {pending : List (ListId × ListId)} {x y x' y' : Value} {i : Nat}
  {path : List Nat}

theorem distinguishes_cons (hitems : s.itemsAt? i x y = some (x', y')) :
    s.Distinguishes (i :: path) x y ↔ s.Distinguishes path x' y' := by
  rw [Distinguishes, follow?, hitems]
  exact Iff.rfl

/-- Whether two values are a pair of lists that is under comparison. -/
def isPending (pending : List (ListId × ListId)) : Value → Value → Bool
  | .list a, .list b => pending.contains (a, b)
  | _, _ => false

/-- The pairs of lists under comparison while the items of two values are compared. -/
def within (pending : List (ListId × ListId)) : Value → Value → List (ListId × ListId)
  | .list a, .list b => (a, b) :: pending
  | _, _ => pending

theorem equalAll_eq_false_iff {xs ys : List Value} :
    s.equalAll pending xs ys = false ↔
      xs.length ≠ ys.length ∨
        ∃ (i : Nat) (x y : Value), (xs.zip ys)[i]? = some (x, y) ∧
          s.equalIn pending x y = false := by
  induction xs generalizing ys with
  | nil => cases ys <;> simp [equalAll]
  | cons x xs ih =>
    cases ys with
    | nil => simp [equalAll]
    | cons y ys =>
      rw [equalAll, Bool.and_eq_false_iff, ih]
      constructor
      · rintro (hfirst | hlength | ⟨i, x', y', hi, hne⟩)
        · exact .inr ⟨0, x, y, rfl, hfirst⟩
        · exact .inl (by simpa using hlength)
        · exact .inr ⟨i + 1, x', y', hi, hne⟩
      · rintro (hlength | ⟨i, x', y', hi, hne⟩)
        · exact .inr (.inl (by simpa using hlength))
        · cases i with
          | zero =>
            cases hi
            exact .inl hne
          | succ i => exact .inr (.inr ⟨i, x', y', hi, hne⟩)

theorem equalIn_list (a b : ListId) :
    s.equalIn pending (.list a) (.list b) = (decide (a = b) || pending.contains (a, b) ||
      s.equalAll ((a, b) :: pending) (s.listItems a).toList (s.listItems b).toList) := by
  -- lists of different lengths are not equal
  have hall : ((s.listItems a).size == (s.listItems b).size &&
      s.equalAll ((a, b) :: pending) (s.listItems a).toList (s.listItems b).toList) =
      s.equalAll ((a, b) :: pending) (s.listItems a).toList (s.listItems b).toList := by
    by_cases hsize : (s.listItems a).size = (s.listItems b).size
    · simp [hsize]
    · rw [equalAll_eq_false_iff.2 (.inl (by simpa using hsize)), Bool.and_false]
  rw [equalIn]
  split
  · rename_i hold
    rcases hold with hold | hold
    · simp [hold]
    · rw [hold, Bool.or_true, Bool.true_or]
  · rename_i hnew
    rw [not_or, Bool.not_eq_true] at hnew
    rw [decide_eq_false hnew.1, hnew.2, Bool.or_self, Bool.false_or, ← hall]
    split
    · rename_i hab
      simp [listItems, Array.getD_eq_getD_getElem?, hab.1, hab.2]
    · rename_i hab
      by_cases hsize : (s.listItems a).size = (s.listItems b).size
      · -- one of the lists is not there, so both are empty
        have hempty : s.listItems a = #[] ∧ s.listItems b = #[] := by
          rw [← Array.size_eq_zero_iff, ← Array.size_eq_zero_iff, ← hsize, and_self]
          rcases Nat.lt_or_ge a s.lists.size with ha | ha
          · have hb : s.lists.size ≤ b := Nat.le_of_not_lt fun hb => hab ⟨ha, hb⟩
            rw [hsize, listItems_of_le hb, Array.size_empty]
          · rw [listItems_of_le ha, Array.size_empty]
        rw [hempty.1, hempty.2, equalAll, Bool.and_true]
      · simp [hsize]

/-- Two values are unequal if they differ by themselves or have unequal items at a position, unless
they are lists that are under comparison already. -/
theorem equalIn_eq_false_iff :
    s.equalIn pending x y = false ↔ isPending pending x y = false ∧ (s.unlike x y = true ∨
      ∃ i x' y', s.itemsAt? i x y = some (x', y') ∧
      s.equalIn (within pending x y) x' y' = false) := by
  cases x with
  | list a =>
    cases y with
    | list b =>
      rw [equalIn_list, Bool.or_eq_false_iff, Bool.or_eq_false_iff, decide_eq_false_iff_not,
        equalAll_eq_false_iff]
      simp only [isPending, unlike, itemsAt?, within, bne_iff_ne, Array.length_toList]
      by_cases hab : a = b
      · subst hab
        simp
      · simp [hab]
    | _ => simp [equalIn, isPending, unlike]
  | tuple xs =>
    cases y with
    | tuple ys =>
      rw [equalIn, equalAll_eq_false_iff]
      simp [isPending, unlike, itemsAt?, within]
    | _ => simp [equalIn, isPending, unlike]
  | _ => cases y <;> simp [equalIn, isPending, unlike, itemsAt?]

/-- A step into the items of two values: there are fewer pairs of lists left to compare, or the
first value is smaller. -/
theorem itemsAt?_decreases (hnew : isPending pending x y = false)
    (hitems : s.itemsAt? i x y = some (x', y')) :
    Prod.Lex (· < ·) (· < ·) (s.uncompared (within pending x y), sizeOf x')
      (s.uncompared pending, sizeOf x) := by
  unfold itemsAt? at hitems
  split at hitems
  · rename_i a b
    split at hitems
    · cases hitems
    · obtain ⟨ha, hb⟩ := List.getElem?_zip_eq_some.1 hitems
      have ha := lt_of_mem_listItems (List.mem_of_getElem? ha)
      have hb := lt_of_mem_listItems (List.mem_of_getElem? hb)
      exact Prod.Lex.left _ _ (uncompared_cons_lt ha hb hnew)
  · rename_i xs ys
    have hmem : x' ∈ xs := List.mem_of_getElem? (List.getElem?_zip_eq_some.1 hitems).1
    have hsize := List.sizeOf_lt_of_mem hmem
    refine Prod.Lex.right _ ?_
    rw [Value.tuple.sizeOf_spec]
    omega
  · cases hitems

/-- Values that are found unequal have a difference. -/
theorem distinguishes_of_equalIn {pending : List (ListId × ListId)} {x y : Value}
    (h : s.equalIn pending x y = false) : ∃ path, s.Distinguishes path x y := by
  obtain ⟨hnew, hunlike | ⟨i, x', y', hitems, hrest⟩⟩ := equalIn_eq_false_iff.1 h
  · exact ⟨[], x, y, rfl, hunlike⟩
  · obtain ⟨path, hpath⟩ := distinguishes_of_equalIn hrest
    exact ⟨i :: path, (distinguishes_cons hitems).2 hpath⟩
termination_by (s.uncompared pending, sizeOf x)
decreasing_by exact itemsAt?_decreases hnew hitems

/-- Values with a difference are found unequal if all pairs of lists under comparison are farther
from a difference. -/
theorem equalIn_eq_false (hpath : s.Distinguishes path x y)
    (hfar : ∀ p ∈ pending, ∀ other, s.Distinguishes other (.list p.1) (.list p.2) →
      path.length < other.length) :
    s.equalIn pending x y = false := by
  induction hn : path.length using Nat.strongRecOn generalizing path pending x y with
  | ind n ih =>
    subst hn
    have hnew : isPending pending x y = false := by
      unfold isPending
      split
      · rename_i a b
        rw [← Bool.not_eq_true, List.contains_iff_mem]
        exact fun hmem => Nat.lt_irrefl _ (hfar _ hmem path hpath)
      · rfl
    cases path with
    | nil =>
      obtain ⟨_, _, heq, hunlike⟩ := hpath
      cases heq
      exact equalIn_eq_false_iff.2 ⟨hnew, .inl hunlike⟩
    | cons i rest =>
      by_cases hshorter : ∃ other, s.Distinguishes other x y ∧ other.length < (i :: rest).length
      · obtain ⟨other, hother, hlt⟩ := hshorter
        exact ih other.length hlt hother
          (fun p hp path' hpath' => Nat.lt_trans hlt (hfar p hp path' hpath')) rfl
      · -- this is the shortest way, so the items are nearer to a difference than the values
        obtain ⟨⟨x', y'⟩, hitems⟩ : ∃ p, s.itemsAt? i x y = some p := by
          obtain ⟨_, _, heq, _⟩ := hpath
          rw [follow?] at heq
          split at heq
          · exact ⟨_, by assumption⟩
          · cases heq
        have hrest := (distinguishes_cons hitems).1 hpath
        refine equalIn_eq_false_iff.2 ⟨hnew, .inr ⟨i, x', y', hitems, ?_⟩⟩
        refine ih rest.length (Nat.lt_succ_self _) hrest (fun p hp other hother => ?_) rfl
        have hold : p ∈ pending → rest.length < other.length := fun hp =>
          Nat.lt_trans (Nat.lt_succ_self _) (hfar p hp other hother)
        unfold within at hp
        split at hp
        · rcases List.mem_cons.1 hp with rfl | hp
          · exact Nat.lt_of_not_le fun hle => hshorter ⟨other, hother, Nat.lt_succ_of_le hle⟩
          · exact hold hp
        · exact hold hp

theorem unlike_comm (s : Store) (x y : Value) : s.unlike x y = s.unlike y x := by
  cases x <;> cases y <;> simp only [unlike, Number.eq_comm, bne_comm]

theorem itemsAt?_swap (s : Store) (i : Nat) (x y : Value) :
    s.itemsAt? i y x = (s.itemsAt? i x y).map Prod.swap := by
  cases x with
  | list a =>
    cases y with
    | list b =>
      simp only [itemsAt?, eq_comm (a := b)]
      split
      · rfl
      · rw [← List.getElem?_map, List.zip_swap]
    | _ => rfl
  | tuple xs =>
    cases y with
    | tuple ys => rw [itemsAt?, itemsAt?, ← List.getElem?_map, List.zip_swap]
    | _ => rfl
  | _ => cases y <;> rfl

theorem Distinguishes.symm (h : s.Distinguishes path x y) : s.Distinguishes path y x := by
  induction path generalizing x y with
  | nil =>
    obtain ⟨_, _, heq, hunlike⟩ := h
    cases heq
    exact ⟨y, x, rfl, by rw [unlike_comm]; exact hunlike⟩
  | cons i path ih =>
    cases hitems : s.itemsAt? i x y with
    | none =>
      obtain ⟨_, _, heq, _⟩ := h
      rw [follow?, hitems] at heq
      cases heq
    | some p =>
      obtain ⟨x', y'⟩ := p
      have hswap : s.itemsAt? i y x = some (y', x') := by rw [itemsAt?_swap, hitems]; rfl
      exact (distinguishes_cons hswap).2 (ih ((distinguishes_cons hitems).1 h))

theorem equal_eq_false_iff : s.equal x y = false ↔ ∃ path, s.Distinguishes path x y :=
  ⟨distinguishes_of_equalIn, fun ⟨_, hpath⟩ => equalIn_eq_false hpath nofun⟩

/-- In every store, whatever cycles its lists make, comparing two values gives an answer. It does
not depend on which of the two comes first, and it is that they are unequal exactly if positions
followed through both of them in parallel, never into one and the same list, lead to items that
differ. -/
theorem equal_exact (s : Store) (u v : Value) :
    s.equal u v = s.equal v u ∧
    (s.equal u v = false ↔ ∃ path x y, s.follow? path u v = some (x, y) ∧ s.unlike x y = true) := by
  refine ⟨?_, equal_eq_false_iff⟩
  have hsymm : s.equal u v = false ↔ s.equal v u = false := by
    rw [equal_eq_false_iff, equal_eq_false_iff]
    exact ⟨fun ⟨path, h⟩ => ⟨path, h.symm⟩, fun ⟨path, h⟩ => ⟨path, h.symm⟩⟩
  cases hu : s.equal u v with
  | false => rw [hsymm.1 hu]
  | true =>
    cases hv : s.equal v u with
    | false =>
      rw [hsymm.2 hv] at hu
      cases hu
    | true => rfl

end Store
end Refscript
