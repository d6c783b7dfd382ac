import Refscript.Store.Basic

/-!
# Refscript.Store.Equality

Equality of values: by content for data, by identity for all else. A pair of lists that is being
compared further out counts as equal, so that lists which contain themselves can be compared.
-/

namespace Refscript
namespace Store

/-- All pairs of lists of the store. -/
def listPairs (s : Store) : List (ListId × ListId) :=
  (List.range s.lists.size).flatMap fun a => (List.range s.lists.size).map fun b => (a, b)

theorem mem_listPairs {s : Store} {a b : ListId} (ha : a < s.lists.size) (hb : b < s.lists.size) :
    (a, b) ∈ s.listPairs := by
  simp only [listPairs, List.mem_flatMap, List.mem_map, List.mem_range]
  exact ⟨a, ha, b, hb, rfl⟩

/-- How many pairs of lists are not among the given ones. -/
def uncompared (s : Store) (pending : List (ListId × ListId)) : Nat :=
  (s.listPairs.filter fun p => !pending.contains p).length

theorem uncompared_cons_lt {s : Store} {pending : List (ListId × ListId)} {a b : ListId}
    (ha : a < s.lists.size) (hb : b < s.lists.size) (hnew : pending.contains (a, b) = false) :
    s.uncompared ((a, b) :: pending) < s.uncompared pending := by
  have hsplit : (s.listPairs.filter fun p => !((a, b) :: pending).contains p)
      = (s.listPairs.filter fun p => !pending.contains p).filter (fun p => p != (a, b)) := by
    rw [List.filter_filter]
    apply List.filter_congr
    intro x _
    simp only [List.contains_cons, Bool.not_or]
    rfl
  unfold uncompared
  rw [hsplit]
  apply List.length_filter_lt_length_iff_exists.mpr
  exact ⟨(a, b), List.mem_filter.mpr ⟨mem_listPairs ha hb, by rw [hnew]; rfl⟩, by simp⟩

mutual

/-- Whether two values are equal, given the pairs of lists under comparison. -/
def equalIn (s : Store) (pending : List (ListId × ListId)) (x y : Value) : Bool :=
  match x, y with
  | .null, .null => true
  | .bool a, .bool b => a == b
  | .num a, .num b => a.eq b
  | .str a, .str b => a == b
  | .list a, .list b =>
    if hold : a = b ∨ pending.contains (a, b) then true
    else if hab : a < s.lists.size ∧ b < s.lists.size then
      have := hab.1
      have := hab.2
      s.lists[a].size == s.lists[b].size && s.equalAll ((a, b) :: pending) s.lists[a].toList
        s.lists[b].toList
    else (s.listItems a).size == (s.listItems b).size
  | .tuple xs, .tuple ys => s.equalAll pending xs ys
  | .closure a, .closure b => a == b
  | .callback a, .callback b => a == b
  | .type a, .type b => a == b
  | .object a, .object b => a == b
  | .kit a, .kit b => a == b
  | .ref a _, .ref b _ => a == b
  | _, _ => false
termination_by (s.uncompared pending, sizeOf x)
decreasing_by
  · exact Prod.Lex.left _ _ (uncompared_cons_lt hab.1 hab.2 (by
      simp only [not_or, Bool.not_eq_true] at hold
      exact hold.2))
  · exact Prod.Lex.right _ (by rw [Value.tuple.sizeOf_spec]; omega)

/-- Whether two sequences have the same length and equal items. -/
def equalAll (s : Store) (pending : List (ListId × ListId)) (xs ys : List Value) : Bool :=
  match xs, ys with
  | [], [] => true
  | x :: xs, y :: ys => s.equalIn pending x y && s.equalAll pending xs ys
  | _, _ => false
termination_by (s.uncompared pending, sizeOf xs)
decreasing_by
  · exact Prod.Lex.right _ (by rw [List.cons.sizeOf_spec]; omega)
  · exact Prod.Lex.right _ (by rw [List.cons.sizeOf_spec]; omega)

end

def equal (s : Store) (x y : Value) : Bool :=
  s.equalIn [] x y

end Store
end Refscript
