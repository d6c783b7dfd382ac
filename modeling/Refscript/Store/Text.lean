import Refscript.Store.Basic

/-!
# Refscript.Store.Text

The text of values. A list that is being written further out is written as `[...]`, so that lists
which contain themselves have a text too.
-/

namespace Refscript
namespace Store

/-- How many lists of the store are not among the given ones. -/
def unopened (s : Store) (opened : List ListId) : Nat :=
  ((List.range s.lists.size).filter fun id => !opened.contains id).length

theorem unopened_cons_lt {s : Store} {opened : List ListId} {id : ListId} (hid : id < s.lists.size)
    (hnew : opened.contains id = false) : s.unopened (id :: opened) < s.unopened opened := by
  have hmem : id ∈ List.range s.lists.size := List.mem_range.mpr hid
  have hsplit : ((List.range s.lists.size).filter fun x => !(id :: opened).contains x)
      = ((List.range s.lists.size).filter fun x => !opened.contains x).filter
        (fun x => x != id) := by
    rw [List.filter_filter]
    apply List.filter_congr
    intro x _
    simp only [List.contains_cons, Bool.not_or]
    rfl
  unfold unopened
  rw [hsplit]
  apply List.length_filter_lt_length_iff_exists.mpr
  exact ⟨id, List.mem_filter.mpr ⟨hmem, by rw [hnew]; rfl⟩, by simp⟩

mutual

/-- The text of a value; strings are quoted where `quoted` says so and always inside lists and
tuples. -/
def render (s : Store) (opened : List ListId) (quoted : Bool) (v : Value) : String :=
  match v with
  | .null => "null"
  | .bool b => toString b
  | .num n => n.text
  | .str t => if quoted then Text.quote t else t
  | .list id =>
    if hold : opened.contains id then "[...]"
    else if hid : id < s.lists.size then
      "[" ++ ", ".intercalate (s.renderAll (id :: opened) s.lists[id].toList) ++ "]"
    else "[]"
  | .tuple [item] => "(" ++ s.render opened true item ++ ",)"
  | .tuple items => "(" ++ ", ".intercalate (s.renderAll opened items) ++ ")"
  | .closure id => "fn " ++ (s.closure id).prototype.displayName
  | .callback id => "callback " ++ (s.callback id).name
  | .type id => "type " ++ (s.type id).name
  | .object id => (s.typeOf id).name ++ " object"
  | .kit id => "kit " ++ (s.kit id).name
  | .ref _ place => place.kindName ++ " reference"
termination_by (s.unopened opened, sizeOf v)
decreasing_by
  · exact Prod.Lex.left _ _ (unopened_cons_lt hid (by simpa using hold))
  · exact Prod.Lex.right _ (by rw [Value.tuple.sizeOf_spec, List.cons.sizeOf_spec]; omega)
  · exact Prod.Lex.right _ (by rw [Value.tuple.sizeOf_spec]; omega)

/-- The texts of items, strings quoted. -/
def renderAll (s : Store) (opened : List ListId) (vs : List Value) : List String :=
  match vs with
  | [] => []
  | v :: rest => s.render opened true v :: s.renderAll opened rest
termination_by (s.unopened opened, sizeOf vs)
decreasing_by
  · exact Prod.Lex.right _ (by rw [List.cons.sizeOf_spec]; omega)
  · exact Prod.Lex.right _ (by rw [List.cons.sizeOf_spec]; omega)

end

/-- The text that printing a value gives. -/
def display (s : Store) (v : Value) : String :=
  s.render [] false v

/-- The text that shows a value: a string is quoted. -/
def repr (s : Store) (v : Value) : String :=
  s.render [] true v

end Store
end Refscript
