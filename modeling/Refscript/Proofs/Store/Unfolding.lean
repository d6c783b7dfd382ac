import Mathlib.Data.List.Forall2
import Mathlib.Logic.Relation
import Refscript.Store.Text

/-!
# Refscript.Proofs.Store.Unfolding

The text of values whose lists do not contain themselves. Such a value can be written out as a tree,
in which a list that occurs many times is there many times, and its text is the text of the tree.

* `ValueTree`, `Store.Unfolds`: trees, and the tree that a value is written out to. There is one at
  most.
* `Store.HasItem`: a value is an item of a list or a tuple; a list contains itself if steps from
  item to item lead back to it.
* `render_unfolds`: a list that is being written further out contains what is being written, so
  where no list contains itself none is found open.
-/

namespace Refscript

/-- Values that are neither lists nor tuples. -/
def Value.isAtom : Value → Bool
  | .list _ | .tuple _ => false
  | _ => true

/-- A value with its lists and tuples written out. -/
inductive ValueTree where
  | atom (v : Value) (h : v.isAtom = true)
  | list (items : List ValueTree)
  | tuple (items : List ValueTree)

/-- The text of a value that has no items. -/
def Store.atomText (s : Store) (quoted : Bool) : Value → String
  | .null => "null"
  | .bool b => toString b
  | .num n => n.text
  | .str t => if quoted then Text.quote t else t
  | .closure id => "fn " ++ (s.closure id).prototype.displayName
  | .callback id => "callback " ++ (s.callback id).name
  | .type id => "type " ++ (s.type id).name
  | .object id => (s.typeOf id).name ++ " object"
  | .kit id => "kit " ++ (s.kit id).name
  | .ref _ place => place.kindName ++ " reference"
  | .list _ | .tuple _ => ""

namespace ValueTree

/-- Induction over trees and the trees in them. -/
theorem induction_items {motive : ValueTree → Prop} (atom : ∀ v h, motive (.atom v h))
    (list : ∀ items, (∀ t ∈ items, motive t) → motive (.list items))
    (tuple : ∀ items, (∀ t ∈ items, motive t) → motive (.tuple items)) (t : ValueTree) : motive t :=
  match t with
  | .atom v h => atom v h
  | .list items => list items fun t _ => induction_items atom list tuple t
  | .tuple items => tuple items fun t _ => induction_items atom list tuple t

mutual

/-- The text of a tree; strings are quoted where `quoted` says so and always inside lists and
tuples. -/
def text (s : Store) (quoted : Bool) : ValueTree → String
  | .atom v _ => s.atomText quoted v
  | .list items => "[" ++ ", ".intercalate (texts s items) ++ "]"
  | .tuple [item] => "(" ++ item.text s true ++ ",)"
  | .tuple items => "(" ++ ", ".intercalate (texts s items) ++ ")"

def texts (s : Store) : List ValueTree → List String
  | [] => []
  | t :: ts => t.text s true :: texts s ts

end

end ValueTree

namespace Store

/-- The value written out is the tree. -/
inductive Unfolds (s : Store) : Value → ValueTree → Prop where
  | atom (v : Value) (h : v.isAtom = true) : Unfolds s v (.atom v h)
  | list {id : ListId} {ts : List ValueTree} : List.Forall₂ (Unfolds s) (s.listItems id).toList ts →
      Unfolds s (.list id) (.list ts)
  | tuple {items : List Value} {ts : List ValueTree} : List.Forall₂ (Unfolds s) items ts →
      Unfolds s (.tuple items) (.tuple ts)

/-- The second value is an item of the first one. -/
inductive HasItem (s : Store) : Value → Value → Prop where
  | list {id : ListId} {v : Value} : v ∈ (s.listItems id).toList → HasItem s (.list id) v
  | tuple {items : List Value} {v : Value} : v ∈ items → HasItem s (.tuple items) v

/-- No list that can be reached from the value through lists and tuples contains itself. -/
def Acyclic (s : Store) (v : Value) : Prop :=
  ∀ id, Relation.ReflTransGen s.HasItem v (.list id) →
    ¬Relation.TransGen s.HasItem (.list id) (.list id)

variable {s : Store} {v x : Value} {t : ValueTree} {opened : List ListId}

theorem forall₂_unfolds_unique {vs : List Value} {ts us : List ValueTree}
    (ih : ∀ t ∈ ts, ∀ v u, s.Unfolds v t → s.Unfolds v u → t = u)
    (ht : List.Forall₂ s.Unfolds vs ts) (hu : List.Forall₂ s.Unfolds vs us) : ts = us := by
  induction ht generalizing us with
  | nil =>
    cases hu
    rfl
  | cons hv _ ihs =>
    obtain ⟨iht, ih⟩ := List.forall_mem_cons.1 ih
    cases hu with
    | cons hv' hrest => rw [iht _ _ hv hv', ihs ih hrest]

theorem Unfolds.unique {u : ValueTree} (ht : s.Unfolds v t) (hu : s.Unfolds v u) : t = u := by
  induction t using ValueTree.induction_items generalizing v u with
  | atom w h =>
    cases ht
    cases hu with
    | atom => rfl
    | list | tuple => cases h
  | list ts ih =>
    cases ht with
    | list hts =>
      cases hu with
      | atom _ h => cases h
      | list hus => rw [forall₂_unfolds_unique (fun t ht v u => ih t ht) hts hus]
  | tuple ts ih =>
    cases ht with
    | tuple hts =>
      cases hu with
      | atom _ h => cases h
      | tuple hus => rw [forall₂_unfolds_unique (fun t ht v u => ih t ht) hts hus]

theorem Acyclic.item (h : s.Acyclic v) (hx : s.HasItem v x) : s.Acyclic x :=
  fun id hid => h id (hid.head hx)

theorem render_atom (h : v.isAtom = true) (opened : List ListId) (quoted : Bool) :
    s.render opened quoted v = s.atomText quoted v := by
  cases v with
  | list | tuple => cases h
  | _ => rw [render, atomText]

/-- The tree of each value has the text of the value, so the trees have the texts. -/
theorem renderAll_unfolds {vs : List Value}
    (h : ∀ v ∈ vs, ∃ t, s.Unfolds v t ∧ ∀ quoted, s.render opened quoted v = t.text s quoted) :
    ∃ ts, List.Forall₂ s.Unfolds vs ts ∧ s.renderAll opened vs = ValueTree.texts s ts := by
  induction vs with
  | nil => exact ⟨[], .nil, by rw [renderAll, ValueTree.texts]⟩
  | cons v vs ih =>
    obtain ⟨hv, hvs⟩ := List.forall_mem_cons.1 h
    obtain ⟨t, ht, htext⟩ := hv
    obtain ⟨ts, hts, htexts⟩ := ih hvs
    exact ⟨t :: ts, .cons ht hts, by rw [renderAll, ValueTree.texts, htext, htexts]⟩

theorem render_list {id : ListId} (hnew : id ∉ opened) (quoted : Bool) :
    s.render opened quoted (.list id) =
      "[" ++ ", ".intercalate (s.renderAll (id :: opened) (s.listItems id).toList) ++ "]" := by
  rw [render, dif_neg (by simpa using hnew)]
  split
  · rename_i hid
    simp [listItems, Array.getD_eq_getD_getElem?, hid]
  · rename_i hid
    rw [listItems_of_le (Nat.le_of_not_lt hid), renderAll]
    rfl

theorem render_tuple {items : List Value} {ts : List ValueTree}
    (hts : List.Forall₂ s.Unfolds items ts)
    (htexts : s.renderAll opened items = ValueTree.texts s ts) (quoted : Bool) :
    s.render opened quoted (.tuple items) = ValueTree.text s quoted (.tuple ts) := by
  cases hts with
  | nil => rw [render, ValueTree.text, htexts] <;> simp
  | cons hv hrest =>
    cases hrest with
    | nil =>
      rw [renderAll, ValueTree.texts] at htexts
      rw [render, ValueTree.text, (List.cons.inj htexts).1]
    | cons hw hrest => rw [render, ValueTree.text, htexts] <;> simp

/-- Where the lists that are open contain the value, and no list that can be reached from it
contains itself, the text is that of a tree. -/
theorem render_unfolds {opened : List ListId} {v : Value}
    (hopened : ∀ id ∈ opened, Relation.TransGen s.HasItem (.list id) v) (hacyclic : s.Acyclic v) :
    ∃ t, s.Unfolds v t ∧ ∀ quoted, s.render opened quoted v = t.text s quoted := by
  cases v with
  | list id =>
    have hnew : id ∉ opened := fun hid => hacyclic id .refl (hopened id hid)
    have hitems : ∀ x ∈ (s.listItems id).toList,
        ∃ t, s.Unfolds x t ∧ ∀ quoted, s.render (id :: opened) quoted x = t.text s quoted := by
      intro x hx
      have hitem : s.HasItem (.list id) x := .list hx
      refine render_unfolds (fun id' hid' => ?_) (hacyclic.item hitem)
      rcases List.mem_cons.1 hid' with rfl | hid'
      · exact .single hitem
      · exact (hopened id' hid').tail hitem
    obtain ⟨ts, hts, htexts⟩ := renderAll_unfolds hitems
    exact ⟨.list ts, .list hts, fun quoted => by rw [render_list hnew, htexts, ValueTree.text]⟩
  | tuple items =>
    have hitems : ∀ x ∈ items, ∃ t, s.Unfolds x t ∧ ∀ quoted, s.render opened quoted x =
        t.text s quoted := by
      intro x hx
      have hitem : s.HasItem (.tuple items) x := .tuple hx
      exact render_unfolds (fun id hid => (hopened id hid).tail hitem) (hacyclic.item hitem)
    obtain ⟨ts, hts, htexts⟩ := renderAll_unfolds hitems
    exact ⟨.tuple ts, .tuple hts, render_tuple hts htexts⟩
  | _ => exact ⟨.atom _ rfl, .atom _ rfl, render_atom rfl opened⟩
termination_by (s.unopened opened, sizeOf v)
decreasing_by
  · exact Prod.Lex.left _ _ (unopened_cons_lt (lt_of_mem_listItems hx) (by simpa using hnew))
  · refine Prod.Lex.right _ ?_
    subst_vars
    have hsize := List.sizeOf_lt_of_mem hx
    rw [Value.tuple.sizeOf_spec]
    omega

/-- The text of a value can be written in every store, whatever cycles its lists make. If no list
that can be reached from the value contains itself, the text is that of the tree to which the value
is written out, and no list in it is left out. -/
theorem display_unfolds (s : Store) (v : Value) (hacyclic : s.Acyclic v) :
    ∃ t, s.Unfolds v t ∧ (∀ u, s.Unfolds v u → u = t) ∧ s.display v = t.text s false ∧
      s.repr v = t.text s true := by
  have hnone : ∀ id ∈ ([] : List ListId), Relation.TransGen s.HasItem (.list id) v := by simp
  obtain ⟨t, ht, htext⟩ := render_unfolds hnone hacyclic
  exact ⟨t, ht, fun u hu => hu.unique ht, htext false, htext true⟩

/-- Two lists: `[true]`, and one in which it occurs three times. -/
def shared : Store :=
  { empty with lists := #[#[.bool true], #[.list 0, .tuple [.list 0], .list 0]] }

theorem shared_acyclic : shared.Acyclic (.list 1) := by
  -- what each value in the lists has as items
  have hleaf : ∀ {y}, ¬Relation.TransGen shared.HasItem (.bool true) y := by
    intro y h
    obtain ⟨z, hz, -⟩ := Relation.TransGen.head'_iff.1 h
    cases hz
  have hzero : ∀ {y}, Relation.TransGen shared.HasItem (.list 0) y → y = .bool true := by
    intro y h
    obtain ⟨z, hz, hrest⟩ := Relation.TransGen.head'_iff.1 h
    cases hz with
    | list hz =>
      obtain rfl := List.mem_singleton.1 hz
      rcases Relation.reflTransGen_iff_eq_or_transGen.1 hrest with rfl | hrest
      · rfl
      · exact (hleaf hrest).elim
  have hone : ∀ {y}, Relation.TransGen shared.HasItem (.list 1) y →
      y = .tuple [.list 0] ∨ y = .list 0 ∨ y = .bool true := by
    intro y h
    induction h with
    | @single x h =>
      cases h with
      | list hx =>
        have hx : x ∈ [Value.list 0, .tuple [.list 0], .list 0] := hx
        simp only [List.mem_cons, List.not_mem_nil, or_false] at hx
        tauto
    | tail _ h ih =>
      rcases ih with rfl | rfl | rfl
      · cases h with
        | tuple h => simp_all
      · exact .inr (.inr (hzero (.single h)))
      · exact (hleaf (.single h)).elim
  intro id hid hcycle
  rcases Relation.reflTransGen_iff_eq_or_transGen.1 hid with heq | hid
  · cases heq
    simpa using hone hcycle
  · rcases hone hid with h | h | h <;> cases h
    cases hzero hcycle

theorem display_unfolds_shared :
    shared.Acyclic (.list 1) ∧ shared.display (.list 1) = "[[true], ([true],), [true]]" := by
  refine ⟨shared_acyclic, ?_⟩
  obtain ⟨t, -, hunique, htext, -⟩ := display_unfolds shared (.list 1) shared_acyclic
  have hzero : shared.Unfolds (.list 0) (.list [.atom (.bool true) rfl]) :=
    .list (.cons (.atom _ rfl) .nil)
  have hone :=
    hunique _ (.list (.cons hzero (.cons (.tuple (.cons hzero .nil)) (.cons hzero .nil))))
  rw [htext, ← hone]
  rfl

end Store
end Refscript
