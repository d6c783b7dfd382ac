import Mathlib.Data.List.Forall2
import Refscript.Store.Text

/-!
# Refscript.Proofs.Store.Datum

Finite data: null, truth values, integers, strings, and lists and tuples of data.

* `Datum`: what a value without cycles looks like, apart from where its lists are stored.
* `Store.Holds`: a value is such data. A value is one datum at most (`Holds.unique`).
* `Holds.repr_eq`: the text that shows a value is the text of its datum; no list in it is left out.
-/

namespace Refscript

/-- Whether no character of a string is written by its code point. -/
def Text.isPlain (s : String) : Bool :=
  s.toList.all fun c => !(['\\', 'u'].isPrefixOf (quoteChar c))

/-- Data whose text can be written in a program: the least integer has no literal, and neither has a
character that is written by its code point. -/
inductive Datum where
  | null
  | bool (b : Bool)
  | int (i : Int64) (h : i ≠ Int64.minValue)
  | str (s : String) (h : Text.isPlain s = true)
  | list (items : List Datum)
  | tuple (items : List Datum)

namespace Datum

/-- Induction over data and the items in it. -/
theorem induction_items {motive : Datum → Prop} (null : motive .null) (bool : ∀ b, motive (.bool b))
    (int : ∀ i h, motive (.int i h)) (str : ∀ s h, motive (.str s h))
    (list : ∀ items, (∀ d ∈ items, motive d) → motive (.list items))
    (tuple : ∀ items, (∀ d ∈ items, motive d) → motive (.tuple items)) (d : Datum) : motive d :=
  match d with
  | .null => null
  | .bool b => bool b
  | .int i h => int i h
  | .str s h => str s h
  | .list items => list items fun d _ => induction_items null bool int str list tuple d
  | .tuple items => tuple items fun d _ => induction_items null bool int str list tuple d

mutual

/-- The text of data. -/
def text : Datum → String
  | .null => "null"
  | .bool b => toString b
  | .int i _ => toString i.toInt
  | .str s _ => Text.quote s
  | .list items => "[" ++ ", ".intercalate (texts items) ++ "]"
  | .tuple [item] => "(" ++ item.text ++ ",)"
  | .tuple items => "(" ++ ", ".intercalate (texts items) ++ ")"

def texts : List Datum → List String
  | [] => []
  | d :: ds => d.text :: texts ds

end

end Datum

namespace Store

/-- The value is the data, with its lists in the store. -/
inductive Holds (s : Store) : Value → Datum → Prop where
  | null : Holds s .null .null
  | bool (b : Bool) : Holds s (.bool b) (.bool b)
  | int (i : Int64) (h : i ≠ Int64.minValue) : Holds s (.num (.int i)) (.int i h)
  | str (t : String) (h : Text.isPlain t = true) : Holds s (.str t) (.str t h)
  | list {id : ListId} {items : Array Value} {ds : List Datum} (hid : s.lists[id]? = some items)
      (hitems : List.Forall₂ (Holds s) items.toList ds) : Holds s (.list id) (.list ds)
  | tuple {items : List Value} {ds : List Datum} (hitems : List.Forall₂ (Holds s) items ds) :
      Holds s (.tuple items) (.tuple ds)

section Holds

variable {s t : Store} {v : Value} {d e : Datum}

theorem forall₂_unique {vs : List Value} {ds es : List Datum}
    (ih : ∀ d ∈ ds, ∀ v e, s.Holds v d → s.Holds v e → d = e) (hd : List.Forall₂ s.Holds vs ds)
    (he : List.Forall₂ s.Holds vs es) : ds = es := by
  induction hd generalizing es with
  | nil =>
    cases he
    rfl
  | cons hv _ ihs =>
    obtain ⟨ihd, ih⟩ := List.forall_mem_cons.1 ih
    cases he with
    | cons hv' hrest => rw [ihd _ _ hv hv', ihs ih hrest]

theorem Holds.unique (hd : s.Holds v d) (he : s.Holds v e) : d = e := by
  induction d using Datum.induction_items generalizing v e with
  | null | bool | int | str =>
    cases hd
    cases he
    rfl
  | list items ih =>
    cases hd with
    | list hid hitems =>
      cases he with
      | list hid' hitems' =>
        cases hid.symm.trans hid'
        rw [forall₂_unique (fun d hd v e => ih d hd) hitems hitems']
  | tuple items ih =>
    cases hd with
    | tuple hitems =>
      cases he with
      | tuple hitems' => rw [forall₂_unique (fun d hd v e => ih d hd) hitems hitems']

/-- All lists of one store are in the other one, with the same items. -/
def KeepsLists (s t : Store) : Prop :=
  ∀ (id : ListId) (items : Array Value), s.lists[id]? = some items → t.lists[id]? = some items

theorem KeepsLists.trans {u : Store} (hst : s.KeepsLists t) (htu : t.KeepsLists u) :
    s.KeepsLists u :=
  fun id items hid => htu id items (hst id items hid)

theorem forall₂_mono {vs : List Value} {ds : List Datum}
    (ih : ∀ d ∈ ds, ∀ v, s.Holds v d → t.Holds v d) (h : List.Forall₂ s.Holds vs ds) :
    List.Forall₂ t.Holds vs ds := by
  induction h with
  | nil => exact .nil
  | cons hv _ ihs =>
    obtain ⟨ihd, ih⟩ := List.forall_mem_cons.1 ih
    exact .cons (ihd _ hv) (ihs ih)

theorem Holds.mono (h : s.Holds v d) (hst : s.KeepsLists t) : t.Holds v d := by
  induction d using Datum.induction_items generalizing v with
  | null | bool | int | str =>
    cases h
    constructor
  | list items ih =>
    cases h with
    | list hid hitems => exact .list (hst _ _ hid) (forall₂_mono (fun d hd v => ih d hd) hitems)
  | tuple items ih =>
    cases h with
    | tuple hitems => exact .tuple (forall₂_mono (fun d hd v => ih d hd) hitems)

end Holds

section Text

variable {s : Store} {opened : List ListId} {v : Value} {d : Datum}

/-- None of the opened lists is inside `d`: as data they are larger. -/
def Around (s : Store) (opened : List ListId) (d : Datum) : Prop :=
  ∀ id ∈ opened, ∀ e, s.Holds (.list id) e → sizeOf d < sizeOf e

theorem Around.of_le {e : Datum} (h : s.Around opened d) (hle : sizeOf e ≤ sizeOf d) :
    s.Around opened e :=
  fun id hid e' he' => Nat.lt_of_le_of_lt hle (h id hid e' he')

theorem renderAll_eq {vs : List Value} {ds : List Datum}
    (ih : ∀ d ∈ ds, ∀ v, s.Holds v d → s.render opened true v = d.text)
    (h : List.Forall₂ s.Holds vs ds) : s.renderAll opened vs = Datum.texts ds := by
  induction h with
  | nil => rw [renderAll, Datum.texts]
  | cons hv _ ihs =>
    obtain ⟨ihd, ih⟩ := List.forall_mem_cons.1 ih
    rw [renderAll, Datum.texts, ihd _ hv, ihs ih]

theorem Holds.render_eq (h : s.Holds v d) (hopened : s.Around opened d) :
    s.render opened true v = d.text := by
  induction d using Datum.induction_items generalizing opened v with
  | null | bool =>
    cases h
    rw [render, Datum.text]
  | int | str =>
    cases h
    rw [render, Datum.text]
    rfl
  | list items ih =>
    have hv := h
    cases h with
    | @list id _ _ hid hitems =>
      -- the list itself is not open: it would be larger than itself
      have hnew : ¬opened.contains id = true := by
        intro hmem
        exact Nat.lt_irrefl _ (hopened id (List.contains_iff_mem.1 hmem) _ hv)
      obtain ⟨hlt, rfl⟩ := Array.getElem?_eq_some_iff.1 hid
      have hitem : ∀ d ∈ items, s.Around (id :: opened) d := by
        intro d hd id' hid' e he
        have hsize : sizeOf d < sizeOf (Datum.list items) := by
          have := List.sizeOf_lt_of_mem hd
          rw [Datum.list.sizeOf_spec]
          omega
        rcases List.mem_cons.1 hid' with rfl | hid'
        · rwa [← hv.unique he]
        · exact Nat.lt_trans hsize (hopened id' hid' e he)
      rw [render, dif_neg hnew, dif_pos hlt,
        renderAll_eq (fun d hd v hv => ih d hd hv (hitem d hd)) hitems, Datum.text]
  | tuple items ih =>
    have hitem : ∀ d ∈ items, ∀ v, s.Holds v d → s.render opened true v = d.text := by
      intro d hd v hv
      refine ih d hd hv (hopened.of_le ?_)
      have := List.sizeOf_lt_of_mem hd
      rw [Datum.tuple.sizeOf_spec]
      omega
    cases h with
    | tuple hitems =>
      have htexts := renderAll_eq hitem hitems
      cases hitems with
      | nil => rw [render, Datum.text, htexts] <;> simp
      | cons hv hrest =>
        cases hrest with
        | nil => rw [render, Datum.text, hitem _ List.mem_cons_self _ hv]
        | cons hw hrest => rw [render, Datum.text, htexts] <;> simp

theorem Holds.repr_eq (h : s.Holds v d) : s.repr v = d.text :=
  h.render_eq fun _ hid => by cases hid

end Text

end Store
end Refscript
