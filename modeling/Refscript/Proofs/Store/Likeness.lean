import Refscript.Proofs.Store.Difference
import Refscript.Proofs.Store.Ensures

/-!
# Refscript.Proofs.Store.Likeness

Stores that operations cannot tell apart. What an operation on values looks up is the same in stores
that are `Alike`, so texts (`Alike.display`), equality (`Alike.equal`) and the operators
(`Blurs.plainInfix`, `Blurs.plainPrefix`) come to the same there. `Action.Respects R` says it of
actions that change the store: related stores give the same result and are related again.
-/

namespace Refscript
namespace Store

/-- Nothing that programs can look up tells the stores apart: they have the same lists, objects and
tables, every captured variable has the same value and every function the same name. The slots of
calls and the code of functions may differ. -/
structure Alike (s t : Store) : Prop where
  lists : t.lists = s.lists
  callbacks : t.callbacks = s.callbacks
  types : t.types = s.types
  objects : t.objects = s.objects
  kits : t.kits = s.kits
  references : t.references = s.references
  globals : t.globals = s.globals
  registered : t.registered = s.registered
  cellValue : ∀ c, t.cellValue c = s.cellValue c
  names : ∀ id, (t.closure id).prototype.displayName = (s.closure id).prototype.displayName

namespace Alike

variable {s t : Store}

theorem listItems (h : s.Alike t) (id : ListId) : t.listItems id = s.listItems id := by
  rw [Store.listItems, Store.listItems, h.lists]

theorem type (h : s.Alike t) (id : TypeId) : t.type id = s.type id := by
  rw [Store.type, Store.type, h.types]

theorem typeOf (h : s.Alike t) (id : ObjectId) : t.typeOf id = s.typeOf id := by
  rw [Store.typeOf, Store.typeOf, object, object, h.objects, h.type]

theorem typeName (h : s.Alike t) (v : Value) : t.typeName v = s.typeName v := by
  cases v with
  | object id => exact congrArg TypeDef.name (h.typeOf id)
  | _ => rfl

mutual

theorem render (h : s.Alike t) (opened : List ListId) (quoted : Bool) (v : Value) :
    t.render opened quoted v = s.render opened quoted v := by
  match v with
  | .null | .bool _ | .num _ | .str _ | .ref _ _ => rw [Store.render, Store.render]
  | .list id =>
    have hlists := h.lists
    rw [Store.render, Store.render]
    by_cases hnew : opened.contains id
    · rw [dif_pos hnew, dif_pos hnew]
    · by_cases hid : id < s.lists.size
      · have hid' : id < t.lists.size := by rw [hlists]; exact hid
        have hitems : t.lists[id] = s.lists[id] := by simp only [hlists]
        rw [dif_neg hnew, dif_neg hnew, dif_pos hid, dif_pos hid',
          h.renderAll (id :: opened) _, hitems]
      · rw [dif_neg hnew, dif_neg hnew, dif_neg hid, dif_neg (by rw [hlists]; exact hid)]
  | .tuple [] => rw [Store.render, Store.render, h.renderAll opened []] <;> simp
  | .tuple [item] => rw [Store.render, Store.render, h.render opened true item]
  | .tuple (a :: b :: rest) =>
    rw [Store.render, Store.render, h.renderAll opened (a :: b :: rest)] <;> simp
  | .closure id => rw [Store.render, Store.render, h.names]
  | .callback id => rw [Store.render, Store.render, callback, callback, h.callbacks]
  | .type id => rw [Store.render, Store.render, h.type]
  | .object id => rw [Store.render, Store.render, h.typeOf]
  | .kit id => rw [Store.render, Store.render, kit, kit, h.kits]
termination_by (s.unopened opened, sizeOf v)
decreasing_by
  · exact Prod.Lex.left _ _ (unopened_cons_lt hid (by simpa using hnew))
  · exact Prod.Lex.right _ (by simp)
  · exact Prod.Lex.right _ (by rw [Value.tuple.sizeOf_spec, List.cons.sizeOf_spec]; omega)
  · exact Prod.Lex.right _ (by simp)

theorem renderAll (h : s.Alike t) (opened : List ListId) (vs : List Value) :
    t.renderAll opened vs = s.renderAll opened vs := by
  match vs with
  | [] => rw [Store.renderAll, Store.renderAll]
  | v :: rest =>
    rw [Store.renderAll, Store.renderAll, h.render opened true v, h.renderAll opened rest]
termination_by (s.unopened opened, sizeOf vs)
decreasing_by
  · exact Prod.Lex.right _ (by rw [List.cons.sizeOf_spec]; omega)
  · exact Prod.Lex.right _ (by rw [List.cons.sizeOf_spec]; omega)

end

theorem display (h : s.Alike t) (v : Value) : t.display v = s.display v :=
  h.render [] false v

theorem unlike (h : s.Alike t) (x y : Value) : t.unlike x y = s.unlike x y := by
  cases x <;> cases y <;> simp only [Store.unlike, h.listItems]

theorem itemsAt? (h : s.Alike t) (i : Nat) (x y : Value) : t.itemsAt? i x y = s.itemsAt? i x y := by
  cases x <;> cases y <;> simp only [Store.itemsAt?, h.listItems]

theorem follow? (h : s.Alike t) (path : List Nat) (x y : Value) :
    t.follow? path x y = s.follow? path x y := by
  induction path generalizing x y with
  | nil => rfl
  | cons i path ih =>
    rw [Store.follow?, Store.follow?, h.itemsAt?]
    split
    · exact ih _ _
    · rfl

theorem equal (h : s.Alike t) (x y : Value) : t.equal x y = s.equal x y := by
  have hiff : t.equal x y = false ↔ s.equal x y = false := by
    simp only [equal_eq_false_iff, Distinguishes, h.follow?, h.unlike]
  rw [Bool.eq_iff_iff, ← not_iff_not, Bool.not_eq_true, Bool.not_eq_true, hiff]

end Alike
end Store

namespace Action

variable {α β : Type} {R : Store → Store → Prop} {x : Action α}

/-- From stores that `R` relates, the action gives the same, and it leaves such stores behind. -/
def Respects (R : Store → Store → Prop) (x : Action α) : Prop :=
  ∀ s t, R s t →
    Ensures x s (fun a s' => ∃ t', x t = .ok a t' ∧ R s' t') fun f s' => ∃ t',
      x t = .error f t' ∧ R s' t'

theorem Respects.pure (a : α) : Respects R (Pure.pure a) :=
  fun _ t h => ⟨t, rfl, h⟩

theorem Respects.look {view : Store → α} (hview : ∀ s t, R s t → view t = view s) :
    Respects R (look view) := by
  intro s t h
  exact ⟨t, congrArg (EStateM.Result.ok · t) (hview s t h), h⟩

theorem Respects.reading {view : Store → Except Fault α} (hview : ∀ s t, R s t → view t = view s) :
    Respects R (reading view) := by
  intro s t h
  have hsame : Action.reading view t = Action.ofExcept (view s) t := by
    rw [Action.reading, hview s t h]
    rfl
  refine ensures_reading.2 ⟨fun a ha => ⟨t, ?_, h⟩, fun f hf => ⟨t, ?_, h⟩⟩
  · rw [hsame, ha]
    rfl
  · rw [hsame, hf]
    rfl

theorem Respects.ofExcept (r : Except Fault α) : Respects R (ofExcept r) := by
  intro s t h
  refine ensures_ofExcept.2 ⟨fun a ha => ⟨t, ?_, h⟩, fun f hf => ⟨t, ?_, h⟩⟩
  · rw [ha]
    rfl
  · rw [hf]
    rfl

theorem Respects.adding {add : Store → α × Store}
    (hadd : ∀ s t, R s t → (add t).1 = (add s).1 ∧ R (add s).2 (add t).2) :
    Respects R (adding add) := by
  intro s t h
  obtain ⟨hfirst, hrest⟩ := hadd s t h
  exact ⟨(add t).2, congrArg (EStateM.Result.ok · (add t).2) hfirst, hrest⟩

theorem Respects.bind {f : α → Action β} (hx : Respects R x) (hf : ∀ a, Respects R (f a)) :
    Respects R (x >>= f) := by
  intro s t h
  rw [ensures_bind]
  refine (hx s t h).imp (fun a s' hr => ?_) fun e s' hr => ?_
  · obtain ⟨t', ht, hr⟩ := hr
    have hrest : (x >>= f) t = f a t' := by simp only [Bind.bind, EStateM.bind, ht]
    rw [hrest]
    exact hf a s' t' hr
  · obtain ⟨t', ht, hr⟩ := hr
    exact ⟨t', by simp only [Bind.bind, EStateM.bind, ht], hr⟩

theorem Respects.map {f : α → β} (hx : Respects R x) : Respects R (f <$> x) := by
  rw [map_eq_pure_bind]
  exact hx.bind fun a => .pure (f a)

end Action

namespace Store

open Refscript.Action

/-- A relation between stores that programs cannot tell apart, also after lists were added to
both. -/
structure Blurs (R : Store → Store → Prop) : Prop where
  alike : ∀ {s t}, R s t → s.Alike t
  addList : ∀ {s t} (items : Array Value), R s t → R (s.addList items).2 (t.addList items).2

variable {R : Store → Store → Prop} (hR : Blurs R)
include hR

theorem Blurs.newList {items : Store → Array Value} (hitems : ∀ s t, R s t → items t = items s) :
    Respects R (adding fun s => s.newList (items s)) := by
  refine .adding fun s t h => ⟨?_, ?_⟩
  · show Value.list t.lists.size = Value.list s.lists.size
    rw [(hR.alike h).lists]
  · rw [hitems s t h]
    exact hR.addList (items s) h

theorem Blurs.joined (left right : Value) :
    Respects R (Action.look fun s => some (s.joined left right)) :=
  .look fun s t h => by rw [Store.joined, Store.joined, (hR.alike h).display, (hR.alike h).display]

theorem Blurs.operate (op : Operator) (left right : Value) :
    Respects R (operate op left right) := by
  unfold Store.operate
  split
  · exact hR.joined _ _
  · exact (Respects.ofExcept _).bind fun items => (hR.newList fun _ _ _ => rfl).map
  · exact .ofExcept _
  · exact hR.joined _ _
  · exact hR.joined _ _
  · exact .ofExcept _
  · exact (hR.newList fun s t h => by rw [(hR.alike h).listItems, (hR.alike h).listItems]).map
  · exact .pure _
  · exact .pure _

theorem Blurs.plainInfix (op : String) (left right : Value) :
    Respects R (plainInfix op left right) := by
  unfold Store.plainInfix
  extract_lets finish
  have hfinish : ∀ result, Respects R (finish result) := by
    intro result
    cases result with
    | some v => exact .pure v
    | none =>
      refine .reading fun s t h => ?_
      rw [unsupportedInfix, unsupportedInfix, (hR.alike h).typeName, (hR.alike h).typeName]
  split
  · exact (Respects.look fun s t h => by rw [(hR.alike h).equal]).bind hfinish
  · exact (Respects.look fun s t h => by rw [(hR.alike h).equal]).bind hfinish
  · exact (hR.operate _ left right).bind hfinish
  · exact (Respects.pure _).bind hfinish

theorem Blurs.plainPrefix (op : String) (operand : Value) :
    Respects R (Action.reading (·.plainPrefix op operand)) := by
  refine .reading fun s t h => ?_
  unfold Store.plainPrefix
  split
  · rfl
  · rfl
  · rfl
  · rw [(hR.alike h).typeName]

end Store
end Refscript
