import Refscript.Proofs.Store.Likeness

/-!
# Refscript.Proofs.Store.Spare

Slots that a call does not need. `s.spare A xs` is the store `s` in which the call `A` has further
slots, with the values `xs`. As long as cells stand only for slots that there are (`Store.Linked`)
and calls use none but their own, nothing that is done with the store reads or changes the further
slots: actions respect `Store.Spared`.
-/

namespace Refscript

open Refscript.Action

variable {R : Store → Store → Prop} {α β : Type} {l : Location}

namespace Store

/-- The store in which a call has further slots. -/
def spare (s : Store) (A : ActivationId) (xs : Array Value) : Store :=
  { s with activations := s.activations.modify A (· ++ xs) }

/-- Every cell that is open stands for a slot that there is. -/
def Linked (s : Store) : Prop :=
  ∀ c b i, s.cell c = .opened b i → i < (s.locals b).size

/-- The call may have the further slots. -/
structure Lends (s : Store) (A : ActivationId) (xs : Array Value) : Prop where
  begun : xs = #[] ∨ A < s.activations.size
  linked : s.Linked

/-- The second store is the first one with further slots for the call `A`, and the call `a` has `n`
slots at least. -/
structure Spared (A : ActivationId) (xs : Array Value) (a : ActivationId) (n : Nat) (s t : Store) :
    Prop extends s.Lends A xs where
  eq : t = s.spare A xs
  room : n ≤ (s.locals a).size

theorem linked_initial : initial.Linked := by
  intro c b i hc
  cases hc
  exact Nat.zero_lt_one

variable {A a b : ActivationId} {xs : Array Value} {n i : Nat} {s t : Store}

theorem spare_nil (s : Store) (A : ActivationId) : s.spare A #[] = s := by
  have hid : s.activations.modify A (· ++ #[]) = s.activations := by
    refine Array.ext_getElem? fun b => ?_
    rw [Array.getElem?_modify]
    split
    · cases s.activations[b]? <;> simp
    · rfl
  rw [spare, hid]

theorem locals_spare (h : xs = #[] ∨ A < s.activations.size) (b : ActivationId) :
    (s.spare A xs).locals b = if b = A then s.locals b ++ xs else s.locals b := by
  rcases h with rfl | h
  · rw [spare_nil, Array.append_empty, ite_self]
  · simp only [spare, locals, Array.getD_eq_getD_getElem?, Array.getElem?_modify]
    by_cases hb : A = b
    · subst hb
      simp [h]
    · rw [if_neg hb, if_neg (Ne.symm hb)]

theorem lt_of_lt_locals (hi : i < (s.locals b).size) : b < s.activations.size := by
  refine Nat.lt_of_not_le fun hle => ?_
  simp [locals, Array.getD_eq_getD_getElem?, Array.getElem?_eq_none hle] at hi

theorem getElem?_locals_spare (h : xs = #[] ∨ A < s.activations.size) (hi : i < (s.locals b).size) :
    ((s.spare A xs).locals b)[i]? = (s.locals b)[i]? := by
  rw [locals_spare h]
  split
  · rw [Array.getElem?_append_left hi]
  · rfl

namespace Spared

theorem locals (h : Spared A xs a n s t) (hi : i < (s.locals b).size) :
    (t.locals b)[i]? = (s.locals b)[i]? := by
  rw [h.eq, getElem?_locals_spare h.begun hi]

theorem cell (h : Spared A xs a n s t) (c : CellId) : t.cell c = s.cell c := by
  rw [h.eq]
  rfl

theorem cellValue (h : Spared A xs a n s t) (c : CellId) : t.cellValue c = s.cellValue c := by
  rw [Store.cellValue, Store.cellValue, h.cell]
  cases hc : s.cell c with
  | opened b i =>
    have hi := h.linked c b i hc
    simp only [Array.getD_eq_getD_getElem?, h.locals hi]
  | closed v => rfl

theorem alike (h : Spared A xs a n s t) : s.Alike t := by
  have hvalue := h.cellValue
  rw [h.eq] at hvalue ⊢
  exact ⟨rfl, rfl, rfl, rfl, rfl, rfl, rfl, rfl, hvalue, fun _ => rfl⟩

theorem update {u : Store → Store} (h : Spared A xs a n s t)
    (hspare : u (s.spare A xs) = (u s).spare A xs) (hslots : (u s).activations = s.activations)
    (hcells : (u s).cells = s.cells) : Spared A xs a n (u s) (u t) := by
  have hlocals : ∀ b, (u s).locals b = s.locals b := fun b => by
    rw [Store.locals, Store.locals, hslots]
  refine ⟨⟨by rw [hslots]; exact h.begun,
    fun c b i hc => ?_⟩, by rw [h.eq, hspare], by rw [hlocals]; exact h.room⟩
  rw [Store.cell, hcells] at hc
  rw [hlocals]
  exact h.linked c b i hc

theorem still {s' t' : Store} (h : Spared A xs a n s t) (hstill : s.Still s')
    (heq : t' = s'.spare A xs) : Spared A xs a n s' t' := by
  have hslots : ∀ b i, i < (s.locals b).size → i < (s'.locals b).size := by
    intro b i hi
    rw [(hstill.slots b (lt_of_lt_locals hi)).2]
    exact hi
  refine ⟨⟨h.begun.imp id fun hA => (hstill.slots A hA).1, fun c b i hc => ?_⟩, heq, ?_⟩
  · exact hslots b i (h.linked c b i (hstill.opened_iff.1 hc))
  · cases n with
    | zero => exact Nat.zero_le _
    | succ k => exact hslots a k h.room

theorem setLocal_spare (hi : i < (s.locals b).size) (v : Value) :
    (s.spare A xs).setLocal b i v = (s.setLocal b i v).spare A xs := by
  have hmodify : (s.activations.modify A (· ++ xs)).modify b (·.setIfInBounds i v) =
      (s.activations.modify b (·.setIfInBounds i v)).modify A (· ++ xs) := by
    refine Array.ext_getElem? fun k => ?_
    simp only [Array.getElem?_modify]
    by_cases hb : b = k
    · subst hb
      by_cases hA : A = b
      · subst hA
        cases hget : s.activations[A]? with
        | none => simp
        | some locals =>
          have hlocals : s.locals A = locals := by
            simp [Store.locals, Array.getD_eq_getD_getElem?, hget]
          rw [hlocals] at hi
          simp [hi]
      · simp [hA]
    · simp [hb]
  rw [spare, Store.setLocal, Store.setLocal, spare]
  exact congrArg (fun slots => { s with activations := slots }) hmodify

theorem setLocal (h : Spared A xs a n s t) (hi : i < (s.locals b).size) (v : Value) :
    Spared A xs a n (s.setLocal b i v) (t.setLocal b i v) := by
  refine h.still (s.still_setLocal b i v) ?_
  rw [h.eq, setLocal_spare hi]

theorem setCell (h : Spared A xs a n s t) (c : CellId) (v : Value) :
    Spared A xs a n (s.setCell c v) (t.setCell c v) := by
  rw [Store.setCell, Store.setCell, h.cell]
  cases hc : s.cell c with
  | opened b i => exact h.setLocal (h.linked c b i hc) v
  | closed w =>
    have hstill := s.still_setCell c v
    simp only [Store.setCell, hc] at hstill
    refine h.still hstill ?_
    rw [h.eq]
    rfl

theorem closeCell (h : Spared A xs a n s t) (c : CellId) :
    Spared A xs a n (s.closeCell c) (t.closeCell c) := by
  refine ⟨⟨h.begun, fun d b i hd => h.linked d b i ?_⟩, ?_, h.room⟩
  · by_cases hc : c < s.cells.size
    · rw [Store.closeCell, cell_set s c d _ hc] at hd
      split at hd
      · cases hd
      · exact hd
    · rw [Store.closeCell, Array.setIfInBounds_eq_of_size_le (Nat.le_of_not_lt hc)] at hd
      exact hd
  · rw [Store.closeCell, h.cellValue, h.eq]
    rfl

theorem closeAll (h : Spared A xs a n s t) (cs : List CellId) :
    Spared A xs a n (cs.foldl Store.closeCell s) (cs.foldl Store.closeCell t) := by
  induction cs generalizing s t with
  | nil => exact h
  | cons c cs ih => exact ih (h.closeCell c)

theorem addCell (h : Spared A xs a n s t) (hi : i < (s.locals b).size) :
    Spared A xs a n (s.addCell (.opened b i)).2 (t.addCell (.opened b i)).2 := by
  refine ⟨⟨h.begun, fun c b' i' hc => ?_⟩, by rw [h.eq]; rfl, h.room⟩
  rw [cell_addCell] at hc
  split at hc
  · cases hc
    exact hi
  · exact h.linked c b' i' hc

theorem addActivation (h : Spared A xs a n s t) (locals : Array Value) :
    (t.addActivation locals).1 = (s.addActivation locals).1 ∧
      Spared A xs a n (s.addActivation locals).2 (t.addActivation locals).2 := by
  refine ⟨by rw [h.eq]; exact Array.size_modify, h.still (s.still_addActivation locals) ?_⟩
  rcases h.begun with rfl | hA
  · rw [spare_nil, h.eq, spare_nil]
  · have hpush : (s.activations.modify A (· ++ xs)).push locals =
        (s.activations.push locals).modify A (· ++ xs) := by
      refine Array.ext_getElem? fun k => ?_
      simp only [Array.getElem?_push, Array.getElem?_modify, Array.size_modify]
      by_cases hk : k = s.activations.size
      · simp [hk, Nat.ne_of_lt hA]
      · simp [hk]
    rw [h.eq]
    simp only [Store.addActivation, spare]
    rw [hpush]

theorem read (h : Spared A xs a n s t) (place : Place) : t.read place = s.read place := by
  cases place with
  | loc c | outer c => exact congrArg Except.ok (h.cellValue c)
  | global | element | field =>
    rw [h.eq]
    rfl

theorem derefWithin (h : Spared A xs a n s t) (k : Nat) (v : Value) :
    t.derefWithin k v = s.derefWithin k v := by
  induction k generalizing v with
  | zero => cases v <;> rfl
  | succ k ih =>
    cases v with
    | ref id place =>
      simp only [Store.derefWithin, h.read]
      cases s.read place with
      | ok v => exact ih v
      | error e => rfl
    | _ => rfl

theorem deref (h : Spared A xs a n s t) (v : Value) : t.deref v = s.deref v :=
  h.derefWithin maxChain v

theorem derefAll (h : Spared A xs a n s t) (vs : List Value) : t.derefAll vs = s.derefAll vs := by
  rw [Store.derefAll, Store.derefAll, funext h.deref]

theorem applyPrefix (h : Spared A xs a n s t) (op : String) (v : Value) :
    t.applyPrefix op v = s.applyPrefix op v := by
  rw [Store.applyPrefix, Store.applyPrefix, h.deref, h.eq]
  rfl

theorem contents? (h : Spared A xs a n s t) (hl : ∀ b i, l = .slot b i → b = a ∧ i < n) :
    t.contents? l = s.contents? l := by
  cases l with
  | slot b i =>
    obtain ⟨rfl, hi⟩ := hl b i rfl
    exact h.locals (Nat.lt_of_lt_of_le hi h.room)
  | cell c => exact congrArg some (h.cellValue c)
  | global | element | field | kitField | method =>
    rw [h.eq]
    rfl

end Spared

theorem blurs_spared : Blurs (Spared A xs a n) :=
  ⟨fun h => h.alike, fun items h => h.update (u := fun s => (s.addList items).2) rfl rfl rfl⟩

theorem locate_ne_slot (place : Place) (h : s.locate place = .ok l) : ∀ b i, l ≠ .slot b i := by
  have hfield : ∀ target name, s.locateField target name = .ok l → ∀ b i, l ≠ .slot b i := by
    intro target name hl b i hslot
    subst hslot
    cases target <;> cases hl
  have hposition : ∀ {id : ListId} {r : Except Fault Nat}, r.map (Location.element id) = .ok l →
      ∀ b i, l ≠ .slot b i := by
    intro id r hr b i hslot
    subst hslot
    cases r <;> cases hr
  cases place with
  | global | loc | outer =>
    cases h
    exact fun _ _ hslot => by cases hslot
  | field target name => exact hfield target name h
  | element target key =>
    simp only [locate, locateIndex] at h
    split at h
    · exact hposition h
    · cases h
    · cases h
    · exact hfield _ _ h
    · exact hfield _ _ h
    · exact hfield _ _ h
    · cases h

end Store

namespace Action

theorem Respects.reading_bind {view : Store → Except Fault α} {f : α → Action β}
    (hview : ∀ s t, R s t → view t = view s) (hf : ∀ s v, view s = .ok v → Respects R (f v)) :
    Respects R (Action.reading view >>= f) := by
  intro s t h
  have hsame : ∀ u, (Action.reading view >>= f) u = (Action.ofExcept (view u) >>= f) u :=
    fun _ => rfl
  rw [Ensures, hsame, hsame, hview s t h]
  cases hv : view s with
  | ok v => exact hf s v hv s t h
  | error e => exact ⟨t, rfl, h⟩

theorem Respects.ofExcept_bind {r : Except Fault α} {f : α → Action β}
    (hf : ∀ v, r = .ok v → Respects R (f v)) : Respects R (Action.ofExcept r >>= f) := by
  have hconst : Respects R (Action.reading (fun _ => r) >>= f) :=
    .reading_bind (fun _ _ _ => rfl) fun _ => hf
  exact hconst

theorem Respects.bind_of {Q : α → Prop} {x : Action α} {f : α → Action β} (hx : Respects R x)
    (hQ : ∀ s, Ensures x s (fun v _ => Q v) fun _ _ => True) (hf : ∀ v, Q v → Respects R (f v)) :
    Respects R (x >>= f) := by
  intro s t h
  have hs := hx s t h
  have hq := hQ s
  unfold Ensures at hs hq ⊢
  simp only [Bind.bind, EStateM.bind]
  cases hrun : x s with
  | ok v s' =>
    rw [hrun] at hs hq
    obtain ⟨t', ht, hr⟩ := hs
    simp only [ht]
    exact hf v hq s' t' hr
  | error e s' =>
    rw [hrun] at hs
    obtain ⟨t', ht, hr⟩ := hs
    exact ⟨t', by rw [ht], hr⟩

theorem Respects.fail (e : Fault) : Respects R (Action.fail e : Action α) :=
  fun _ t h => ⟨t, rfl, h⟩

theorem Respects.changing {u : Store → Store} (hu : ∀ s t, R s t → R (u s) (u t)) :
    Respects R (Action.changing u) :=
  fun s t h => ⟨u t, rfl, hu s t h⟩

end Action

namespace Store

variable {A a : ActivationId} {xs : Array Value} {n : Nat}

theorem Lends.run {x : Action α} {s : Store} (h : s.Lends A xs) (hroom : n ≤ (s.locals a).size)
    (hx : Respects (Spared A xs a n) x) :
    Ensures x s (fun v s' => x (s.spare A xs) = .ok v (s'.spare A xs) ∧ s'.Lends A xs)
      fun e s' => x (s.spare A xs) = .error e (s'.spare A xs) ∧ s'.Lends A xs := by
  refine (hx s _ ⟨h, rfl, hroom⟩).imp ?_ ?_
  · rintro v s' ⟨t', ht, hr⟩
    rw [ht, hr.eq]
    exact ⟨rfl, hr.toLends⟩
  · rintro e s' ⟨t', ht, hr⟩
    rw [ht, hr.eq]
    exact ⟨rfl, hr.toLends⟩

theorem respects_deref (v : Value) : Respects (Spared A xs a n) (Action.reading (·.deref v)) :=
  .reading fun _ _ h => h.deref v

theorem respects_put (hl : ∀ b i, l = .slot b i → b = a ∧ i < n) (v : Value) :
    Respects (Spared A xs a n) (put l v) := by
  cases l with
  | slot b i =>
    obtain ⟨rfl, hi⟩ := hl b i rfl
    exact .changing fun s t h => h.setLocal (Nat.lt_of_lt_of_le hi h.room) v
  | cell c => exact .changing fun s t h => h.setCell c v
  | global name => exact .changing fun s t h => h.update (u := (·.setGlobal name v)) rfl rfl rfl
  | element id i =>
    exact .changing fun s t h => h.update (u := (·.modifyList id (·.setIfInBounds i v))) rfl rfl rfl
  | field id name => exact .changing fun s t h => h.update (u := (·.setField id name v)) rfl rfl rfl
  | kitField id name =>
    exact .changing fun s t h => h.update (u := (·.setKitField id name v)) rfl rfl rfl
  | method id name =>
    intro s t h
    have hinvocable : t.invocable v = s.invocable v := by rw [h.eq]; rfl
    have howner : t.ownerName (.type id) = s.ownerName (.type id) := by rw [h.eq]; rfl
    simp only [Ensures, put, hinvocable, howner]
    cases s.invocable v with
    | true => exact ⟨_, rfl, h.update (u := (·.setMethod id name v)) rfl rfl rfl⟩
    | false => exact ⟨_, rfl, h⟩

theorem respects_overwrite (place : Place) (v : Value) :
    Respects (Spared A xs a n) (overwrite place v) := by
  refine .reading_bind (fun s t h => ?_) fun s l hl => ?_
  · rw [h.eq]
    cases place <;> rfl
  · exact respects_put (fun b i hslot => absurd hslot (locate_ne_slot place hl b i)) v

theorem redirect?_congr {s t : Store} {l : Location} (h : t.contents? l = s.contents? l) :
    t.redirect? l = s.redirect? l := by
  cases l with
  | method => rfl
  | _ => simp only [redirect?, h]

theorem respects_assign (hl : ∀ b i, l = .slot b i → b = a ∧ i < n) (v : Value) :
    Respects (Spared A xs a n) (assign l v) := by
  refine (Respects.look fun s t h => redirect?_congr (h.contents? hl)).bind fun held => ?_
  split
  · exact respects_overwrite _ v
  · exact respects_put hl v

theorem respects_applyInfix (op : String) (left right : Value) :
    Respects (Spared A xs a n) (applyInfix op left right) := by
  refine (respects_deref left).bind fun left => (respects_deref right).bind fun right => ?_
  refine (Respects.look fun s t h => by rw [h.eq]; rfl).bind fun own => ?_
  cases own with
  | some f => exact .pure _
  | none => exact (blurs_spared.plainInfix op left right).bind fun v => .pure _

end Store
end Refscript
