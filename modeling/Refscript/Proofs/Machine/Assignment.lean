import Refscript.Proofs.Machine.Cells

/-!
# Refscript.Proofs.Machine.Assignment

What the instructions that store change. An open cell is no storage of its own but stands for a slot
(`Store.real`), and `Store.blank` is the store without what its locations hold, so that

* `Store.Sets s t l v` says that `t` is `s` with the value `v` at the one location `l`;
* `Store.Stored s t l v` adds what happens if the location does not exist, as a slot that a call
  does not have: nothing;
* `assign_stored`: a store goes to the location itself, or to what the reference that it holds
  refers to.
-/

namespace Refscript

open Refscript.Action

variable {l : Location} {target v : Value} {i : Nat} {name : String}

section Modify

variable {α β : Type}

theorem getD_modify (xs : Array α) (i j : Nat) (f : α → α) (d : α) :
    (xs.modify i f).getD j d = if i = j ∧ j < xs.size then f (xs.getD j d) else xs.getD j d := by
  simp only [Array.getD_eq_getD_getElem?, Array.getElem?_modify]
  by_cases hij : i = j
  · subst hij
    by_cases hi : i < xs.size <;> simp [hi]
  · simp [hij]

theorem modify_eq_self {xs : Array α} {f : α → α} {d : α}
    (h : i < xs.size → f (xs.getD i d) = xs.getD i d) : xs.modify i f = xs := by
  refine Array.ext_getElem? fun j => ?_
  rw [Array.getElem?_modify]
  by_cases hij : i = j
  · subst hij
    by_cases hi : i < xs.size
    · have := h hi
      simp only [Array.getD_eq_getD_getElem?, Array.getElem?_eq_getElem hi,
        Option.getD_some] at this
      simp [hi, this]
    · simp [hi]
  · rw [if_neg hij]

theorem map_modify_of_eq (xs : Array α) (i : Nat) {f : α → α} {g : α → β} (h : ∀ x, g (f x) = g x) :
    (xs.modify i f).map g = xs.map g := by
  refine Array.ext_getElem? fun j => ?_
  rw [Array.getElem?_map, Array.getElem?_map, Array.getElem?_modify]
  by_cases hij : i = j
  · rw [if_pos hij, Option.map_map]
    congr 1
    exact funext h
  · rw [if_neg hij]

theorem map_setIfInBounds_of_eq (xs : Array α) (i : Nat) (x : α) (g : α → β) (d : α)
    (h : i < xs.size → g x = g (xs.getD i d)) : (xs.setIfInBounds i x).map g = xs.map g := by
  refine Array.ext_getElem? fun j => ?_
  rw [Array.getElem?_map, Array.getElem?_map, Array.getElem?_setIfInBounds]
  by_cases hij : i = j
  · subst hij
    by_cases hi : i < xs.size
    · have := h hi
      simp only [Array.getD_eq_getD_getElem?, Array.getElem?_eq_getElem hi,
        Option.getD_some] at this
      simp [hi, this]
    · simp [hi]
  · rw [if_neg hij]

theorem get?_modify_insert {xs : Array α} (hi : i < xs.size) {g : α → Table String β} {f : α → α}
    {b : β} (h : ∀ x, g (f x) = (g x).insert name b) (d : α) (j : Nat) (name' : String) :
    (g ((xs.modify i f).getD j d)).get? name' =
      if i = j ∧ name = name' then some b else (g (xs.getD j d)).get? name' := by
  rw [getD_modify]
  by_cases hij : i = j
  · subst hij
    rw [if_pos ⟨rfl, hi⟩, h, Table.get?_insert]
    simp
  · simp [hij]

end Modify

def Cell.blank : Cell → Cell
  | opened a i => opened a i
  | closed _ => closed .null

namespace Store

/-- The store without what its locations hold. -/
def blank (s : Store) : Store :=
  { s with
    lists := s.lists.map fun items => .replicate items.size .null
    activations := s.activations.map fun locals => .replicate locals.size .null
    cells := s.cells.map Cell.blank
    types := s.types.map fun t => { t with methods := .empty }
    objects := s.objects.map fun o => { o with fields := .empty }
    kits := s.kits.map fun k => { k with fields := .empty }
    globals := .empty }

/-- The storage behind a location: for an open cell, its slot. -/
def real (s : Store) : Location → Location
  | .cell c =>
    match s.cell c with
    | .opened a i => .slot a i
    | .closed _ => .cell c
  | l => l

/-- There is storage at the location. -/
def Exists (s : Store) : Location → Prop
  | .slot a i => i < (s.locals a).size
  | .cell c => c < s.cells.size
  | .global _ => True
  | .element id i => i < (s.listItems id).size
  | .field id _ => id < s.objects.size
  | .kitField id _ => id < s.kits.size
  | .method id _ => id < s.types.size

/-- One location holds a new value, and all else is as it was. -/
structure Sets (s t : Store) (l : Location) (v : Value) : Prop where
  blank : t.blank = s.blank
  contents : ∀ k, t.contents? k = if s.real k = l then some v else s.contents? k

variable {s t : Store}

theorem real_eq_iff (hslot : ∀ a i, l ≠ .slot a i)
    (hcell : ∀ c, l = .cell c → (s.cell c).link? = none) {k : Location} :
    s.real k = l ↔ k = l := by
  cases k with
  | cell c =>
    cases h : s.cell c with
    | opened b j =>
      simp only [real, h]
      refine ⟨fun hs => absurd hs.symm (hslot b j), fun hk => ?_⟩
      have := hcell c hk.symm
      rw [h] at this
      cases this
    | closed v => simp [real, h]
  | _ => simp [real]

theorem Sets.of_ne (hslot : ∀ a i, l ≠ .slot a i)
    (hcell : ∀ c, l = .cell c → (s.cell c).link? = none) (hblank : t.blank = s.blank)
    (here : t.contents? l = some v) (others : ∀ k, k ≠ l → t.contents? k = s.contents? k) :
    s.Sets t l v := by
  refine ⟨hblank, fun k => ?_⟩
  by_cases hk : k = l
  · rw [if_pos ((real_eq_iff hslot hcell).2 hk), hk, here]
  · rw [if_neg fun h => hk ((real_eq_iff hslot hcell).1 h), others k hk]

theorem sets_slot {a : Nat} (h : i < (s.locals a).size) (v : Value) :
    s.Sets (s.setLocal a i v) (.slot a i) v := by
  have hslot : ∀ b j, ((s.setLocal a i v).locals b)[j]? = if b = a ∧ j = i then some v
      else (s.locals b)[j]? := by
    intro b j
    rw [locals_setLocal]
    by_cases hb : b = a
    · subst hb
      by_cases hj : j = i
      · subst hj
        simp [h]
      · simp [hj, Ne.symm hj]
    · simp [hb]
  refine ⟨?_, fun k => ?_⟩
  · simp only [blank, setLocal]
    rw [map_modify_of_eq _ _ fun locals => by simp]
  · cases k with
    | slot b j => simp [contents?, hslot, real]
    | cell c =>
      have hsame : (s.setLocal a i v).cell c = s.cell c := rfl
      cases hc : s.cell c with
      | opened b j =>
        simp only [contents?, cellValue, hsame, real, hc, Array.getD_eq_getD_getElem?, hslot,
          Location.slot.injEq]
        split <;> rfl
      | closed w => simp [contents?, cellValue, hsame, real, hc]
    | _ => rfl

theorem sets_cell {c : CellId} {w : Value} (h : s.cell c = .closed w) (v : Value) :
    s.Sets (s.setCell c v) (.cell c) v := by
  have hlink : (s.cell c).link? = none := by rw [h]; rfl
  have hset : s.setCell c v = { s with cells := s.cells.setIfInBounds c (.closed v) } := by
    rw [setCell, h]
  have hcell : ∀ d, (s.setCell c v).cell d = if d = c then .closed v else s.cell d := by
    intro d
    rw [cell_setCell, hlink]
    simp
  refine .of_ne (fun _ _ hs => by cases hs) (fun d hd => ?_) ?_ ?_ fun k hk => ?_
  · cases hd
    exact hlink
  · have hblank : (s.cell c).blank = Cell.blank (.closed v) := by rw [h]; rfl
    rw [hset, blank, map_setIfInBounds_of_eq _ _ _ _ default fun _ => hblank.symm]
    rfl
  · simp [contents?, cellValue, hcell]
  · cases k with
    | cell d =>
      have hne : d ≠ c := fun hd => hk (hd ▸ rfl)
      simp only [contents?, cellValue, hcell, if_neg hne]
      rw [hset]
      rfl
    | _ =>
      rw [hset]
      rfl

theorem sets_global (name : String) (v : Value) : s.Sets (s.setGlobal name v) (.global name) v := by
  refine .of_ne (fun _ _ h => by cases h) (fun _ h => by cases h) rfl ?_ fun k hk => ?_
  · simp [contents?, setGlobal, Table.get?_insert]
  · cases k with
    | global name' => simp_all [contents?, setGlobal, Table.get?_insert, eq_comm]
    | _ => rfl

theorem sets_element {id : Nat} (h : i < (s.listItems id).size) (v : Value) :
    s.Sets (s.modifyList id fun items => items.setIfInBounds i v) (.element id i) v := by
  have hid : id < s.lists.size := by
    by_cases hid : id < s.lists.size
    · exact hid
    · simp [listItems, Array.getD_eq_getD_getElem?, hid] at h
  refine .of_ne (fun _ _ h => by cases h) (fun _ h => by cases h) ?_ ?_ fun k hk => ?_
  · simp only [blank, modifyList]
    rw [map_modify_of_eq _ _ fun items => by simp]
  · rw [contents?, modifyList, listItems, getD_modify, if_pos ⟨rfl, hid⟩]
    exact Array.getElem?_setIfInBounds_self_of_lt h
  · cases k with
    | element id' j =>
      simp only [contents?, modifyList, listItems, getD_modify]
      split
      · rename_i hid'
        rw [Array.getElem?_setIfInBounds, if_neg]
        rintro rfl
        exact hk (hid'.1 ▸ rfl)
      · rfl
    | _ => rfl

theorem sets_field {id : ObjectId} (h : id < s.objects.size) (name : String) (v : Value) :
    s.Sets (s.setField id name v) (.field id name) v := by
  have hget :=
    get?_modify_insert h (g := Object.fields)
    (f := fun o => { o with fields := o.fields.insert name v }) (fun _ => rfl) default
  refine .of_ne (fun _ _ h => by cases h) (fun _ h => by cases h) ?_ ?_ fun k hk => ?_
  · simp only [blank, setField]
    rw [map_modify_of_eq]
    exact fun _ => rfl
  · exact (hget id name).trans (if_pos ⟨rfl, rfl⟩)
  · cases k with
    | field id' name' => exact (hget id' name').trans (if_neg fun h => hk (by rw [h.1, h.2]))
    | _ => rfl

theorem sets_kitField {id : KitId} (h : id < s.kits.size) (name : String) (v : Value) :
    s.Sets (s.setKitField id name v) (.kitField id name) v := by
  have hget :=
    get?_modify_insert h (g := Kit.fields)
    (f := fun k => { k with fields := k.fields.insert name v }) (fun _ => rfl) default
  refine .of_ne (fun _ _ h => by cases h) (fun _ h => by cases h) ?_ ?_ fun k hk => ?_
  · simp only [blank, setKitField]
    rw [map_modify_of_eq]
    exact fun _ => rfl
  · exact (hget id name).trans (if_pos ⟨rfl, rfl⟩)
  · cases k with
    | kitField id' name' => exact (hget id' name').trans (if_neg fun h => hk (by rw [h.1, h.2]))
    | _ => rfl

theorem sets_method {id : TypeId} (h : id < s.types.size) (name : String) (v : Value) :
    s.Sets (s.setMethod id name v) (.method id name) v := by
  have hget := get?_modify_insert h (g := TypeDef.methods)
    (f := fun t => { t with methods := t.methods.insert name v }) (fun _ => rfl) default
  refine .of_ne (fun _ _ h => by cases h) (fun _ h => by cases h) ?_ ?_ fun k hk => ?_
  · simp only [blank, setMethod]
    rw [map_modify_of_eq]
    exact fun _ => rfl
  · exact (hget id name).trans (if_pos ⟨rfl, rfl⟩)
  · cases k with
    | method id' name' => exact (hget id' name').trans (if_neg fun h => hk (by rw [h.1, h.2]))
    | _ => rfl

/-- A value was stored: it stands at the location, or the location does not exist and nothing has
changed. -/
structure Stored (s t : Store) (l : Location) (v : Value) : Prop where
  sets : s.Exists (s.real l) → s.Sets t (s.real l) v
  nothing : ¬s.Exists (s.real l) → t = s

theorem setLocal_of_le {a : Nat} (h : (s.locals a).size ≤ i) (v : Value) :
    s.setLocal a i v = s := by
  rw [setLocal, modify_eq_self (d := #[])]
  exact fun _ => Array.setIfInBounds_eq_of_size_le h

theorem put_stored (l : Location) (v : Value) (s : Store) :
    Ensures (put l v) s (fun _ t => s.Stored t l v) fun _ t => t = s := by
  cases l with
  | slot a i => exact ⟨fun h => sets_slot h v, fun h => setLocal_of_le (Nat.le_of_not_lt h) v⟩
  | cell c =>
    cases hc : s.cell c with
    | opened a i =>
      have hset : s.setCell c v = s.setLocal a i v := by rw [setCell, hc]
      have hreal : s.real (.cell c) = .slot a i := by simp only [real, hc]
      refine ⟨fun h => ?_, fun h => ?_⟩
      · rw [hreal] at h ⊢
        rw [hset]
        exact sets_slot h v
      · rw [hreal] at h
        rw [hset]
        exact setLocal_of_le (Nat.le_of_not_lt h) v
    | closed w =>
      have hreal : s.real (.cell c) = .cell c := by simp only [real, hc]
      refine ⟨fun _ => ?_, fun h => ?_⟩
      · rw [hreal]
        exact sets_cell hc v
      · rw [hreal] at h
        exact absurd (lt_of_closed hc) h
  | global name => exact ⟨fun _ => sets_global name v, fun h => absurd trivial h⟩
  | element id i =>
    refine ⟨fun h => sets_element h v, fun h => ?_⟩
    have hle : (s.listItems id).size ≤ i := Nat.le_of_not_lt h
    simp only [modifyList]
    rw [modify_eq_self (d := #[]) fun _ => Array.setIfInBounds_eq_of_size_le hle]
  | field id name =>
    refine ⟨fun h => sets_field h name v, fun h => ?_⟩
    simp only [setField]
    rw [modify_eq_self (d := default) fun hid => absurd hid h]
  | kitField id name =>
    refine ⟨fun h => sets_kitField h name v, fun h => ?_⟩
    simp only [setKitField]
    rw [modify_eq_self (d := default) fun hid => absurd hid h]
  | method id name =>
    unfold Ensures put
    dsimp only
    cases s.invocable v with
    | true =>
      refine ⟨fun h => sets_method h name v, fun h => ?_⟩
      simp only [setMethod]
      rw [modify_eq_self (d := default) fun hid => absurd hid h]
    | false => rfl

theorem overwrite_stored (place : Place) (v : Value) (s : Store) :
    Ensures (overwrite place v) s (fun _ t => ∃ l, s.locate place = .ok l ∧ s.Stored t l v)
      fun _ t => t = s := by
  simp only [overwrite, ensures_bind, ensures_reading]
  refine ⟨fun l hl => ?_, fun _ _ => trivial⟩
  exact (put_stored l v s).imp (fun _ _ h => ⟨l, hl, h⟩) fun _ _ h => h

/-- Where a store to a location goes: one reference is followed, and no further. A method is
replaced even if it is a reference. -/
inductive Redirects (s : Store) (l : Location) : Location → Prop where
  | here : (∀ n place, s.contents? l ≠ some (.ref n place)) → Redirects s l l
  | method {id : TypeId} {name : String} : l = .method id name → Redirects s l l
  | through {n : Nat} {place : Place} {k : Location} : (∀ id name, l ≠ .method id name) →
      s.contents? l = some (.ref n place) → s.locate place = .ok k → Redirects s l k

theorem redirect?_eq_some {place : Place} (h : s.redirect? l = some place) :
    (∀ id name, l ≠ .method id name) ∧ ∃ n, s.contents? l = some (.ref n place) := by
  unfold redirect? at h
  split at h
  · cases h
  · rename_i hl
    refine ⟨hl, ?_⟩
    split at h
    · rename_i n _ hcontents
      cases h
      exact ⟨n, hcontents⟩
    · cases h

theorem redirects_of_redirect?_eq_none (h : s.redirect? l = none) : s.Redirects l l := by
  unfold redirect? at h
  split at h
  · exact .method rfl
  · split at h
    · cases h
    · rename_i hcontents
      exact .here hcontents

theorem assign_stored (l : Location) (v : Value) (s : Store) :
    Ensures (assign l v) s (fun _ t => ∃ k, s.Redirects l k ∧ s.Stored t k v) fun _ t => t = s := by
  simp only [assign, ensures_bind, ensures_look]
  split
  · rename_i place hplace
    obtain ⟨hl, n, hcontents⟩ := redirect?_eq_some hplace
    refine (overwrite_stored place v s).imp (fun _ _ hstored => ?_) fun _ _ h => h
    obtain ⟨k, hk, h⟩ := hstored
    exact ⟨k, .through hl hcontents hk, h⟩
  · rename_i hnone
    refine (put_stored l v s).imp (fun _ _ h => ?_) fun _ _ h => h
    exact ⟨l, redirects_of_redirect?_eq_none hnone, h⟩

theorem size_listItems_of_blank (h : t.blank = s.blank) (id : ListId) :
    (t.listItems id).size = (s.listItems id).size := by
  have hsize : ∀ r : Store, (r.blank.listItems id).size = (r.listItems id).size := by
    intro r
    simp only [blank, listItems, Array.getD_eq_getD_getElem?, Array.getElem?_map]
    cases r.lists[id]? <;> simp
  rw [← hsize t, ← hsize s, h]

theorem position_eq_ok {key : Number} {length : Nat} (h : s.position target key length = .ok i) :
    t.position target key length = .ok i ∧ i < length := by
  unfold position at *
  split at h
  · split at h
    · cases h
    · rename_i hbounds
      cases h
      refine ⟨if_neg hbounds, ?_⟩
      omega
  · cases h

/-- The fields that can be written. -/
inductive FieldAt : Value → String → Location → Prop where
  | object (id : ObjectId) (name : String) : FieldAt (.object id) name (.field id name)
  | kit (id : KitId) (name : String) : FieldAt (.kit id) name (.kitField id name)
  | type (id : TypeId) (name : String) : FieldAt (.type id) name (.method id name)

/-- What writing through a reference can reach. -/
inductive Located (s : Store) : Place → Location → Prop where
  | global (name : String) : Located s (.global name) (.global name)
  | loc (c : CellId) : Located s (.loc c) (.cell c)
  | outer (c : CellId) : Located s (.outer c) (.cell c)
  | element {id : ListId} {key : Number} {i : Nat} :
      s.position (.list id) key (s.listItems id).size = .ok i →
      Located s (.element (.list id) (.num key)) (.element id i)
  | named {target : Value} {name : String} {l : Location} : FieldAt target name l →
      Located s (.element target (.str name)) l
  | field {target : Value} {name : String} {l : Location} : FieldAt target name l →
      Located s (.field target name) l

theorem locateField_eq_ok (h : s.locateField target name = .ok l) : FieldAt target name l := by
  cases target with
  | object id => cases h; exact .object id name
  | kit id => cases h; exact .kit id name
  | type id => cases h; exact .type id name
  | _ => cases h

theorem locate_eq_ok {place : Place} (h : s.locate place = .ok l) : Located s place l := by
  cases place with
  | global name => cases h; exact .global name
  | loc c => cases h; exact .loc c
  | outer c => cases h; exact .outer c
  | field target name => exact .field (locateField_eq_ok h)
  | element target key =>
    simp only [locate, locateIndex] at h
    split at h
    · rename_i id n
      cases hp : s.position (.list id) n (s.listItems id).size with
      | ok i =>
        rw [hp] at h
        cases h
        exact .element hp
      | error e =>
        rw [hp] at h
        cases h
    · cases h
    · cases h
    · exact .named (locateField_eq_ok h)
    · exact .named (locateField_eq_ok h)
    · exact .named (locateField_eq_ok h)
    · cases h

theorem Located.locate_eq {place : Place} (h : Located s place l) : s.locate place = .ok l := by
  cases h with
  | global | loc | outer => rfl
  | element hp => rw [locate, locateIndex, hp]; rfl
  | named hf | field hf => cases hf <;> rfl

theorem Located.of_blank {place : Place} (h : Located s place l) (hblank : t.blank = s.blank) :
    Located t place l := by
  cases h with
  | global name => exact .global name
  | loc c => exact .loc c
  | outer c => exact .outer c
  | element hp =>
    refine .element ?_
    rw [size_listItems_of_blank hblank]
    exact (position_eq_ok hp).1
  | named hf => exact .named hf
  | field hf => exact .field hf

theorem FieldAt.readField (h : FieldAt target name l) (hv : s.contents? l = some v) :
    s.readField target name = .ok v := by
  have hfield : s.field? target name = some v := by
    cases h with
    | object id =>
      have hv : (s.object id).fields.get? name = some v := hv
      rw [field?, ownField?, hv]
    | kit | type => exact hv
  rw [Store.readField, hfield]

theorem Located.read {place : Place} (h : Located s place l) (hv : s.contents? l = some v) :
    s.read place = .ok v := by
  cases h with
  | global name =>
    have hv : s.globals.get? name = some v := hv
    rw [Store.read, load, hv]
  | loc | outer =>
    cases hv
    rfl
  | element hp =>
    rename_i id key i
    have hv : (s.listItems id)[i]? = some v := hv
    rw [Store.read, readIndex, hp]
    simp [bind, Except.bind, pure, Except.pure, hv, Array.getD_eq_getD_getElem?]
  | named hf =>
    rw [← hf.readField hv]
    cases hf <;> rfl
  | field hf => exact hf.readField hv

/-- A plain value that was stored is what following references from the addressed location gives. -/
theorem Sets.deref_contents {k : Location} (h : s.Sets t (s.real k) v) (hr : s.Redirects l k)
    (hplain : ∀ n place, v ≠ .ref n place) : ∃ u, t.contents? l = some u ∧ t.deref u = .ok v := by
  have hk : t.contents? k = some v := by rw [h.contents, if_pos rfl]
  by_cases hl : s.real l = s.real k
  · exact ⟨v, by rw [h.contents, if_pos hl], t.deref_of_plain hplain⟩
  · cases hr with
    | here | method => exact absurd rfl hl
    | @through n place _ _ href hlocate =>
      refine ⟨.ref n place, by rw [h.contents, if_neg hl, href], ?_⟩
      have hread : t.read place = .ok v := ((locate_eq_ok hlocate).of_blank h.blank).read hk
      rw [deref, maxChain, derefWithin]
      simp only [hread]
      exact t.derefWithin_of_plain hplain _

end Store

namespace Exec

/-- What an instruction stores to: a slot of the running call, or the place of a reference. -/
inductive Destination where
  | slot (activation : ActivationId) (index : Nat)
  | place (p : Place)

namespace Destination

def locate (s : Store) : Destination → Except Fault Location
  | slot a i => .ok (.slot a i)
  | place p => s.locate p

/-- What loading from there gives. -/
def load (s : Store) : Destination → Except Fault Value
  | slot a i =>
    match (s.locals a)[i]? with
    | some v => .ok v
    | none => .error (.invalidInstruction i)
  | place p => s.read p

end Destination

/-- The instruction stores the value to the destination. -/
inductive Stores (f : Frame) (s : Store) (w : Word) : Opcode → Destination → Value → Prop where
  | slot {v : Value} {rest : List Value} : f.stack = v :: rest →
      Stores f s w .storeLocal (.slot f.activation w.c) v
  | outer {v : Value} {rest : List Value} {c : CellId} : f.stack = v :: rest →
      f.closure.captures[w.c]? = some c → Stores f s w .storeOuter (.place (.outer c)) v
  | global {v : Value} {rest : List Value} {name : String} : f.stack = v :: rest →
      f.prototype.stringConstant? w.c = some name →
      Stores f s w .storeGlobal (.place (.global name)) v
  | index {v target key : Value} {x y : Value} {rest : List Value} : f.stack = v :: y :: x :: rest →
      s.deref y = .ok key → s.deref x = .ok target →
        Stores f s w .storeIndex (.place (.element target key)) v
  | field {v target : Value} {x : Value} {rest : List Value} {name : String} :
      f.stack = v :: x :: rest →
      f.prototype.stringConstant? w.c = some name → s.deref x = .ok target →
      Stores f s w .storeField (.place (.field target name)) v
  | deref {v : Value} {n : Nat} {p : Place} {rest : List Value} : f.stack = v :: .ref n p :: rest →
      Stores f s w .storeDeref (.place p) v

theorem Destination.load_of_contents {d : Destination} {s : Store} (hl : d.locate s = .ok l)
    (hv : s.contents? l = some v) : d.load s = .ok v := by
  cases d with
  | slot a i =>
    cases hl
    have hv : (s.locals a)[i]? = some v := hv
    rw [load, hv]
  | place p => exact (Store.locate_eq_ok hl).read hv

theorem Destination.locate_of_blank {d : Destination} {s t : Store} (h : t.blank = s.blank)
    (hl : d.locate s = .ok l) : d.locate t = .ok l := by
  cases d with
  | slot a i => exact hl
  | place p => exact ((Store.locate_eq_ok hl).of_blank h).locate_eq

/-- The instructions that store. -/
def storing : List Opcode :=
  [.storeLocal, .storeOuter, .storeGlobal, .storeIndex, .storeField, .storeDeref]

/-- The store that an instruction asks for was made. -/
def Performed (f : Frame) (s : Store) (w : Word) (op : Opcode) (t : Store) : Prop :=
  ∃ d v l k, Stores f s w op d v ∧ d.locate s = .ok l ∧
    (if op = .storeDeref then k = l else s.Redirects l k) ∧ s.Stored t k v

theorem operation_performed {op : Opcode} (hop : op ∈ storing) (f : Frame) (w : Word) (s : Store) :
    Ensures (operation f w op) s (fun _ t => Performed f s w op t) fun _ t => t = s := by
  have hassign : ∀ {d v l}, op ≠ .storeDeref → Stores f s w op d v → d.locate s = .ok l →
      Ensures (Store.assign l v) s (fun _ t => Performed f s w op t) fun _ t => t = s := by
    intro d v l hne hd hl
    refine (Store.assign_stored l v s).imp (fun _ t hstored => ?_) fun _ _ h => h
    obtain ⟨k, hk, ht⟩ := hstored
    refine ⟨d, v, l, k, hd, hl, ?_, ht⟩
    rw [if_neg hne]
    exact hk
  simp only [storing, List.mem_cons, List.not_mem_nil, or_false] at hop
  rcases hop with rfl | rfl | rfl | rfl | rfl | rfl
  · simp only [operation, ensures_bind, ensures_top, ensures_localAt, ensures_pure]
    exact ⟨fun v rest h => ⟨fun _ _ => hassign (by simp) (.slot h) rfl, fun _ => trivial⟩,
      fun _ => trivial⟩
  · simp only [operation, ensures_bind, ensures_top, ensures_outer, ensures_pure]
    exact ⟨fun v rest h => ⟨fun c hc => hassign (by simp) (.outer h hc) rfl, fun _ => trivial⟩,
      fun _ => trivial⟩
  · simp only [operation, ensures_bind, ensures_top, ensures_name, ensures_pure]
    exact ⟨fun n hn => ⟨fun v rest h => hassign (by simp) (.global h hn) rfl, fun _ => trivial⟩,
      fun _ => trivial⟩
  · simp only [operation, ensures_bind, ensures_pop, ensures_popPlain, ensures_reading,
      pushed, ensures_pure]
    refine ⟨fun v rest h =>
      ⟨fun y rest' h' => ⟨fun key hkey => ⟨fun x rest'' h'' => ⟨fun target htarget =>
      ⟨fun l hl => ?_, fun _ _ => trivial⟩, fun _ _ => trivial⟩, fun _ => trivial⟩,
      fun _ _ => trivial⟩, fun _ => trivial⟩, fun _ => trivial⟩
    cases h'
    cases h''
    exact hassign (by simp) (.index h hkey htarget) hl
  · simp only [operation, ensures_bind, ensures_name, ensures_pop, ensures_popPlain,
      ensures_reading, pushed, ensures_pure]
    refine ⟨fun n hn => ⟨fun v rest h => ⟨fun x rest' h' => ⟨fun target htarget => ⟨fun l hl => ?_,
      fun _ _ => trivial⟩, fun _ _ => trivial⟩, fun _ => trivial⟩, fun _ => trivial⟩,
      fun _ => trivial⟩
    cases h'
    exact hassign (by simp) (.field h hn htarget) hl
  · simp only [operation, ensures_bind, ensures_pop]
    refine ⟨fun v rest h => ⟨fun x rest' h' => ?_, fun _ => trivial⟩, fun _ => trivial⟩
    cases h'
    split
    · rename_i n place
      simp only [ensures_bind, pushed, ensures_pure]
      refine (Store.overwrite_stored place v s).imp (fun _ t hstored => ?_) fun _ _ h => h
      obtain ⟨l, hl, ht⟩ := hstored
      exact ⟨.place place, v, l, l, .deref h, hl, rfl, ht⟩
    · trivial

end Exec

/-- A store fails and leaves everything as it was, or it changes the one location that is addressed
or that the reference there names, and plain values can be read back; if that location does not
exist, nothing changes. -/
theorem store_changes_one_location {op : Opcode} (hop : op ∈ Exec.storing) (f : Frame) (w : Word)
    (s : Store) : (∀ e t, Exec.operation f w op s = .error e t → t = s) ∧
    ∀ eff t, Exec.operation f w op s = .ok eff t →
      ∃ d v l k, Exec.Stores f s w op d v ∧ d.locate s = .ok l ∧
        (if op = .storeDeref then k = l else s.Redirects l k) ∧
        (s.Exists (s.real k) → s.Sets t (s.real k) v ∧
          ((∀ n place, v ≠ .ref n place) → ∃ u, d.load t = .ok u ∧ t.deref u = .ok v)) ∧
        (¬s.Exists (s.real k) → t = s) := by
  have h := Exec.operation_performed hop f w s
  refine ⟨fun e t ht => h.error ht, fun eff t ht => ?_⟩
  obtain ⟨d, v, l, k, hd, hl, hk, hstored⟩ := h.ok ht
  refine ⟨d, v, l, k, hd, hl, hk, fun hexists => ⟨hstored.sets hexists, fun hplain => ?_⟩,
    hstored.nothing⟩
  have hsets := hstored.sets hexists
  have hback : ∃ u, t.contents? l = some u ∧ t.deref u = .ok v := by
    by_cases hderef : op = .storeDeref
    · rw [if_pos hderef] at hk
      subst hk
      exact ⟨v, by rw [hsets.contents, if_pos rfl], t.deref_of_plain hplain⟩
    · rw [if_neg hderef] at hk
      exact hsets.deref_contents hk hplain
  obtain ⟨u, hu, hderef⟩ := hback
  exact ⟨u, Exec.Destination.load_of_contents (Exec.Destination.locate_of_blank hsets.blank hl) hu,
    hderef⟩

/-- A function that names one global. -/
def Frame.naming (name : String) (stack : List Value) : Frame :=
  ⟨⟨{ (default : Prototype) with constants := #[.str name] }, #[]⟩, none, 0, stack, 0, [], none⟩

/-- Two globals that refer to each other. -/
def Store.mutual : Store :=
  { Store.empty with globals := ⟨[("g", .ref 0 (.global "h")), ("h", .ref 1 (.global "g"))]⟩ }

/-- A store to a global that refers to another one, which refers back: the other one changes, and
the value can be read back from the first. -/
theorem store_changes_one_location_mutual :
    .storeGlobal ∈ Exec.storing ∧
    ∃ t, Exec.operation (Frame.naming "g" [.bool true]) ⟨0⟩ .storeGlobal Store.mutual =
        .ok (.next (Frame.naming "g" [.bool true])) t ∧
      Store.mutual.Redirects (.global "g") (.global "h") ∧ Store.mutual.Exists (.global "h") ∧
      Store.mutual.Sets t (.global "h") (.bool true) ∧
      ∃ u, (Exec.Destination.place (.global "g")).load t = .ok u ∧
        t.deref u = .ok (.bool true) := by
  have hop : .storeGlobal ∈ Exec.storing := by decide
  obtain ⟨d, v, l, k, hd, hl, hk, hsets, _⟩ :=
    (store_changes_one_location hop (Frame.naming "g" [.bool true]) ⟨0⟩ Store.mutual).2 _ _ rfl
  cases hd with
  | global hstack hname =>
    cases hstack
    cases hname
    cases hl
    cases hk with
    | here h => exact absurd rfl (h 0 (.global "h"))
    | method h => cases h
    | through hmethod href hlocate =>
      cases href
      cases hlocate
      obtain ⟨hset, hback⟩ := hsets trivial
      refine ⟨hop, _, rfl, .through hmethod rfl rfl, trivial, hset, hback ?_⟩
      rintro n place h
      cases h

/-- A cell that stands for a slot which its call does not have. -/
def Store.slotless : Store :=
  { Store.empty with activations := #[#[]], cells := #[.opened 0 0] }

/-- A store through a reference to a slot that does not exist succeeds, but no location changes, and
what is read there is not the stored value. -/
theorem store_to_missing_slot :
    Exec.operation (Frame.naming "" [.int 1, .ref 0 (.loc 0)]) ⟨0⟩ .storeDeref Store.slotless =
      .ok (.next (Frame.naming "" [.int 1])) Store.slotless ∧
    Exec.Stores (Frame.naming "" [.int 1, .ref 0 (.loc 0)]) Store.slotless ⟨0⟩ .storeDeref
      (.place (.loc 0)) (.int 1) ∧
    (∀ l, ¬Store.slotless.Sets Store.slotless (Store.slotless.real l) (.int 1)) ∧
    (Exec.Destination.place (.loc 0)).load Store.slotless = .ok .null ∧
    Store.slotless.deref .null = .ok .null := by
  refine ⟨rfl, .deref rfl, fun l h => ?_, rfl, rfl⟩
  have hl : Store.slotless.contents? l = some (.int 1) := by rw [h.contents, if_pos rfl]
  have hcell : ∀ c, Store.slotless.cell c = .opened 0 0 := by
    intro c
    cases c <;> rfl
  cases l with
  | slot a i => cases a <;> cases hl
  | cell c =>
    rw [Store.contents?, Store.cellValue, hcell] at hl
    cases hl
  | global | element | field | kitField | method => cases hl

end Refscript
