import Refscript.Proofs.Code.Chart
import Refscript.Proofs.Code.Building

/-!
# Refscript.Proofs.Code.Scoping

What the names in a builder stand for. A builder mirrors the scope of a function if the local at
place `i` has slot `i` and the name that is at place `i` in the scope, names are distinct, and a
local is marked as captured exactly if it is one of the captured variables (`Builder.Mirrors`). A
builder is tied to those around it if each captured variable leads to the variable of its name in
the function around (`Tied`).

* `Mirrors.localSlot?`, `Tied.resolveOuter?`: finding a name.
* `Mirrors.declare`, `Mirrors.push`, `Mirrors.pop`: declarations, and scopes that start and end.
-/

namespace Refscript

variable {o : OuterInfo} {position : Nat} {S : Scope}

namespace Scope

variable {S S' : Scope} {b : Block} {x y : String} {K K' : List (Nat × String)} {slot id : Nat}

/-- The names in scope, and whether they are captured. -/
def marked (K : List (Nat × String)) : Scope → List (String × Bool)
  | [] => []
  | b :: S => marked K S ++ b.names.map fun x => (x, decide ((b.id, x) ∈ K))

/-- The number of names in scope at the start of each block but the function itself. -/
def bases : Scope → List Nat
  | [] => []
  | [_] => []
  | _ :: b :: S => (names (b :: S)).length :: bases (b :: S)

theorem length_bases (S : Scope) : S.bases.length = S.length - 1 := by
  induction S with
  | nil => rfl
  | cons b S ih =>
    cases S with
    | nil => rfl
    | cons d S =>
      rw [bases, List.length_cons, ih]
      rfl

theorem map_fst_marked (K : List (Nat × String)) (S : Scope) :
    (S.marked K).map Prod.fst = S.names := by
  induction S with
  | nil => rfl
  | cons b S ih =>
    rw [marked, names, List.map_append, ih, List.map_map]
    exact congrArg (names S ++ ·) (List.map_id b.names)

theorem mem_names : x ∈ S.names ↔ ∃ b ∈ S, x ∈ b.names := by
  induction S with
  | nil => simp [names]
  | cons b S ih => simp [names, ih, or_comm]

theorem home?_eq_none_iff : S.home? x = none ↔ x ∉ S.names := by
  simp [home?, mem_names]

theorem home?_eq_some (h : S.home? x = some id) : ∃ b ∈ S, b.id = id ∧ x ∈ b.names := by
  obtain ⟨b, hb, hid⟩ := Option.map_eq_some_iff.1 h
  exact ⟨b, List.mem_of_find?_eq_some hb, hid, by simpa using List.find?_some hb⟩

theorem home?_of_mem (hd : S.names.Nodup) (hb : b ∈ S) (hx : x ∈ b.names) :
    S.home? x = some b.id := by
  induction S with
  | nil => cases hb
  | cons c S ih =>
    rw [names, List.nodup_append] at hd
    obtain ⟨hS, _, hne⟩ := hd
    rcases List.mem_cons.1 hb with rfl | hb
    · simp [home?, hx]
    · have hout : x ∉ c.names := fun hc => hne x (mem_names.2 ⟨b, hb, hx⟩) x hc rfl
      have := ih hS hb
      simp only [home?] at this ⊢
      rw [List.find?_cons_of_neg (by simpa using hout), this]

theorem declare_of_mem (hx : x ∈ S.names) : S.declare x = S :=
  if_pos hx

theorem declare_of_not_mem (hx : x ∉ names (b :: S)) :
    declare (b :: S) x = { b with names := b.names ++ [x] } :: S :=
  if_neg hx

theorem nodup_declare (hd : S.names.Nodup) (x : String) : (S.declare x).names.Nodup := by
  by_cases hx : x ∈ S.names
  · rw [declare_of_mem hx]
    exact hd
  · cases S with
    | nil => exact .nil
    | cons b S =>
      rw [declare_of_not_mem hx, names, ← List.append_assoc, List.nodup_append]
      refine ⟨hd, by simp, ?_⟩
      rintro y hy _ hx' rfl
      rw [List.mem_singleton.1 hx'] at hy
      exact hx hy

theorem slot?_eq_none_iff : S.slot? x = none ↔ x ∉ S.names :=
  List.idxOf?_eq_none_iff

theorem getElem?_of_slot? (h : S.slot? x = some slot) : S.names[slot]? = some x := by
  obtain ⟨hlt, heq, _⟩ := List.idxOf?_eq_some_iff.1 h
  rw [List.getElem?_eq_getElem hlt, heq]

theorem mem_of_slot? (h : S.slot? x = some slot) : x ∈ S.names :=
  List.mem_of_getElem? (getElem?_of_slot? h)

theorem slot?_of_getElem? (hd : S.names.Nodup) (h : S.names[slot]? = some x) :
    S.slot? x = some slot := by
  obtain ⟨hlt, heq⟩ := List.getElem?_eq_some_iff.1 h
  refine List.idxOf?_eq_some_iff.2 ⟨hlt, heq, fun j hj hx => ?_⟩
  have := (List.getElem_inj hd).1 (hx.trans heq.symm)
  omega

theorem marked_congr (h : ∀ p, p ∈ K ↔ p ∈ K') (S : Scope) : S.marked K = S.marked K' := by
  induction S with
  | nil => rfl
  | cons b S ih => simp [marked, ih, h]

theorem marked_of_ne (h : ∀ b ∈ S, b.id ≠ id) : S.marked ((id, x) :: K) = S.marked K := by
  induction S with
  | nil => rfl
  | cons b S ih =>
    have hb := h b List.mem_cons_self
    simp [marked, ih fun c hc => h c (List.mem_cons_of_mem _ hc), hb]

theorem marked_of_home? (hd : S.names.Nodup) (h : S.home? x = some id) :
    S.marked ((id, x) :: K) = (S.marked K).map fun p => (p.1, p.2 || p.1 == x) := by
  have hblock : ∀ b ∈ S, x ∈ b.names → b.id = id := by
    intro b hb hx
    have := home?_of_mem hd hb hx
    rw [h] at this
    exact (Option.some.inj this).symm
  clear h hd
  induction S with
  | nil => rfl
  | cons b S ih =>
    rw [marked, marked, List.map_append,
      ih fun c hc => hblock c (List.mem_cons_of_mem _ hc), List.map_map]
    congr 1
    refine List.map_congr_left fun y hy => ?_
    have hb := hblock b List.mem_cons_self
    by_cases hyx : y = x
    · subst hyx
      simp [hb hy]
    · simp [hyx]

end Scope

namespace Builder

variable {b b' : Builder} {K K' : List (Nat × String)} {S : Scope} {x : String} {slot id : Nat}

/-- The builder has in scope what `S` says, and `K` are the captured variables. -/
structure Mirrors (b : Builder) (K : List (Nat × String)) (S : Scope) : Prop where
  marked : b.active.map (fun l => (l.name, l.captured)) = S.marked K
  slots : b.active.map LocalInfo.slot = List.range b.active.length
  scopes : b.scopes = S.bases
  distinct : S.names.Nodup

namespace Mirrors

theorem names (h : b.Mirrors K S) : b.active.map LocalInfo.name = S.names := by
  rw [← Scope.map_fst_marked K S, ← h.marked, List.map_map]
  rfl

theorem length (h : b.Mirrors K S) : b.active.length = S.names.length := by
  rw [← h.names, List.length_map]

theorem slot_of_mem (h : b.Mirrors K S) {l : LocalInfo} (hl : l ∈ b.active) :
    S.slot? l.name = some l.slot := by
  obtain ⟨i, hi⟩ := List.getElem?_of_mem hl
  have hslot : l.slot = i := by
    have := congrArg (·[i]?) h.slots
    obtain ⟨hlt, _⟩ := List.getElem?_eq_some_iff.1 hi
    simpa [hi, List.getElem?_range hlt] using this
  refine Scope.slot?_of_getElem? h.distinct ?_
  rw [← h.names, List.getElem?_map, hslot, hi, Option.map_some]

theorem localSlot? (h : b.Mirrors K S) (x : String) : b.localSlot? x = S.slot? x := by
  unfold Builder.localSlot?
  cases hfind : b.active.reverse.find? (·.name == x) with
  | none =>
    rw [Option.map_none, eq_comm, Scope.slot?_eq_none_iff, ← h.names]
    intro hx
    obtain ⟨l, hl, hname⟩ := List.mem_map.1 hx
    exact List.find?_eq_none.1 hfind l (List.mem_reverse.2 hl) (by simpa using hname)
  | some l =>
    have hl := List.mem_reverse.1 (List.mem_of_find?_eq_some hfind)
    have hname : l.name = x := by simpa using List.find?_some hfind
    rw [Option.map_some, ← hname, h.slot_of_mem hl]

theorem any_name_iff (h : b.Mirrors K S) (x : String) :
    b.active.any (·.name == x) = true ↔ x ∈ S.names := by
  rw [← h.names, List.any_eq_true, List.mem_map]
  simp

theorem congr (h : b.Mirrors K S) (hK : ∀ p, p ∈ K ↔ p ∈ K') : b.Mirrors K' S :=
  { h with marked := h.marked.trans (Scope.marked_congr hK S) }

theorem other (h : b.Mirrors K S) (hid : ∀ c ∈ S, c.id ≠ id) : b.Mirrors ((id, x) :: K) S :=
  { h with marked := h.marked.trans (Scope.marked_of_ne hid).symm }

theorem of_bindings (h : b.Mirrors K S) (hactive : b'.active = b.active)
    (hscopes : b'.scopes = b.scopes) : b'.Mirrors K S := by
  refine ⟨?_, ?_, hscopes.trans h.scopes, h.distinct⟩
  · rw [hactive]
    exact h.marked
  · rw [hactive]
    exact h.slots

theorem markCapturedIn_eq {ls : List LocalInfo} (hd : (ls.map LocalInfo.slot).Nodup) (slot : Nat) :
    markCapturedIn slot ls = ls.map fun l => if l.slot = slot
      then { l with captured := true } else l := by
  induction ls with
  | nil => rfl
  | cons l ls ih =>
    rw [List.map_cons, List.nodup_cons] at hd
    rw [markCapturedIn, List.map_cons]
    split
    · rename_i heq
      -- no other local has the slot
      have hrest : ∀ k ∈ ls, (if k.slot = slot then { k with captured := true } else k) = k := by
        intro k hk
        refine if_neg fun hslot => hd.1 ?_
        rw [heq, ← hslot]
        exact List.mem_map_of_mem hk
      rw [List.map_congr_left hrest, List.map_id']
    · rw [ih hd.2]

theorem mark (h : b.Mirrors K S) (hslot : S.slot? x = some slot) (hhome : S.home? x = some id) :
    (b.markCaptured slot).Mirrors ((id, x) :: K) S := by
  have hd : (b.active.map LocalInfo.slot).Nodup := by
    rw [h.slots]
    exact List.nodup_range
  refine ⟨?_, ?_, h.scopes, h.distinct⟩
  · rw [Scope.marked_of_home? h.distinct hhome, ← h.marked, List.map_map, markCaptured,
      markCapturedIn_eq hd, List.map_map]
    refine List.map_congr_left fun l hl => ?_
    -- a local has the slot exactly if it has the name
    have hname : l.slot = slot ↔ l.name = x := by
      have hl := h.slot_of_mem hl
      constructor
      · intro heq
        have := Scope.getElem?_of_slot? hl
        rw [heq, Scope.getElem?_of_slot? hslot] at this
        exact (Option.some.inj this).symm
      · intro heq
        rw [heq, hslot] at hl
        exact (Option.some.inj hl).symm
    by_cases heq : l.slot = slot
    · simp [heq, hname.1 heq]
    · have hne : l.name ≠ x := fun hx => heq (hname.2 hx)
      simp [heq, hne]
  · rw [markCaptured, map_slot_markCapturedIn, h.slots]
    have := congrArg List.length (map_slot_markCapturedIn slot b.active)
    simp only [List.length_map] at this
    rw [this]

theorem addLocal?_eq_none_iff (h : b.Mirrors K S) (x : String) :
    b.addLocal? x = none ↔ x ∈ S.names := by
  unfold addLocal?
  rw [← h.any_name_iff x]
  split
  · rename_i hany
    simp [hany]
  · rename_i hany
    simp [hany]

theorem eq_of_addLocal? (hadd : b.addLocal? x = some (slot, b')) : slot = b.active.length ∧
    b' = { b with
      active := b.active ++ [⟨x, slot, b.position, 0, false⟩]
      maxLocals := max b.maxLocals (slot + 1) } := by
  unfold addLocal? at hadd
  split at hadd
  · cases hadd
  · cases hadd
    exact ⟨rfl, rfl⟩

theorem declare {c : Block} {R : Scope} (h : b.Mirrors K (c :: R)) (hK : (c.id, x) ∉ K)
    (hadd : b.addLocal? x = some (slot, b')) :
    b'.Mirrors K (Scope.declare (c :: R) x) ∧ (Scope.declare (c :: R) x).slot? x = some slot := by
  have hx : x ∉ Scope.names (c :: R) := by
    rw [← h.addLocal?_eq_none_iff x, hadd]
    nofun
  have hscope := Scope.declare_of_not_mem hx
  have hnames : Scope.names (Scope.declare (c :: R) x) = Scope.names (c :: R) ++ [x] := by
    rw [hscope, Scope.names, Scope.names, List.append_assoc]
  have hdistinct := Scope.nodup_declare h.distinct x
  obtain ⟨rfl, rfl⟩ := eq_of_addLocal? hadd
  refine ⟨⟨?_, ?_, ?_, hdistinct⟩,
    Scope.slot?_of_getElem? hdistinct (by rw [hnames, h.length]; simp)⟩
  · rw [List.map_append, h.marked, hscope]
    simp [Scope.marked, hK]
  · simp [h.slots, List.range_succ]
  · rw [hscope]
    cases R with
    | nil | cons d R => exact h.scopes

theorem push (h : b.Mirrors K S) (hS : S ≠ []) (id : Nat) :
    Mirrors { b with scopes := b.active.length :: b.scopes } K (⟨id, []⟩ :: S) := by
  have hnames : Scope.names (⟨id, []⟩ :: S) = S.names := by rw [Scope.names, List.append_nil]
  refine ⟨?_, h.slots, ?_, by rw [hnames]; exact h.distinct⟩
  · rw [h.marked, Scope.marked, List.map_nil, List.append_nil]
  · cases S with
    | nil => exact absurd rfl hS
    | cons c S =>
      show b.active.length :: b.scopes = _
      rw [Scope.bases, h.length, h.scopes]

/-- The locals of the innermost scope: one of them is captured exactly if the block has a captured
variable. -/
theorem pop {c : Block} (h : b.Mirrors K (c :: S)) (hS : S ≠ [])
    (hK : ∀ x, (c.id, x) ∈ K → x ∈ c.names) : ∃ scopes, b.scopes = S.names.length :: scopes ∧
      Mirrors { b with scopes := scopes, active := b.active.take S.names.length } K S ∧
      ((b.active.drop S.names.length).any LocalInfo.captured = true ↔ ∃ x, (c.id, x) ∈ K) := by
  have hmarked := h.marked
  rw [Scope.marked, List.map_eq_append_iff] at hmarked
  obtain ⟨rest, leaving, hactive, hrest, hleaving⟩ := hmarked
  have hlen : rest.length = S.names.length := by
    rw [← Scope.map_fst_marked K S, ← hrest, List.length_map, List.length_map]
  have htake : b.active.take S.names.length = rest := by rw [hactive, ← hlen, List.take_left]
  have hdrop : b.active.drop S.names.length = leaving := by rw [hactive, ← hlen, List.drop_left]
  have hscopes : b.scopes = S.names.length :: S.bases := by
    cases S with
    | nil => exact absurd rfl hS
    | cons d S => exact h.scopes
  refine ⟨S.bases, hscopes, ⟨?_, ?_, rfl, ?_⟩, ?_⟩
  · show (b.active.take _).map _ = _
    rw [htake, hrest]
  · show (b.active.take _).map _ = List.range (b.active.take _).length
    have hle : S.names.length ≤ b.active.length := by
      rw [hactive, List.length_append]
      omega
    rw [List.map_take, h.slots, List.take_range, List.length_take, Nat.min_eq_left hle]
  · have := h.distinct
    rw [Scope.names, List.nodup_append] at this
    exact this.1
  · rw [hdrop, List.any_eq_true]
    have hmem : ∀ p, p ∈ leaving.map (fun l => (l.name, l.captured)) ↔
        ∃ x ∈ c.names, (x, decide ((c.id, x) ∈ K)) = p := by
      intro p
      rw [hleaving, List.mem_map]
    constructor
    · rintro ⟨l, hl, hcaptured⟩
      obtain ⟨x, _, heq⟩ := (hmem _).1 (List.mem_map_of_mem hl)
      refine ⟨x, of_decide_eq_true ?_⟩
      rw [(Prod.mk.inj heq).2, hcaptured]
    · rintro ⟨x, hx⟩
      obtain ⟨l, hl, heq⟩ :=
        List.mem_map.1 ((hmem (x, true)).2 ⟨x, hK x hx, by rw [decide_eq_true hx]⟩)
      exact ⟨l, hl, (Prod.mk.inj heq).2⟩

theorem new (K : List (Nat × String)) (name : Option String) (id : Nat) :
    (Builder.new name).Mirrors K [⟨id, []⟩] :=
  ⟨rfl, rfl, rfl, .nil⟩

end Mirrors
end Builder

/-- The blocks that are open in the functions. -/
def Scope.ids (Ss : List Scope) : List Nat :=
  Ss.flatten.map Block.id

theorem Scope.mem_ids_of_findSome? {Ss : List Scope} {x : String} {id : Nat}
    (h : Ss.findSome? (Scope.home? · x) = some id) : id ∈ Scope.ids Ss := by
  obtain ⟨S, hS, hhome⟩ := List.exists_of_findSome?_eq_some h
  obtain ⟨b, hb, rfl, _⟩ := Scope.home?_eq_some hhome
  exact List.mem_map_of_mem (List.mem_flatten.2 ⟨S, hS, hb⟩)

/-- The function around has the captured variable, and counts it among the captured ones if it is
its own. -/
def Scope.Lends (S : Scope) (K : List (Nat × String)) (outers : List OuterInfo) (o : OuterInfo) :
    Prop :=
  S.Hands outers o ∧ (o.kind = .localInParent → S.Captures K o.name)

theorem getElem?_of_isPrefix {α : Type} {as bs : List α} {i : Nat} {a : α} (h : as <+: bs)
    (ha : as[i]? = some a) : bs[i]? = some a := by
  obtain ⟨hlt, heq⟩ := List.getElem?_eq_some_iff.1 ha
  rw [List.prefix_iff_getElem?.1 h i hlt, heq]

theorem Scope.Captures.mono {K K' : List (Nat × String)} {x : String} (h : S.Captures K x)
    (hK : ∀ p ∈ K, p ∈ K') : S.Captures K' x := by
  obtain ⟨id, hid, hmem⟩ := h
  exact ⟨id, hid, hK _ hmem⟩

theorem Scope.Hands.mono {outers outers' : List OuterInfo} (h : S.Hands outers o)
    (ho : outers <+: outers') : S.Hands outers' o := by
  obtain ⟨name, position, kind⟩ := o
  cases kind with
  | localInParent => exact h
  | outerInParent =>
    obtain ⟨o, hget, hname⟩ := Option.map_eq_some_iff.1 h.2
    refine ⟨h.1, ?_⟩
    rw [getElem?_of_isPrefix ho hget, Option.map_some, hname]

theorem Scope.Lends.mono {K K' : List (Nat × String)} {outers outers' : List OuterInfo}
    (h : S.Lends K outers o) (hK : ∀ p ∈ K, p ∈ K') (ho : outers <+: outers') :
    S.Lends K' outers' o :=
  ⟨h.1.mono ho, fun hkind => (h.2 hkind).mono hK⟩

/-- A builder and those around it have in scope what the scopes say, and each one lends to the next
one what that captures. -/
def Tied (K : List (Nat × String)) : Scope → List Scope → Builder → List Builder → Prop
  | S, [], b, [] => b.Mirrors K S ∧ b.outers = []
  | S, S' :: Ss, b, p :: ps => b.Mirrors K S ∧ (b.outers.map OuterInfo.name).Nodup ∧
      (∀ o ∈ b.outers, S'.Lends K p.outers o) ∧ Tied K S' Ss p ps
  | _, _, _, _ => False

namespace Tied

variable {K K' : List (Nat × String)} {S : Scope} {Ss : List Scope} {b b' : Builder}
  {ps : List Builder} {x : String} {slot id : Nat}

theorem mirrors (h : Tied K S Ss b ps) : b.Mirrors K S := by
  unfold Tied at h
  split at h
  · exact h.1
  · exact h.1
  · exact h.elim

theorem outers (h : Tied K S Ss b ps) : (b.outers.map OuterInfo.name).Nodup := by
  unfold Tied at h
  split at h
  · rw [h.2]
    exact .nil
  · exact h.2.1
  · exact h.elim

theorem length (h : Tied K S Ss b ps) : ps.length = Ss.length := by
  induction Ss generalizing S b ps with
  | nil =>
    cases ps with
    | nil => rfl
    | cons p ps => exact h.elim
  | cons S' Ss ih =>
    cases ps with
    | nil => exact h.elim
    | cons p ps => rw [List.length_cons, List.length_cons, ih h.2.2.2]

theorem update {S' : Scope} (h : Tied K S Ss b ps) (hb : b'.Mirrors K S')
    (ho : b'.outers = b.outers) : Tied K S' Ss b' ps := by
  unfold Tied at h
  split at h
  · exact ⟨hb, ho.trans h.2⟩
  · exact ⟨hb, by rw [ho]; exact h.2.1, by rw [ho]; exact h.2.2.1, h.2.2.2⟩
  · exact h.elim

theorem congr (h : Tied K S Ss b ps) (hK : ∀ p, p ∈ K ↔ p ∈ K') : Tied K' S Ss b ps := by
  induction Ss generalizing S b ps with
  | nil =>
    cases ps with
    | nil => exact ⟨h.1.congr hK, h.2⟩
    | cons p ps => exact h.elim
  | cons S' Ss ih =>
    cases ps with
    | nil => exact h.elim
    | cons p ps =>
      obtain ⟨hm, hd, hl, hrest⟩ := h
      exact ⟨hm.congr hK, hd,
        fun o ho => (hl o ho).mono (fun q hq => (hK q).1 hq) (List.prefix_refl _), ih hrest⟩

theorem other (h : Tied K S Ss b ps) (hid : id ∉ Scope.ids (S :: Ss)) :
    Tied ((id, x) :: K) S Ss b ps := by
  have hout : ∀ c ∈ S, c.id ≠ id := by
    rintro c hc rfl
    exact hid (List.mem_map_of_mem (List.mem_flatten.2 ⟨S, List.mem_cons_self, hc⟩))
  induction Ss generalizing S b ps with
  | nil =>
    cases ps with
    | nil => exact ⟨h.1.other hout, h.2⟩
    | cons p ps => exact h.elim
  | cons S' Ss ih =>
    cases ps with
    | nil => exact h.elim
    | cons p ps =>
      obtain ⟨hm, hd, hl, hrest⟩ := h
      have hid' : id ∉ Scope.ids (S' :: Ss) := by
        intro hmem
        refine hid ?_
        rw [Scope.ids, List.flatten_cons, List.map_append]
        exact List.mem_append_right _ hmem
      refine ⟨hm.other hout, hd, fun o ho => (hl o ho).mono (fun q hq => List.mem_cons_of_mem _ hq)
        (List.prefix_refl _), ih hrest hid' ?_⟩
      rintro c hc rfl
      exact hid' (List.mem_map_of_mem (List.mem_flatten.2 ⟨S', List.mem_cons_self, hc⟩))

theorem mark (h : Tied K S Ss b ps) (hids : (Scope.ids (S :: Ss)).Nodup)
    (hslot : S.slot? x = some slot) (hhome : S.home? x = some id) :
    Tied ((id, x) :: K) S Ss (b.markCaptured slot) ps := by
  have hout : id ∉ Scope.ids Ss := by
    obtain ⟨c, hc, rfl, _⟩ := Scope.home?_eq_some hhome
    rw [Scope.ids, List.flatten_cons, List.map_append, List.nodup_append] at hids
    exact fun hmem => hids.2.2 _ (List.mem_map_of_mem hc) _ hmem rfl
  cases Ss with
  | nil =>
    cases ps with
    | nil => exact ⟨h.1.mark hslot hhome, h.2⟩
    | cons p ps => exact h.elim
  | cons S' Ss =>
    cases ps with
    | nil => exact h.elim
    | cons p ps =>
      obtain ⟨hm, hd, hl, hrest⟩ := h
      exact ⟨hm.mark hslot hhome, hd,
        fun o ho => (hl o ho).mono (fun q hq => List.mem_cons_of_mem _ hq)
        (List.prefix_refl _), hrest.other hout⟩

/-- What a function captures is a variable of a function around it, the innermost one that has the
name, and counted among the captured ones. -/
theorem home_of_outer (h : Tied K S Ss b ps) (ho : o ∈ b.outers) :
    ∃ id, Ss.findSome? (Scope.home? · o.name) = some id ∧ (id, o.name) ∈ K := by
  induction Ss generalizing S b ps o with
  | nil =>
    cases ps with
    | nil =>
      rw [h.2] at ho
      cases ho
    | cons p ps => exact h.elim
  | cons S' Ss ih =>
    cases ps with
    | nil => exact h.elim
    | cons p ps =>
      obtain ⟨_, _, hl, hrest⟩ := h
      obtain ⟨hhands, hcaptures⟩ := hl o ho
      obtain ⟨name, position, kind⟩ := o
      cases kind with
      | localInParent =>
        obtain ⟨id, hid, hmem⟩ := hcaptures rfl
        exact ⟨id, by rw [List.findSome?_cons, hid], hmem⟩
      | outerInParent =>
        obtain ⟨o', hget, hname⟩ := Option.map_eq_some_iff.1 hhands.2
        obtain ⟨id, hid, hmem⟩ := ih hrest (List.mem_of_getElem? hget)
        rw [hname] at hid hmem
        exact ⟨id, by rw [List.findSome?_cons, Scope.home?_eq_none_iff.2 hhands.1, hid], hmem⟩

theorem pushOuter {S' : Scope} {p p' : Builder} {kind : OuterKind}
    (h : Tied K S (S' :: Ss) b (p :: ps)) (hK : ∀ q ∈ K, q ∈ K') (hmirrors : b.Mirrors K' S)
    (hnew : b.outerPosition? x = none) (hlonger : p.outers <+: p'.outers)
    (hlends : S'.Lends K' p'.outers ⟨x, position, kind⟩) {qs : List Builder}
    (hrest : Tied K' S' Ss p' qs) :
    Tied K' S (S' :: Ss) (b.pushOuter x position kind).2 (p' :: qs) := by
  obtain ⟨_, hd, hl, _⟩ := h
  refine ⟨hmirrors.of_bindings rfl rfl, ?_, fun o ho => ?_, hrest⟩
  · rw [Builder.pushOuter, List.map_append, List.nodup_append]
    refine ⟨hd, by simp, ?_⟩
    rintro y hy z hz rfl
    obtain ⟨o, ho, rfl⟩ := List.mem_map.1 hy
    have hne := List.findIdx?_eq_none_iff.1 hnew o ho
    rw [List.map_singleton, List.mem_singleton] at hz
    simp [hz] at hne
  · rcases List.mem_append.1 ho with ho | ho
    · exact (hl o ho).mono hK hlonger
    · rw [List.mem_singleton.1 ho]
      exact hlends

theorem outerPosition? (h : Tied K S Ss b ps) (hpos : b.outerPosition? x = some position) :
    ∃ id, Ss.findSome? (Scope.home? · x) = some id ∧ Tied ((id, x) :: K) S Ss b ps ∧
      (b.outers[position]?).map OuterInfo.name = some x := by
  obtain ⟨hlt, hname, _⟩ := List.findIdx?_eq_some_iff_getElem.1 hpos
  have hname : (b.outers[position]).name = x := by simpa using hname
  obtain ⟨id, hid, hmem⟩ := h.home_of_outer (List.getElem_mem hlt)
  rw [hname] at hid hmem
  refine ⟨id, hid, h.congr fun q => ?_, ?_⟩
  · rw [List.mem_cons]
    exact ⟨.inr, fun hq => hq.elim (fun heq => heq ▸ hmem) fun hq => hq⟩
  · rw [List.getElem?_eq_getElem hlt, Option.map_some, hname]

/-- Capturing a variable of a function around all the way in. -/
theorem resolveOuter? {c : Builder} {qs : List Builder} (h : Tied K S Ss b ps)
    (hids : (Scope.ids (S :: Ss)).Nodup) (hr : b.resolveOuter? x ps = some (position, c, qs)) :
    ∃ id, Ss.findSome? (Scope.home? · x) = some id ∧ Tied ((id, x) :: K) S Ss c qs ∧
      (c.outers[position]?).map OuterInfo.name = some x ∧ b.outers <+: c.outers := by
  induction Ss generalizing S b ps c qs position with
  | nil =>
    cases ps with
    | nil =>
      unfold Builder.resolveOuter? at hr
      split at hr
      · rename_i hpos
        cases hr
        obtain ⟨id, hid, htied, hname⟩ := h.outerPosition? hpos
        exact ⟨id, hid, htied, hname, List.prefix_refl _⟩
      · cases hr
    | cons p ps => exact h.elim
  | cons S' Ss ih =>
    cases ps with
    | nil => exact h.elim
    | cons p ps =>
      have hparts := hids
      rw [Scope.ids, List.flatten_cons, List.map_append, List.nodup_append] at hparts
      obtain ⟨_, hids', hapart⟩ := hparts
      have hrest := h.2.2.2
      simp only [Builder.resolveOuter?] at hr
      split at hr
      · rename_i hpos
        cases hr
        obtain ⟨id, hid, htied, hname⟩ := h.outerPosition? hpos
        exact ⟨id, hid, htied, hname, List.prefix_refl _⟩
      · rename_i hnew
        -- blocks of the functions around are none of this function
        have hother : ∀ id, id ∈ Scope.ids (S' :: Ss) → b.Mirrors ((id, x) :: K) S := by
          intro id hid
          refine h.mirrors.other ?_
          rintro c hc rfl
          exact hapart _ (List.mem_map_of_mem hc) _ hid rfl
        have hsub : ∀ {id : Nat}, ∀ q ∈ K, q ∈ (id, x) :: K := fun q hq => List.mem_cons_of_mem _ hq
        split at hr
        · rename_i slot hslot
          cases hr
          rw [hrest.mirrors.localSlot?] at hslot
          cases hhome : S'.home? x with
          | none => exact absurd (Scope.mem_of_slot? hslot) (Scope.home?_eq_none_iff.1 hhome)
          | some id =>
            have hlonger : p.outers <+: (p.markCaptured slot).outers := List.prefix_refl _
            have hlends : S'.Lends ((id, x) :: K) (p.markCaptured slot).outers
              ⟨x, slot, .localInParent⟩ :=
              ⟨hslot, fun _ => ⟨id, hhome, List.mem_cons_self⟩⟩
            have hfind : (S' :: Ss).findSome? (Scope.home? · x) = some id := by
              rw [List.findSome?_cons, hhome]
            refine ⟨id, hfind, ?_, by simp [Builder.pushOuter], List.prefix_append _ _⟩
            exact h.pushOuter hsub (hother id (Scope.mem_ids_of_findSome? hfind)) hnew
              hlonger hlends (hrest.mark hids' hslot hhome)
        · rename_i hnone
          rw [hrest.mirrors.localSlot?] at hnone
          have hout := Scope.slot?_eq_none_iff.1 hnone
          split at hr
          · cases hr
          · rename_i outer p' ps' hrec
            cases hr
            obtain ⟨id, hid, htied, hname, hlonger⟩ := ih hrest hids' hrec
            have hlends : S'.Lends ((id, x) :: K) p'.outers ⟨x, outer, .outerInParent⟩ :=
              ⟨⟨hout, hname⟩, by simp⟩
            have hfind : (S' :: Ss).findSome? (Scope.home? · x) = some id := by
              rw [List.findSome?_cons, Scope.home?_eq_none_iff.2 hout, hid]
            refine ⟨id, hfind, ?_, by simp [Builder.pushOuter], List.prefix_append _ _⟩
            exact h.pushOuter hsub (hother id (Scope.mem_ids_of_findSome? hfind)) hnew
              hlonger hlends htied

theorem of_resolveOuter?_eq_none (h : Tied K S Ss b ps) (hr : b.resolveOuter? x ps = none) :
    ∀ S' ∈ Ss, x ∉ S'.names := by
  induction Ss generalizing S b ps with
  | nil => exact fun _ hS => (List.not_mem_nil hS).elim
  | cons S' Ss ih =>
    cases ps with
    | nil => exact h.elim
    | cons p ps =>
      have hrest := h.2.2.2
      simp only [Builder.resolveOuter?] at hr
      split at hr
      · cases hr
      · split at hr
        · cases hr
        · rename_i hnone
          rw [hrest.mirrors.localSlot?] at hnone
          split at hr
          · rename_i hrec
            exact List.forall_mem_cons.2 ⟨Scope.slot?_eq_none_iff.1 hnone, ih hrest hrec⟩
          · cases hr

end Tied

end Refscript
