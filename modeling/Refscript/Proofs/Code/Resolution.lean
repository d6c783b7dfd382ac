import Refscript.Proofs.Code.Compiled

/-!
# Refscript.Proofs.Code.Resolution

Where the instructions of a compiled program find the variables that names stand for. A function is
reached from the program through the functions around it (`Within`); a captured variable leads
through the captured variables of these functions to a slot of one of them (`OuterInfo.follow`), and
lexical scoping asks for the slot of the name in the innermost one that has it in scope
(`Scope.lookup`).

* `Within.follow`: the two are the same.
* `Within.access`: every instruction that accesses the variable of a name addresses the right one.
-/

namespace Refscript

/-- The function `Q` with the chart `D` is `P` with the chart `C` or a function inside it. `way`
lists the functions around it, innermost first, each with the blocks that are open where the next
one is created. -/
inductive Within (C : Chart) (P : Prototype) :
    List (Scope × Prototype) → Chart → Prototype → Prop where
  | self : Within C P [] C P
  | inner {way : List (Scope × Prototype)} {D D' : Chart} {Q Q' : Prototype} {i : Nat} {S : Scope} :
      Within C P way D Q → D.inner[i]? = some (S, D') → Q.nested[i]? = some Q' →
        Within C P ((S, Q) :: way) D' Q'

/-- The innermost of the functions that has the name in scope, by its place, and the slot of the
name there. -/
def Scope.lookup : List Scope → String → Option (Nat × Nat)
  | [], _ => none
  | S :: Ss, x =>
    match S.slot? x with
    | some slot => some (0, slot)
    | none => (lookup Ss x).map fun (n, slot) => (n + 1, slot)

/-- Follows a captured variable through the functions around, innermost first, to the slot of one of
them. On the way the captured variables must have the same name. -/
def OuterInfo.follow : List Prototype → OuterInfo → Option (Nat × Nat)
  | [], _ => none
  | P :: Ps, o =>
    match o.kind with
    | .localInParent => some (0, o.position)
    | .outerInParent =>
      match P.outers[o.position]? with
      | some o' =>
        if o'.name = o.name then (follow Ps o').map fun (n, slot) => (n + 1, slot) else none
      | none => none

/-- The place is the one of the name where the blocks `S` are open: its slot in the function itself,
or else a captured variable that leads to its slot in the innermost function around that has it, or
else the global of the name. -/
def Scope.Addresses (S : Scope) (way : List (Scope × Prototype)) (Q : Prototype) (x : String)
    (name : Nat) : Lower.Place → Prop
  | .loc slot => S.slot? x = some slot
  | .outer position => S.slot? x = none ∧ ∃ o target, Q.outers[position]? = some o ∧ o.name = x ∧
      o.follow (way.map Prod.snd) = some target ∧ Scope.lookup (way.map Prod.fst) x = some target
  | .global =>
    S.slot? x = none ∧ Scope.lookup (way.map Prod.fst) x = none ∧ Q.constants[name]? = some (.str x)

theorem Scope.lookup_eq_none_iff {Ss : List Scope} {x : String} :
    Scope.lookup Ss x = none ↔ ∀ S ∈ Ss, x ∉ S.names := by
  induction Ss with
  | nil => simp [lookup]
  | cons S Ss ih =>
    rw [lookup, List.forall_mem_cons, ← ih, ← Scope.slot?_eq_none_iff]
    cases S.slot? x <;> simp

namespace Within

variable {C D : Chart} {P Q : Prototype} {way : List (Scope × Prototype)}

theorem described (h : Within C P way D Q) (hC : Described [] C P) :
    Described (way.map fun p => Scope.names p.1) D Q := by
  induction h with
  | self => exact hC
  | inner _ hD hQ ih =>
    obtain ⟨_, hinner⟩ := ih
    exact hinner _ _ _ _ hD hQ

theorem matched (h : Within C P way D Q) (hC : Described [] C P) :
    D.Matches (way.map fun p => Scope.names p.1) Q := by
  obtain ⟨hmatches, _⟩ := h.described hC
  exact hmatches

theorem trans {way' : List (Scope × Prototype)} {E : Chart} {R : Prototype} (h : Within C P way D Q)
    (h' : Within D Q way' E R) : Within C P (way' ++ way) E R := by
  induction h' with
  | self => exact h
  | inner _ hD hQ ih => exact ih.inner hD hQ

theorem of_inside {around : List (List String)} (hC : Described around C P) (hq : Q.Inside P) :
    ∃ way D, Within C P way D Q := by
  induction hq generalizing around C with
  | self => exact ⟨[], C, .self⟩
  | @nested P r hr _ ih =>
    obtain ⟨hmatched, hinner⟩ := hC
    obtain ⟨i, hi⟩ := List.mem_iff_getElem?.1 hr
    obtain ⟨hlt, _⟩ := List.getElem?_eq_some_iff.1 hi
    obtain ⟨⟨S, D'⟩, hD⟩ : ∃ e, C.inner[i]? = some e :=
      ⟨_, List.getElem?_eq_getElem (hmatched.length ▸ hlt)⟩
    obtain ⟨way, D, hwithin⟩ := ih (hinner i S D' r hD hi)
    exact ⟨_, D, (Within.self.inner hD hi).trans hwithin⟩

/-- A captured variable leads to the slot of its name in the innermost function around that has it
in scope. -/
theorem follow (h : Within C P way D Q) (hC : Described [] C P) (houters : P.outers = [])
    {o : OuterInfo} (ho : o ∈ Q.outers) :
    ∃ target, o.follow (way.map Prod.snd) = some target ∧ Scope.lookup (way.map Prod.fst) o.name =
      some target := by
  induction h generalizing o with
  | self =>
    rw [houters] at ho
    cases ho
  | @inner way D D' Q Q' i S h hD hQ ih =>
    have hhands := (h.matched hC).hands i S D' Q' hD hQ o ho
    obtain ⟨name, position, kind⟩ := o
    simp only [List.map_cons, OuterInfo.follow, Scope.lookup]
    cases kind with
    | localInParent =>
      have hslot : S.slot? name = some position := hhands
      exact ⟨(0, position), rfl, by rw [hslot]⟩
    | outerInParent =>
      obtain ⟨hout, hname⟩ := hhands
      obtain ⟨o', hget, rfl⟩ := Option.map_eq_some_iff.1 hname
      obtain ⟨⟨n, slot⟩, hfollow, hlookup⟩ := ih (List.mem_of_getElem? hget)
      rw [Scope.slot?_eq_none_iff.2 hout]
      refine ⟨(n + 1, slot), ?_, ?_⟩
      · simp only [hget, if_true, hfollow, Option.map_some]
      · simp only [hlookup, Option.map_some]

/-- Reading, assigning and referring address the variable of the name. -/
theorem access (h : Within C P way D Q) (hC : Described [] C P) (houters : P.outers = []) {k : Nat}
    {S : Scope} {a : Access} {x : String} (he : D.entries[k]? = some ⟨S, .access a x⟩) :
    ∃ place name, Q.Carries k (a.insn place name) ∧ S.Addresses way Q x name place := by
  obtain ⟨place, name, hfinds, hname, hcarries⟩ := (h.matched hC).fits k _ he
  refine ⟨place, name, hcarries, ?_⟩
  cases place with
  | loc slot => exact hfinds
  | outer position =>
    obtain ⟨hout, _, hmap⟩ := hfinds
    obtain ⟨o, hget, rfl⟩ := Option.map_eq_some_iff.1 hmap
    obtain ⟨target, hfollow, hlookup⟩ := h.follow hC houters (List.mem_of_getElem? hget)
    exact ⟨Scope.slot?_eq_none_iff.2 hout, o, target, hget, rfl, hfollow, hlookup⟩
  | global =>
    obtain ⟨hout, haround⟩ := hfinds
    refine ⟨Scope.slot?_eq_none_iff.2 hout, Scope.lookup_eq_none_iff.2 fun S' hS' => ?_, hname rfl⟩
    obtain ⟨p, hp, rfl⟩ := List.mem_map.1 hS'
    exact haround _ (List.mem_map_of_mem hp)

end Within
end Refscript
