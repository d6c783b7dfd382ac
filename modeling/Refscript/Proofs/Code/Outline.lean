import Mathlib.Data.List.Basic
import Refscript.Code.Lower
import Refscript.Proofs.Syntax.Parts

/-!
# Refscript.Proofs.Code.Outline

The declarations of a program, read off the program alone: which local names it declares, in which
blocks of which functions, and in which order.

* `Outline.nodes`: the outline of a program.
* `Outline.Repeats`: a name is declared where an earlier declaration of it in the same function is
  still in scope.
* `Outline.scanAll`: going through an outline once, with the names in scope at hand, and noting
  declarations of names that are taken. Conditions of loops with an else branch are gone through
  twice.
* `mem_scanAll_iff`: which declarations are noted, without the names in scope.
-/

namespace Refscript

/-- What a part of a program declares. -/
inductive Outline where
  | declare (pos : Position) (name : String)
  | block (items : List Outline)
  | function (items : List Outline)
  /-- The condition of a loop with an else branch. It is no block of its own. -/
  | condition (items : List Outline)

namespace Outline

def items : Outline → List Outline
  | .declare _ _ => []
  | .block es | .function es | .condition es => es

/-- A function or a type with a name. At the top level it is a global. -/
def definition (root : Bool) (pos : Position) (x : String) : List Outline :=
  if root then [] else [.declare pos x]

mutual

/-- `root` says that the node is at the top level: in no block and in no function. Parts that
another mistake in the program leaves out are left out here too. -/
def node (root : Bool) : Node → List Outline
  | ⟨pos, _, e⟩ => expr root pos e

def expr (root : Bool) (pos : Position) : Expr Node → List Outline
  | .null | .bool _ | .int _ | .float _ | .str _ | .identifier _ | .this => []
  | .prefixOp _ x | .not x | .field x _ | .deref x => node root x
  | .infixOp _ l r | .index l r | .and l r | .or l r => node root l ++ node root r
  | .scope es => [.block (nodes false es)]
  | .varDef bs => bindings root pos bs
  | .fnDef name f => definition root pos name ++ [ofFunction pos f]
  | .fn f => [ofFunction pos f]
  | .typeDef ⟨name, ctor, methods, prefixOps, infixOps, invoke⟩ =>
    definition root pos name ++ (optionalFunction pos ctor ++ (optionalFunction pos invoke ++
      (members pos methods ++ (members pos prefixOps ++ members pos infixOps))))
  | .assign target value | .compoundAssign _ target value =>
    match target with
    | ⟨_, _, .index t k⟩ => node root t ++ (node root k ++ node root value)
    | ⟨_, _, .field t _⟩ => node root t ++ node root value
    | ⟨_, _, .deref x⟩ => node root x ++ node root value
    | _ => node root value
  | .invoke target args => node root target ++ nodes root args
  | .ifElse test pass fail => node root test ++ (node root pass ++ elseBranch root fail)
  | .whileElse test body none => node root test ++ node root body
  | .whileElse test body (some other) =>
    .condition (node root test) :: (node root body ++ node root other)
  | .matchCases scrutinee cases => node root scrutinee ++ arms root [] cases
  | .ref x =>
    match x with
    | ⟨_, _, .index t k⟩ => node root t ++ node root k
    | ⟨_, _, .field t _⟩ => node root t
    | _ => []
  | .list es | .tuple es => nodes root es
  | .ret value => elseBranch root value

def nodes (root : Bool) : List Node → List Outline
  | [] => []
  | n :: ns => node root n ++ nodes root ns

def elseBranch (root : Bool) : Option Node → List Outline
  | none => []
  | some n => node root n

def bindings (root : Bool) (pos : Position) : List (Binding Node) → List Outline
  | [] => []
  | ⟨name, value⟩ :: bs => .declare pos name :: (node root value ++ bindings root pos bs)

/-- Cases whose key is taken, or that have none, are left out. -/
def arms (root : Bool) (keys : List MatchKey) : List (Arm Node) → List Outline
  | [] => []
  | ⟨_, pattern, body⟩ :: as =>
    match Lower.matchKey? pattern with
    | none => arms root keys as
    | some key =>
      if key ∈ keys then arms root keys as else node root body ++ arms root (key :: keys) as

def ofFunction (pos : Position) : Function Node → Outline
  | ⟨params, _, body⟩ => .function (params.map (declare pos) ++ node false body)

def optionalFunction (pos : Position) : Option (Function Node) → List Outline
  | none => []
  | some f => [ofFunction pos f]

def members (pos : Position) : List (Member Node) → List Outline
  | [] => []
  | ⟨_, f⟩ :: ms => ofFunction pos f :: members pos ms

end

mutual

/-- The names that are declared in the block itself. -/
def own : Outline → List String
  | .declare _ x => [x]
  | .condition es => ownAll es
  | .block _ | .function _ => []

def ownAll : List Outline → List String
  | [] => []
  | o :: es => o.own ++ ownAll es

end

mutual

/-- The declarations in the function itself, in whatever blocks of it. -/
def declared : Outline → List (Position × String)
  | .declare pos x => [(pos, x)]
  | .block es | .condition es => declaredAll es
  | .function _ => []

def declaredAll : List Outline → List (Position × String)
  | [] => []
  | o :: es => o.declared ++ declaredAll es

end

/-- What is in the program itself or in one block, function or condition of it, at any depth. -/
inductive Level : List Outline → List Outline → Prop where
  | top (es : List Outline) : Level es es
  | inside {es us : List Outline} {o : Outline} : o ∈ es → Level o.items us → Level es us

/-- The declaration comes after another one of its name in the same function that is still in scope:
in the same block or in a block around it. -/
def Repeats (es : List Outline) (d : Position × String) : Prop :=
  ∃ before o after, Level es (before ++ o :: after) ∧ d.2 ∈ ownAll before ∧ d ∈ o.declared

/-- The declaration is in the condition of a loop with an else branch, and the condition declares
the name in the block that the loop is in. -/
def Revisited (es : List Outline) (d : Position × String) : Prop :=
  ∃ vs us, Level es vs ∧ .condition us ∈ vs ∧ d.2 ∈ ownAll us ∧ d ∈ declaredAll us

section

variable {es us : List Outline} {o : Outline} {d : Position × String}

theorem mem_declaredAll : d ∈ declaredAll es ↔ ∃ o ∈ es, d ∈ o.declared := by
  induction es with
  | nil => simp [declaredAll]
  | cons o es ih => simp [declaredAll, ih]

theorem Level.of_cons (h : Level (o :: es) us) : us = o :: es ∨ Level o.items us ∨ Level es us := by
  cases h with
  | top => exact .inl rfl
  | inside ho hlevel =>
    rcases List.mem_cons.1 ho with rfl | ho
    · exact .inr (.inl hlevel)
    · exact .inr (.inr (.inside ho hlevel))

theorem Level.cons (h : Level es us) (o : Outline) : us = es ∨ Level (o :: es) us := by
  cases h with
  | top => exact .inl rfl
  | inside ho hlevel => exact .inr (.inside (List.mem_cons_of_mem _ ho) hlevel)

theorem repeats_nil : ¬Repeats [] d := by
  rintro ⟨before, o, after, hlevel, -, -⟩
  generalize hus : before ++ o :: after = us at hlevel
  cases hlevel with
  | top => simp at hus
  | inside ho => cases ho

theorem repeats_cons :
    Repeats (o :: es) d ↔ (d.2 ∈ o.own ∧ d ∈ declaredAll es) ∨ Repeats o.items d ∨
      Repeats es d := by
  constructor
  · rintro ⟨before, o', after, hlevel, hname, hd⟩
    rcases hlevel.of_cons with htop | hlevel | hlevel
    · cases before with
      | nil => cases hname
      | cons b before =>
        obtain ⟨rfl, rfl⟩ := List.cons.inj htop
        rcases List.mem_append.1 hname with hname | hname
        · exact .inl ⟨hname, mem_declaredAll.2 ⟨o', by simp, hd⟩⟩
        · exact .inr (.inr ⟨before, o', after, .top _, hname, hd⟩)
    · exact .inr (.inl ⟨before, o', after, hlevel, hname, hd⟩)
    · exact .inr (.inr ⟨before, o', after, hlevel, hname, hd⟩)
  · rintro (⟨hname, hd⟩ | ⟨before, o', after, hlevel, hname, hd⟩ | ⟨before, o', after,
      hlevel, hname, hd⟩)
    · obtain ⟨o', ho', hdeclared⟩ := mem_declaredAll.1 hd
      obtain ⟨before, after, rfl⟩ := List.append_of_mem ho'
      exact ⟨o :: before, o', after, .top _, List.mem_append_left _ hname, hdeclared⟩
    · exact ⟨before, o', after, .inside List.mem_cons_self hlevel, hname, hd⟩
    · rcases hlevel.cons o with htop | hlevel
      · refine ⟨o :: before, o', after, ?_, List.mem_append_right _ hname, hd⟩
        rw [List.cons_append, htop]
        exact .top _
      · exact ⟨before, o', after, hlevel, hname, hd⟩

theorem repeats_singleton : Repeats [o] d ↔ Repeats o.items d := by
  simp [repeats_cons, repeats_nil, declaredAll]

theorem revisited_nil : ¬Revisited [] d := by
  rintro ⟨vs, us, hlevel, hmem, -⟩
  cases hlevel with
  | top => cases hmem
  | inside ho => cases ho

theorem revisited_cons : Revisited (o :: es) d ↔
    (∃ us, o = .condition us ∧ d.2 ∈ ownAll us ∧ d ∈ declaredAll us) ∨ Revisited o.items d ∨
      Revisited es d := by
  constructor
  · rintro ⟨vs, us, hlevel, hmem, hd⟩
    rcases hlevel.of_cons with rfl | hlevel | hlevel
    · rcases List.mem_cons.1 hmem with heq | hmem
      · exact .inl ⟨us, heq.symm, hd⟩
      · exact .inr (.inr ⟨es, us, .top es, hmem, hd⟩)
    · exact .inr (.inl ⟨vs, us, hlevel, hmem, hd⟩)
    · exact .inr (.inr ⟨vs, us, hlevel, hmem, hd⟩)
  · rintro (⟨us, rfl, hd⟩ | ⟨vs, us, hlevel, hmem, hd⟩ | ⟨vs, us, hlevel, hmem, hd⟩)
    · exact ⟨_, us, .top _, List.mem_cons_self, hd⟩
    · exact ⟨vs, us, .inside List.mem_cons_self hlevel, hmem, hd⟩
    · rcases hlevel.cons o with rfl | hlevel
      · exact ⟨_, us, .top _, List.mem_cons_of_mem _ hmem, hd⟩
      · exact ⟨vs, us, hlevel, hmem, hd⟩

theorem revisited_singleton : Revisited [o] d ↔
    (∃ us, o = .condition us ∧ d.2 ∈ ownAll us ∧ d ∈ declaredAll us) ∨ Revisited o.items d := by
  simp [revisited_cons, revisited_nil]

end

mutual

/-- Whether the declaration repeats one inside of the part. -/
def repeatsIn (d : Position × String) : Outline → Bool
  | .declare _ _ => false
  | .block es | .function es | .condition es => repeatsAll d es

def repeatsAll (d : Position × String) : List Outline → Bool
  | [] => false
  | o :: es => decide (d.2 ∈ o.own ∧ d ∈ declaredAll es) || (repeatsIn d o || repeatsAll d es)

end

mutual

theorem repeatsIn_iff {d : Position × String} :
    (o : Outline) → (repeatsIn d o = true ↔ Repeats o.items d)
  | .declare _ _ => by
    simp [repeatsIn, items, repeats_nil]
  | .block es | .function es | .condition es => by
    rw [repeatsIn, items, repeatsAll_iff es]

theorem repeatsAll_iff {d : Position × String} :
    (es : List Outline) → (repeatsAll d es = true ↔ Repeats es d)
  | [] => by
    simp [repeatsAll, repeats_nil]
  | o :: es => by
    rw [repeatsAll, Bool.or_eq_true, Bool.or_eq_true, decide_eq_true_eq, repeatsIn_iff o,
      repeatsAll_iff es, repeats_cons]

end

instance (es : List Outline) (d : Position × String) : Decidable (Repeats es d) :=
  decidable_of_iff _ (repeatsAll_iff es)

mutual

/-- The names in scope after the part, and the declarations in it whose names are taken, if `names`
are in scope before it. A block leaves the names as they were, and a function has names of its
own. -/
def scan (names : List String) : Outline → List String × List (Position × String)
  | .declare pos x => if x ∈ names then (names, [(pos, x)]) else (names ++ [x], [])
  | .block es => (names, (scanAll names es).2)
  | .function es => (names, (scanAll [] es).2)
  | .condition es =>
    ((scanAll (scanAll names es).1 es).1,
      (scanAll names es).2 ++ (scanAll (scanAll names es).1 es).2)

def scanAll (names : List String) : List Outline → List String × List (Position × String)
  | [] => (names, [])
  | o :: es =>
    ((scanAll (o.scan names).1 es).1, (o.scan names).2 ++ (scanAll (o.scan names).1 es).2)

end

section

variable {es fs : List Outline} {o : Outline} {d : Position × String} {names : List String}
  {x : String}

theorem scanAll_append (names : List String) (es fs : List Outline) :
    scanAll names (es ++ fs) =
      ((scanAll (scanAll names es).1 fs).1,
        (scanAll names es).2 ++ (scanAll (scanAll names es).1 fs).2) := by
  induction es generalizing names with
  | nil => simp [scanAll]
  | cons o es ih => simp [scanAll, ih]

theorem scanAll_singleton (names : List String) (o : Outline) :
    scanAll names [o] = o.scan names := by
  simp [scanAll]

theorem scanAll_condition (names : List String) (es fs : List Outline) :
    scanAll names (.condition es :: fs) = scanAll names (es ++ (es ++ fs)) := by
  rw [scanAll, scan, scanAll_append, scanAll_append, List.append_assoc]

mutual

theorem prefix_scan (names : List String) : (o : Outline) → names <+: (o.scan names).1
  | .declare pos x => by
    rw [scan]
    split
    · exact List.prefix_refl _
    · exact List.prefix_append _ _
  | .block es | .function es => by
    simp [scan]
  | .condition es => by
    rw [scan]
    exact (prefix_scanAll names es).trans (prefix_scanAll _ es)

theorem prefix_scanAll (names : List String) : (es : List Outline) → names <+: (scanAll names es).1
  | [] => by
    simp [scanAll]
  | o :: es => by
    rw [scanAll]
    exact (prefix_scan names o).trans (prefix_scanAll _ es)

end

mutual

theorem mem_names_scan (names : List String) :
    (o : Outline) → (x ∈ (o.scan names).1 ↔ x ∈ names ∨ x ∈ o.own)
  | .declare pos y => by
    rw [scan, own]
    split
    · rename_i hy
      simp only [List.mem_singleton]
      exact ⟨.inl, fun h => h.elim id fun hxy => hxy ▸ hy⟩
    · exact List.mem_append
  | .block es | .function es => by
    simp [scan, own]
  | .condition es => by
    rw [scan, own, mem_names_scanAll _ es, mem_names_scanAll _ es]
    tauto

theorem mem_names_scanAll (names : List String) :
    (es : List Outline) → (x ∈ (scanAll names es).1 ↔ x ∈ names ∨ x ∈ ownAll es)
  | [] => by
    simp [scanAll, ownAll]
  | o :: es => by
    rw [scanAll, ownAll, mem_names_scanAll _ es, mem_names_scan names o, List.mem_append, or_assoc]

end

mutual

theorem mem_scan_iff (names : List String) : (o : Outline) →
    (d ∈ (o.scan names).2 ↔ (d.2 ∈ names ∧ d ∈ o.declared) ∨ Repeats [o] d ∨ Revisited [o] d)
  | .declare pos y => by
    have hrepeats : ¬Repeats [.declare pos y] d := by simp [repeats_singleton, items, repeats_nil]
    have hrevisited : ¬Revisited [.declare pos y] d := by
      simp [revisited_singleton, items, revisited_nil]
    rw [scan, declared, List.mem_singleton]
    split
    · rename_i hy
      simp only [List.mem_singleton, hrepeats, hrevisited, or_false]
      exact ⟨fun h => ⟨h ▸ hy, h⟩, And.right⟩
    · rename_i hy
      simp only [List.not_mem_nil, hrepeats, hrevisited, or_false, false_iff]
      rintro ⟨hmem, rfl⟩
      exact hy hmem
  | .block es => by
    simp [scan, declared, repeats_singleton, revisited_singleton, items, mem_scanAll_iff names es]
  | .function es => by
    simp [scan, declared, repeats_singleton, revisited_singleton, items, mem_scanAll_iff [] es]
  | .condition es => by
    simp only [scan, declared, List.mem_append, repeats_singleton, revisited_singleton, items,
      mem_scanAll_iff _ es, mem_names_scanAll, Outline.condition.injEq, exists_eq_left']
    grind

/-- A declaration is noted if its name is in scope from the start, if it repeats a declaration, or
if it is in a condition that is gone through twice. -/
theorem mem_scanAll_iff (names : List String) : (es : List Outline) →
    (d ∈ (scanAll names es).2 ↔ (d.2 ∈ names ∧ d ∈ declaredAll es) ∨ Repeats es d ∨ Revisited es d)
  | [] => by
    simp [scanAll, declaredAll, repeats_nil, revisited_nil]
  | o :: es => by
    have hrepeats : Repeats (o :: es) d ↔ (d.2 ∈ o.own ∧ d ∈ declaredAll es) ∨ Repeats [o] d ∨
        Repeats es d := by
      rw [repeats_cons, repeats_singleton]
    have hrevisited : Revisited (o :: es) d ↔ Revisited [o] d ∨ Revisited es d := by
      rw [revisited_cons, revisited_singleton, or_assoc]
    rw [scanAll, List.mem_append, mem_scan_iff names o, mem_scanAll_iff _ es, mem_names_scan,
      hrepeats, hrevisited, declaredAll, List.mem_append]
    grind

end

end

end Outline
end Refscript
