import Refscript.Proofs.Machine.Cells

/-!
# Refscript.Proofs.Machine.Captures

Which cells calls in progress keep, and which ones the instructions that capture take.

* `Accounted`: every open cell belongs to one call in progress, and no two cells of a call stand for
  one slot. All runs keep this.
* `Exec.closure_makes`, `Exec.makeType_makes`: creating functions, with the cells for the variables
  that they capture.
* `Exec.ref_refers`: taking references.
-/

namespace Refscript

open Refscript.Action

namespace Frame

variable {base n : Nat} {f g : Frame} {s t : Store}

theorem Neat.still (h : f.Neat base s) (ht : s.Still t) : f.Neat base t := by
  refine h.congr rfl rfl (Nat.le_of_eq ht.cells.symm) fun c hc => ?_
  obtain ⟨_, _, i, hi⟩ := h.opened c hc
  rw [hi, ht.opened_iff, hi]

theorem Neat.zero (h : f.Neat base s) : f.Neat 0 s :=
  ⟨fun c hc => ⟨Nat.zero_le c, (h.opened c hc).2⟩, h.unique⟩

theorem Neat.closeFrom (h : f.Neat base s) : (f.closeFrom n s).1.Neat base (f.closeFrom n s).2 := by
  have hcell : ∀ c ∈ (f.closeFrom n s).1.openCells, c ∈ f.openCells ∧ (f.closeFrom n s).2.cell c =
      s.cell c := by
    intro c hc
    obtain ⟨hmem, hstands⟩ := mem_closeFrom.1 hc
    rw [cell_closeFrom n (h.opened c hmem).2.1, if_neg (by simp [hstands])]
    exact ⟨hmem, rfl⟩
  refine ⟨fun c hc => ?_, fun c hc d hd hcd => ?_⟩
  · obtain ⟨hmem, heq⟩ := hcell c hc
    rw [heq, size_closeFrom]
    exact h.opened c hmem
  · obtain ⟨hc, hec⟩ := hcell c hc
    obtain ⟨hd, hed⟩ := hcell d hd
    exact h.unique c hc d hd (hec.symm.trans (hcd.trans hed))

theorem Neat.apart (hf : f.Neat base s) (hg : g.Neat base s) (hne : g.activation ≠ f.activation)
    {c : CellId} (hc : c ∈ g.openCells) : c ∉ f.openCells := by
  intro hc'
  obtain ⟨_, _, i, hi⟩ := hf.opened c hc'
  obtain ⟨_, _, j, hj⟩ := hg.opened c hc
  exact hne (Cell.opened.inj (hj.symm.trans hi)).1

theorem Neat.other (hf : f.Neat base s) (hg : g.Neat base s) (hne : g.activation ≠ f.activation) :
    g.Neat base (f.closeFrom n s).2 := by
  refine hg.congr rfl rfl (Nat.le_of_eq (f.size_closeFrom n s).symm) fun c hc => ?_
  rw [cell_closeFrom n (hg.opened c hc).2.1, if_neg fun h => hf.apart hg hne hc h.1]

end Frame

structure Accounted (base : Nat) (s : Store) (fs : List Frame) : Prop extends Owned base s fs where
  start : base ≤ s.cells.size
  neat : ∀ f ∈ fs, f.Neat base s

namespace Accounted

variable {base : Nat} {s t : Store} {fs rest : List Frame} {f g : Frame}

theorem apart (h : Accounted base s (f :: rest)) : ∀ k ∈ rest, k.activation ≠ f.activation := by
  intro k hk heq
  refine (List.nodup_cons.1 h.distinct).1 ?_
  rw [← heq]
  exact List.mem_map_of_mem hk

theorem goesOn (h : Accounted base s (f :: rest)) (howned : Owned base t (g :: rest))
    (hsize : s.cells.size ≤ t.cells.size) (hg : g.Neat base t) (hrest : ∀ k ∈ rest, k.Neat base t) :
    Accounted base t (g :: rest) :=
  ⟨howned, Nat.le_trans h.start hsize, List.forall_mem_cons.2 ⟨hg, hrest⟩⟩

theorem still (h : Accounted base s fs) (ht : s.Still t) : Accounted base t fs :=
  ⟨h.toOwned.still ht, ht.cells ▸ h.start, fun f hf => (h.neat f hf).still ht⟩

theorem sameCells (h : Accounted base s (f :: rest)) (howned : Owned base s (g :: rest))
    (hcells : g.openCells = f.openCells) (hact : g.activation = f.activation) :
    Accounted base s (g :: rest) := by
  obtain ⟨hf, hrest⟩ := List.forall_mem_cons.1 h.neat
  exact h.goesOn howned (Nat.le_refl _) (hf.congr hcells hact (Nat.le_refl _) fun _ _ => rfl) hrest

theorem execute {w : Word} {op : Opcode} (h : Accounted base s (f :: rest))
    (hact : g.activation = f.activation) (ht : Exec.Ties f s w op g t) :
    Accounted base t (g :: rest) := by
  have howned := h.toOwned.execute hact ht
  obtain ⟨hf, hrest⟩ := List.forall_mem_cons.1 h.neat
  cases ht with
  | still hopen ht =>
    refine h.goesOn howned (Nat.le_of_eq ht.cells.symm) ?_ fun k hk => (hrest k hk).still ht
    exact (hf.still ht).congr hopen hact (Nat.le_refl _) fun _ _ => rfl
  | takes _ htakes _ =>
    refine h.goesOn howned htakes.size (htakes.neat base h.start hf) fun k hk => ?_
    exact (hrest k hk).congr rfl rfl htakes.size fun c hc =>
      htakes.old c ((hrest k hk).opened c hc).2.1
  | closes _ hopen ht =>
    subst ht
    refine h.goesOn howned (Nat.le_of_eq (f.size_closeFrom _ s).symm) ?_ fun k hk => ?_
    · exact hf.closeFrom.congr hopen hact (Nat.le_refl _) fun _ _ => rfl
    · exact hf.other (hrest k hk) (h.apart k hk)

theorem pop (h : Accounted base s (f :: rest)) : Accounted base (f.closeFrom 0 s).2 rest := by
  obtain ⟨hf, hrest⟩ := List.forall_mem_cons.1 h.neat
  refine ⟨h.toOwned.pop, f.size_closeFrom 0 s ▸ h.start, fun k hk => ?_⟩
  exact hf.other (hrest k hk) (h.apart k hk)

theorem kept (base : Nat) : Kept (Accounted base) where
  still h ht := h.still ht
  push v h := h.sameCells ((Owned.kept base).push v h.toOwned) rfl rfl
  start h ht ha hsize hlen := by
    refine ⟨(Owned.kept base).start h.toOwned ht ha hsize hlen, (h.still ht).start, ?_⟩
    refine List.forall_mem_cons.2 ⟨⟨fun c hc => ?_, fun c hc => ?_⟩, (h.still ht).neat⟩
    · cases hc
    · cases hc
  execute h hruns := h.execute hruns.moves.sameCall.activation hruns.ties
  pop h := h.pop

end Accounted

namespace Frame

variable {f g : Frame} {s t : Store} {places : List Nat} {added : List Closure}

theorem Makes.push (h : f.Makes places added g s t) (v : Value) :
    f.Makes places added (g.push v) s t :=
  ⟨h.closures, h.prototypes, h.sizes, h.gives, h.covers⟩

theorem Makes.fetched {n : Nat} (h : Makes { f with ip := n } places added g s t) :
    f.Makes places added g s t :=
  ⟨h.closures, h.prototypes, h.sizes,
    fun hf => h.gives (hf.congr rfl rfl (Nat.le_refl _) fun _ _ => rfl), h.covers⟩

end Frame

namespace Exec

variable {f g : Frame} {s t : Store} {w : Word} {eff : Effect}

theorem closure_makes (hrun : operation { f with ip := f.ip + 1 } w .closure s = .ok eff t) :
    ∃ added, f.Makes [w.c] added (after eff) s t := by
  have h : ∀ f : Frame,
    Ensures (operation f w .closure) s (fun eff t => ∃ added, f.Makes [w.c] added (after eff) s t)
      fun _ _ => True := by
    intro f
    simp only [operation, ensures_bind, pushed, ensures_pure]
    by_cases hfit : f.ClosureFits w.c
    · refine Ensures.imp (Frame.makeClosure_creates hfit s) ?_ fun _ _ h => h.elim
      rintro ⟨id, g⟩ t ⟨_, added, hmade⟩
      exact ⟨added, hmade.push _⟩
    · obtain ⟨n, hrun⟩ := Frame.makeClosure_refused hfit s
      exact .of_error hrun trivial
  obtain ⟨added, hmade⟩ := (h _).ok hrun
  exact ⟨added, hmade.fetched⟩

theorem makeType_makes (hrun : operation { f with ip := f.ip + 1 } w .makeType s = .ok eff t) :
    ∃ type added, f.prototype.types[w.c]? = some type ∧
      f.Makes type.members added (after eff) s t := by
  have h : ∀ f : Frame, Ensures (operation f w .makeType) s (fun eff t => ∃ type added,
      f.prototype.types[w.c]? = some type ∧ f.Makes type.members added (after eff) s t)
      fun _ _ => True := by
    intro f
    simp only [operation, ensures_bind, pushed, ensures_pure]
    by_cases hfit : f.TypeFits w.c
    · obtain ⟨type, htype, hcreates⟩ := Frame.makeType_creates hfit s
      refine Ensures.imp hcreates ?_ fun _ _ h => h.elim
      rintro ⟨id, g⟩ t ⟨_, added, hmade⟩
      exact ⟨type, added, htype, hmade.push _⟩
    · obtain ⟨n, hrun⟩ := Frame.makeType_refused hfit s
      exact .of_error hrun trivial
  obtain ⟨type, added, htype, hmade⟩ := (h _).ok hrun
  exact ⟨type, added, htype, hmade.fetched⟩

/-- What taking a reference does, by its kind. Only the reference to a local takes a cell for it. -/
inductive Refers (f : Frame) (s : Store) (w : Word) (g : Frame) (t : Store) : RefKind → Prop where
  | global {x : String} {id : Nat} : g.openCells = f.openCells → s.Still t →
      g.stack.head? = some (.ref id (.global x)) → Refers f s w g t .global
  | loc {c : CellId} {id : Nat} : f.Takes g s t → t.closures = s.closures → c ∈ g.openCells →
      t.cell c = .opened f.activation w.b → (∀ d, s.cells.size ≤ d → d < t.cells.size → d = c) →
      g.stack.head? = some (.ref id (.loc c)) → Refers f s w g t .loc
  | outer {c : CellId} {id : Nat} : g.openCells = f.openCells → s.Still t →
      f.closure.captures[w.b]? = some c →
      g.stack.head? = some (.ref id (.outer c)) → Refers f s w g t .outer
  | index : g.openCells = f.openCells → s.Still t → Refers f s w g t .index
  | field : g.openCells = f.openCells → s.Still t → Refers f s w g t .field

theorem ref_refers (hrun : operation { f with ip := f.ip + 1 } w .ref s = .ok eff t) :
    ∃ kind, RefKind.ofNumber? w.a = some kind ∧ Refers f s w (after eff) t kind := by
  have h : Ensures (operation { f with ip := f.ip + 1 } w .ref) s
      (fun eff t => ∃ kind, RefKind.ofNumber? w.a = some kind ∧ Refers f s w (after eff) t kind)
        fun _ _ => True := by
    have hstill : ∀ place, s.Still (s.newReference place).2 := fun place => .of_eq rfl rfl rfl
    simp only [operation, ensures_bind, ensures_adding, pushed, ensures_pure]
    unfold makeReference
    split
    · trivial
    · rename_i hkind
      simp only [ensures_bind, ensures_name, ensures_pure]
      exact ⟨fun n _ => ⟨_, hkind, .global rfl (hstill _) rfl⟩, fun _ => trivial⟩
    · rename_i hkind
      simp only [ensures_bind, ensures_pure]
      refine (Frame.capture_ensures _ w.b s).imp ?_ fun _ _ h => h.elim
      rintro ⟨c, g⟩ t hc
      refine ⟨_, hkind, .loc (hc.toTakes.congr ⟨rfl, rfl⟩ ⟨rfl, rfl⟩ ⟨rfl, rfl⟩) hc.closures
        hc.listed hc.stands hc.covers rfl⟩
    · rename_i hkind
      simp only [ensures_bind, ensures_outer, ensures_pure]
      exact ⟨fun c hc => ⟨_, hkind, .outer rfl (hstill _) hc rfl⟩, fun _ => trivial⟩
    · rename_i hkind
      simp only [ensures_bind, ensures_popPlain, ensures_pure]
      exact ⟨fun k rest _ =>
        ⟨fun _ _ => ⟨fun t rest' _ => ⟨fun _ _ => ⟨_, hkind, .index rfl (hstill _)⟩,
        fun _ _ => trivial⟩, fun _ => trivial⟩, fun _ _ => trivial⟩, fun _ => trivial⟩
    · rename_i hkind
      simp only [ensures_bind, ensures_popPlain, ensures_name, ensures_pure]
      exact ⟨fun t rest _ =>
        ⟨fun _ _ => ⟨fun n _ => ⟨_, hkind, .field rfl (hstill _)⟩, fun _ => trivial⟩,
        fun _ _ => trivial⟩, fun _ => trivial⟩
  exact h.ok hrun

end Exec
end Refscript
