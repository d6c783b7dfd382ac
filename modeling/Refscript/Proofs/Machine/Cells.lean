import Refscript.Proofs.Machine.Run

/-!
# Refscript.Proofs.Machine.Cells

The life of captured variables. A call takes one cell for each slot that is captured, and all
captures of the slot get that cell until it is closed; from then on the cell keeps its value on its
own.

* `Frame.Orderly`: the cells that a call keeps are open on its slots, one for a slot.
* `Frame.Lives f s es g t`: the events `es` (captures, ends of scopes, writes to slots and through
  cells) take the call `f` over `s` to `g` over `t`.
* `Owned`: every open cell belongs to the call in progress whose slot it stands for.
* `captured_variable_lifecycle`: what holds of cells during a call and after it.
-/

namespace Refscript

variable {c d : CellId} {n slot : Nat} {o : Outcome}

namespace Store

theorem locals_setLocal (s : Store) (a i : Nat) (v : Value) (b : ActivationId) :
    (s.setLocal a i v).locals b = if b = a then (s.locals b).setIfInBounds i v else s.locals b := by
  simp only [setLocal, locals, Array.getD_eq_getD_getElem?, Array.getElem?_modify]
  by_cases h : a = b
  · subst h
    cases s.activations[a]? <;> simp
  · rw [if_neg h, if_neg (Ne.symm h)]

theorem size_locals_setLocal (s : Store) (a i : Nat) (v : Value) (b : ActivationId) :
    ((s.setLocal a i v).locals b).size = (s.locals b).size := by
  rw [locals_setLocal]
  split
  · exact Array.size_setIfInBounds
  · rfl

theorem size_locals_setCell (s : Store) (c : CellId) (v : Value) (b : ActivationId) :
    ((s.setCell c v).locals b).size = (s.locals b).size := by
  unfold setCell
  split
  · exact size_locals_setLocal s _ _ v b
  · rfl

theorem cell_closeCell (s : Store) (c : CellId) (hd : d < s.cells.size) :
    (s.closeCell c).cell d = if d = c then .closed (s.cellValue c) else s.cell d := by
  by_cases hc : c < s.cells.size
  · exact s.cell_set c d (.closed (s.cellValue c)) hc
  · have hne : d ≠ c := fun h => hc (h ▸ hd)
    rw [if_neg hne, closeCell, Array.setIfInBounds_eq_of_size_le (Nat.le_of_not_lt hc)]

theorem cellValue_closeCell (s : Store) (c : CellId) (hd : d < s.cells.size) :
    (s.closeCell c).cellValue d = s.cellValue d := by
  rw [cellValue, cell_closeCell s c hd]
  by_cases h : d = c
  · rw [if_pos h, h]
  · rw [if_neg h]
    rfl

theorem cell_closeAll (cs : List CellId) (s : Store) (hd : d < s.cells.size) :
    (cs.foldl closeCell s).cell d = if d ∈ cs then .closed (s.cellValue d) else s.cell d := by
  induction cs generalizing s with
  | nil => simp
  | cons c cs ih =>
    rw [List.foldl_cons, ih (s.closeCell c) (by simpa [closeCell] using hd),
      cellValue_closeCell s c hd, cell_closeCell s c hd]
    by_cases h : d = c <;> simp [h]

theorem closeAll_activations (cs : List CellId) (s : Store) :
    (cs.foldl closeCell s).activations = s.activations := by
  induction cs generalizing s with
  | nil => rfl
  | cons c cs ih => exact ih (s.closeCell c)

theorem size_closeAll (cs : List CellId) (s : Store) :
    (cs.foldl closeCell s).cells.size = s.cells.size := by
  induction cs generalizing s with
  | nil => rfl
  | cons c cs ih =>
    rw [List.foldl_cons, ih]
    simp [closeCell]

theorem cell_setCell (s : Store) (c d : CellId) (v : Value) :
    (s.setCell c v).cell d = if d = c ∧ (s.cell c).link? = none then .closed v else s.cell d := by
  unfold setCell
  split
  · rename_i a i ho
    rw [ho, if_neg (by simp [Cell.link?])]
    rfl
  · rename_i w hclosed
    rw [cell_set s c d (.closed v) (lt_of_closed hclosed), hclosed]
    simp [Cell.link?]

theorem cell_setCell_of_opened {s : Store} {a i : Nat} (hd : s.cell d = .opened a i) (c : CellId)
    (v : Value) : (s.setCell c v).cell d = .opened a i := by
  rw [cell_setCell, if_neg ?_, hd]
  rintro ⟨rfl, hlink⟩
  rw [hd] at hlink
  cases hlink

end Store

namespace Frame

variable {f g : Frame} {s t : Store}

structure Orderly (f : Frame) (s : Store) : Prop where
  opened : ∀ c ∈ f.openCells, c < s.cells.size ∧
    ∃ i, i < (s.locals f.activation).size ∧ s.cell c = .opened f.activation i
  unique : ∀ c ∈ f.openCells, ∀ d ∈ f.openCells, s.cell c = s.cell d → c = d
  nodup : f.openCells.Nodup

theorem standsFrom_iff : standsFrom s slot c = true ↔ ∃ a i, s.cell c = .opened a i ∧ slot ≤ i := by
  unfold standsFrom
  cases s.cell c with
  | opened a i =>
    simp only [decide_eq_true_eq, Cell.opened.injEq]
    exact ⟨fun h => ⟨a, i, ⟨rfl, rfl⟩, h⟩, fun ⟨_, _, ⟨_, hi⟩, h⟩ => hi ▸ h⟩
  | closed v => simp

theorem mem_closeFrom :
    c ∈ (f.closeFrom slot s).1.openCells ↔ c ∈ f.openCells ∧ standsFrom s slot c = false := by
  simp [closeFrom, List.partition_eq_filter_filter]

theorem cell_closeFrom (slot : Nat) (hc : c < s.cells.size) :
    (f.closeFrom slot s).2.cell c =
      if c ∈ f.openCells ∧ standsFrom s slot c = true then .closed (s.cellValue c)
        else s.cell c := by
  simp only [closeFrom, List.partition_eq_filter_filter]
  rw [Store.cell_closeAll _ _ hc]
  simp only [List.mem_filter]

theorem closeFrom_activations (f : Frame) (slot : Nat) (s : Store) :
    (f.closeFrom slot s).2.activations = s.activations :=
  Store.closeAll_activations _ s

theorem closeFrom_locals (f : Frame) (slot : Nat) (s : Store) (a : ActivationId) :
    (f.closeFrom slot s).2.locals a = s.locals a := by
  rw [Store.locals, Store.locals, closeFrom_activations]

theorem size_closeFrom (f : Frame) (slot : Nat) (s : Store) :
    (f.closeFrom slot s).2.cells.size = s.cells.size :=
  Store.size_closeAll _ s

end Frame

/-- Something that happens to the slots of a call or to a cell. A capture says which cell it
gave. -/
inductive CellEvent where
  | captured (slot : Nat) (c : CellId)
  | closed (slot : Nat)
  | wrote (slot : Nat) (v : Value)
  | set (c : CellId) (v : Value)

/-- What was set last through a cell. -/
def CellEvent.lastSet (c : CellId) : List CellEvent → Option Value
  | [] => none
  | .set d v :: es => (lastSet c es).or (if d = c then some v else none)
  | _ :: es => lastSet c es

namespace Frame

/-- One event at a call. Only slots that exist are captured; any cell may be written. -/
inductive Undergoes (f : Frame) (s : Store) : CellEvent → Frame → Store → Prop where
  | capture {slot : Nat} {c : CellId} {g : Frame} {t : Store} :
      slot < (s.locals f.activation).size →
      f.capture slot s = .ok (c, g) t → Undergoes f s (.captured slot c) g t
  | close {slot : Nat} : Undergoes f s (.closed slot) (f.closeFrom slot s).1 (f.closeFrom slot s).2
  | write {slot : Nat} {v : Value} :
      Undergoes f s (.wrote slot v) f (s.setLocal f.activation slot v)
  | set {c : CellId} {v : Value} : Undergoes f s (.set c v) f (s.setCell c v)

/-- Any number of events. -/
inductive Lives : Frame → Store → List CellEvent → Frame → Store → Prop where
  | nil {f : Frame} {s : Store} : Lives f s [] f s
  | cons {f g h : Frame} {s t u : Store} {e : CellEvent} {es : List CellEvent} :
      Undergoes f s e g t → Lives g t es h u → Lives f s (e :: es) h u

variable {f g : Frame} {s t : Store} {e : CellEvent} {es es' : List CellEvent}

theorem Lives.split (h : Lives f s (es ++ es') g t) :
    ∃ f₁ s₁, Lives f s es f₁ s₁ ∧ Lives f₁ s₁ es' g t := by
  induction es generalizing f s with
  | nil => exact ⟨f, s, .nil, h⟩
  | cons e es ih =>
    cases h with
    | cons he h =>
      obtain ⟨f₁, s₁, h₁, h₂⟩ := ih h
      exact ⟨f₁, s₁, .cons he h₁, h₂⟩

theorem orderly_of_nil (h : f.openCells = []) : f.Orderly s := by
  refine ⟨?_, ?_, ?_⟩ <;> simp [h]

theorem Orderly.lt (h : f.Orderly s) : ∀ c ∈ f.openCells, c < s.cells.size :=
  fun c hc => (h.opened c hc).1

theorem Orderly.of_cells (h : f.Orderly s) (hsize : t.cells.size = s.cells.size)
    (hslots : (t.locals f.activation).size = (s.locals f.activation).size)
    (hcells : ∀ c ∈ f.openCells, t.cell c = s.cell c) : f.Orderly t := by
  refine ⟨fun c hc => ?_, fun c hc d hd hcd => ?_, h.nodup⟩
  · rw [hsize, hslots, hcells c hc]
    exact h.opened c hc
  · rw [hcells c hc, hcells d hd] at hcd
    exact h.unique c hc d hd hcd

theorem Orderly.neat (h : f.Orderly s) : f.Neat 0 s := by
  refine ⟨fun c hc => ?_, h.unique⟩
  obtain ⟨hlt, i, _, hi⟩ := h.opened c hc
  exact ⟨Nat.zero_le c, hlt, i, hi⟩

theorem Orderly.capture (h : f.Orderly s) (hslot : slot < (s.locals f.activation).size)
    (hnew : ∀ c ∈ f.openCells, s.cell c ≠ .opened f.activation slot) :
    Orderly { f with openCells := f.openCells ++ [s.cells.size] }
      (s.addCell (.opened f.activation slot)).2 := by
  have hneat := h.neat.addCell (Nat.zero_le _) hnew
  refine ⟨fun c hc => ⟨(hneat.opened c hc).2.1, ?_⟩, hneat.unique, ?_⟩
  · rw [Store.cell_addCell]
    rcases List.mem_append.1 hc with hc | hc
    · rw [if_neg (Nat.ne_of_lt (h.lt c hc))]
      exact (h.opened c hc).2
    · rw [if_pos (List.mem_singleton.1 hc)]
      exact ⟨slot, hslot, rfl⟩
  · refine List.nodup_append.2 ⟨h.nodup, by simp, ?_⟩
    rintro c hc d hd rfl
    obtain rfl := List.mem_singleton.1 hd
    exact Nat.lt_irrefl _ (h.lt _ hc)

theorem Orderly.closeFrom (h : f.Orderly s) (slot : Nat) :
    (f.closeFrom slot s).1.Orderly (f.closeFrom slot s).2 := by
  have hcell : ∀ c ∈ (f.closeFrom slot s).1.openCells, c ∈ f.openCells ∧
      (f.closeFrom slot s).2.cell c = s.cell c := by
    intro c hc
    obtain ⟨hmem, hstands⟩ := mem_closeFrom.1 hc
    rw [cell_closeFrom slot (h.lt c hmem), if_neg (by simp [hstands])]
    exact ⟨hmem, rfl⟩
  refine ⟨fun c hc => ?_, fun c hc d hd hcd => ?_, ?_⟩
  · obtain ⟨hmem, heq⟩ := hcell c hc
    rw [size_closeFrom, closeFrom_locals, heq]
    exact h.opened c hmem
  · obtain ⟨hc, hec⟩ := hcell c hc
    obtain ⟨hd, hed⟩ := hcell d hd
    exact h.unique c hc d hd (hec.symm.trans (hcd.trans hed))
  · simp only [Frame.closeFrom, List.partition_eq_filter_filter]
    exact h.nodup.filter _

theorem Undergoes.orderly (h : Undergoes f s e g t) (hf : f.Orderly s) : g.Orderly t := by
  cases h with
  | @capture slot _ _ _ hslot hc =>
    rcases f.capture_cases slot s with ⟨c, _, _, h⟩ | ⟨hnew, h⟩
    · cases h.symm.trans hc
      exact hf
    · cases h.symm.trans hc
      exact hf.capture hslot hnew
  | close => exact hf.closeFrom _
  | write => exact hf.of_cells rfl (s.size_locals_setLocal _ _ _ _) fun _ _ => rfl
  | set =>
    refine hf.of_cells (s.still_setCell _ _).cells (s.size_locals_setCell _ _ _) fun c hc => ?_
    obtain ⟨_, i, _, hi⟩ := hf.opened c hc
    rw [Store.cell_setCell_of_opened hi, hi]

theorem Lives.orderly (h : Lives f s es g t) (hf : f.Orderly s) : g.Orderly t := by
  induction h with
  | nil => exact hf
  | cons he _ ih => exact ih (he.orderly hf)

/-- The cell stands for the slot of the call. -/
structure Mirrors (f : Frame) (s : Store) (slot : Nat) (c : CellId) : Prop where
  listed : c ∈ f.openCells
  opened : s.cell c = .opened f.activation slot

theorem Undergoes.mirrors (h : Undergoes f s e g t) (hf : f.Orderly s) (hc : f.Mirrors s slot c)
    (hkeep : ∀ n, e = .closed n → slot < n) : g.Mirrors t slot c := by
  cases h with
  | @capture i _ _ _ hslot hd =>
    rcases f.capture_cases i s with ⟨c, _, _, h⟩ | ⟨hnew, h⟩
    · cases h.symm.trans hd
      exact hc
    · cases h.symm.trans hd
      refine ⟨List.mem_append_left _ hc.listed, ?_⟩
      rw [Store.cell_addCell, if_neg (Nat.ne_of_lt (hf.lt c hc.listed))]
      exact hc.opened
  | @close n =>
    have hstands : ¬standsFrom s n c = true := by
      rw [standsFrom_iff]
      rintro ⟨a, i, hi, hle⟩
      cases hc.opened.symm.trans hi
      exact Nat.not_lt.2 hle (hkeep n rfl)
    refine ⟨mem_closeFrom.2 ⟨hc.listed, Bool.eq_false_iff.2 hstands⟩, ?_⟩
    rw [cell_closeFrom n (hf.lt c hc.listed), if_neg (fun h => hstands h.2)]
    exact hc.opened
  | write => exact ⟨hc.listed, hc.opened⟩
  | set => exact ⟨hc.listed, Store.cell_setCell_of_opened hc.opened _ _⟩

theorem Lives.mirrors (h : Lives f s es g t) (hf : f.Orderly s) (hc : f.Mirrors s slot c)
    (hkeep : ∀ n, .closed n ∈ es → slot < n) : g.Mirrors t slot c := by
  induction h with
  | nil => exact hc
  | cons he _ ih =>
    refine ih (he.orderly hf) (he.mirrors hf hc ?_) fun n hn => hkeep n (List.mem_cons_of_mem _ hn)
    rintro n rfl
    exact hkeep n List.mem_cons_self

theorem Undergoes.mirrors_captured (h : Undergoes f s (.captured slot c) g t) :
    g.Mirrors t slot c := by
  cases h with
  | capture hslot hd =>
    rcases f.capture_cases slot s with ⟨c, hmem, hcell, h⟩ | ⟨hnew, h⟩
    · cases h.symm.trans hd
      exact ⟨hmem, hcell⟩
    · cases h.symm.trans hd
      refine ⟨List.mem_append_right _ (List.mem_singleton_self _), ?_⟩
      rw [Store.cell_addCell, if_pos rfl]

/-- A closed cell changes only if it is set. -/
theorem Undergoes.closed {v : Value} (h : Undergoes f s e g t) (hf : f.Orderly s)
    (hc : s.cell c = .closed v) : t.cell c = .closed ((CellEvent.lastSet c [e]).getD v) := by
  cases h with
  | @capture i _ _ _ hslot hd =>
    rcases f.capture_cases i s with ⟨d, _, _, h⟩ | ⟨hnew, h⟩
    · cases h.symm.trans hd
      exact hc
    · cases h.symm.trans hd
      rw [Store.cell_addCell, if_neg (Nat.ne_of_lt (Store.lt_of_closed hc))]
      exact hc
  | @close n =>
    rw [cell_closeFrom n (Store.lt_of_closed hc), if_neg, hc]
    · rfl
    · rintro ⟨hmem, -⟩
      obtain ⟨_, i, _, hi⟩ := hf.opened c hmem
      cases hc.symm.trans hi
  | write => exact hc
  | @set d v' =>
    rw [Store.cell_setCell]
    by_cases hd : d = c
    · subst hd
      simp [hc, Cell.link?, CellEvent.lastSet]
    · simp [hc, hd, Ne.symm hd, CellEvent.lastSet]

theorem Lives.closed {v : Value} (h : Lives f s es g t) (hf : f.Orderly s)
    (hc : s.cell c = .closed v) : t.cell c = .closed ((CellEvent.lastSet c es).getD v) := by
  induction h generalizing v with
  | nil => exact hc
  | @cons _ _ _ _ _ _ e es he _ ih =>
    rw [ih (he.orderly hf) (he.closed hf hc)]
    cases e with
    | captured | closed | wrote => rfl
    | set d v' => cases hlast : CellEvent.lastSet c es <;> simp [CellEvent.lastSet, hlast]

/-- The end of a scope closes the cells of its slots, which keep the values of these slots. -/
theorem Mirrors.closeFrom (hc : f.Mirrors s slot c) (hf : f.Orderly s) (hn : n ≤ slot) :
    (f.closeFrom n s).2.cell c = .closed (s.cellValue c) := by
  rw [cell_closeFrom n (hf.lt c hc.listed),
    if_pos ⟨hc.listed, standsFrom_iff.2 ⟨_, slot, hc.opened, hn⟩⟩]

theorem Mirrors.value (hc : f.Mirrors s slot c) (hf : f.Orderly s) :
    (s.locals f.activation)[slot]? = some (s.cellValue c) := by
  obtain ⟨_, i, hi, hopen⟩ := hf.opened c hc.listed
  cases hc.opened.symm.trans hopen
  simp [Store.cellValue, hc.opened, hi, Array.getD_eq_getD_getElem?]

theorem Mirrors.setCell (hc : f.Mirrors s slot c) (v : Value) :
    s.setCell c v = s.setLocal f.activation slot v := by
  rw [Store.setCell, hc.opened]

theorem Mirrors.eq (hc : f.Mirrors s slot c) (hd : f.Mirrors s slot d) (hf : f.Orderly s) : c = d :=
  hf.unique c hc.listed d hd.listed (hc.opened.trans hd.opened.symm)

theorem Lives.closed_of_mem (h : Lives f s es g t) (hf : f.Orderly s) (hc : f.Mirrors s slot c)
    (hn : n ≤ slot) (hmem : .closed n ∈ es) : ∃ v, t.cell c = .closed v := by
  induction h with
  | nil => cases hmem
  | @cons f _ _ s _ _ e es he h ih =>
    by_cases hend : ∃ k, k ≤ slot ∧ e = .closed k
    · obtain ⟨k, hk, rfl⟩ := hend
      cases he with
      | close => exact ⟨_, h.closed (hf.closeFrom k) (hc.closeFrom hf hk)⟩
    · have hkeep : ∀ k, e = .closed k → slot < k :=
        fun k hk => Nat.lt_of_not_le fun hle => hend ⟨k, hle, hk⟩
      refine ih (he.orderly hf) (he.mirrors hf hc hkeep) ?_
      rcases List.mem_cons.1 hmem with heq | hmem
      · exact absurd ⟨n, hn, heq.symm⟩ hend
      · exact hmem

theorem Lives.after_capture (h : Lives f s (es ++ .captured slot c :: es') g t) (hf : f.Orderly s) :
    ∃ f₁ s₁, f₁.Orderly s₁ ∧ f₁.Mirrors s₁ slot c ∧ Lives f₁ s₁ es' g t := by
  obtain ⟨f₀, s₀, h₀, h⟩ := h.split
  cases h with
  | cons he h => exact ⟨_, _, he.orderly (h₀.orderly hf), he.mirrors_captured, h⟩

/-- Two captures of a slot give one cell exactly if its scope did not end in between. -/
theorem Lives.captured_eq_iff {between : List CellEvent}
    (h : Lives f s (es ++ .captured slot c :: (between ++ .captured slot d :: es')) g t)
    (hf : f.Orderly s) : c = d ↔ ∀ n, .closed n ∈ between → slot < n := by
  obtain ⟨f₁, s₁, hf₁, hc, h₁⟩ := h.after_capture hf
  obtain ⟨f₂, s₂, h₂, h₁⟩ := h₁.split
  cases h₁ with
  | cons he _ =>
    have hf₂ := h₂.orderly hf₁
    constructor
    · rintro rfl n hmem
      refine Nat.lt_of_not_le fun hn => ?_
      -- the cell was closed, and closed cells are given to no one
      obtain ⟨v, hv⟩ := h₂.closed_of_mem hf₁ hc hn hmem
      cases (he.closed hf₂ hv).symm.trans he.mirrors_captured.opened
    · intro hkeep
      have hc₂ := he.mirrors hf₂ (h₂.mirrors hf₁ hc hkeep) (fun _ hn => nomatch hn)
      exact hc₂.eq he.mirrors_captured (he.orderly hf₂)

/-- The scope of a captured slot ends: the cell keeps the slot's last value, and what is set through
it later. -/
theorem Lives.closed_value {between : List CellEvent}
    (h : Lives f s (es ++ .captured slot c :: (between ++ .closed n :: es')) g t) (hf : f.Orderly s)
    (hn : n ≤ slot) (hkeep : ∀ k, .closed k ∈ between → slot < k) :
    ∃ f' s' v, f.Lives s (es ++ .captured slot c :: between) f' s' ∧
      (s'.locals f'.activation)[slot]? = some v ∧
      t.cell c = .closed ((CellEvent.lastSet c es').getD v) := by
  rw [← List.cons_append, ← List.append_assoc] at h
  obtain ⟨f', s', h', hend⟩ := h.split
  obtain ⟨f₁, s₁, hf₁, hc, h₁⟩ := h'.after_capture hf
  have hf' := h'.orderly hf
  have hc' := h₁.mirrors hf₁ hc hkeep
  cases hend with
  | cons he h₂ =>
    cases he with
    | close =>
      exact ⟨f', s', _, h', hc'.value hf', h₂.closed (hf'.closeFrom n) (hc'.closeFrom hf' hn)⟩

end Frame

structure Owned (base : Nat) (s : Store) (fs : List Frame) : Prop where
  owner : ∀ c, base ≤ c → c < s.cells.size → ∀ a i, s.cell c = .opened a i →
    ∃ f ∈ fs, f.activation = a ∧ c ∈ f.openCells
  slots : ∀ f ∈ fs, f.activation < s.activations.size
  distinct : (fs.map Frame.activation).Nodup

namespace Owned

variable {base : Nat} {s t : Store} {fs rest : List Frame} {f g : Frame}

/-- The innermost call goes on: it owns the cells that are new and keeps those that stay open. -/
theorem goesOn (h : Owned base s (f :: rest)) (hact : g.activation = f.activation)
    (hslots : s.activations.size ≤ t.activations.size)
    (hcells : ∀ c, c < t.cells.size → ∀ a i, t.cell c = .opened a i →
      (a = f.activation ∧ c ∈ g.openCells) ∨
      (c < s.cells.size ∧ s.cell c = .opened a i ∧ (c ∈ f.openCells → c ∈ g.openCells))) :
    Owned base t (g :: rest) := by
  refine ⟨fun c hbase hc a i hcell => ?_, ?_, ?_⟩
  · rcases hcells c hc a i hcell with ⟨rfl, hmem⟩ | ⟨hlt, hold, hkept⟩
    · exact ⟨g, List.mem_cons_self, hact, hmem⟩
    · obtain ⟨k, hk, hka, hkc⟩ := h.owner c hbase hlt a i hold
      rcases List.mem_cons.1 hk with rfl | hk
      · exact ⟨g, List.mem_cons_self, hact.trans hka, hkept hkc⟩
      · exact ⟨k, List.mem_cons_of_mem _ hk, hka, hkc⟩
  · intro k hk
    rcases List.mem_cons.1 hk with rfl | hk
    · exact Nat.lt_of_lt_of_le (hact ▸ h.slots f List.mem_cons_self) hslots
    · exact Nat.lt_of_lt_of_le (h.slots k (List.mem_cons_of_mem _ hk)) hslots
  · simpa [hact] using h.distinct

theorem still (h : Owned base s fs) (ht : s.Still t) : Owned base t fs := by
  refine ⟨fun c hbase hc a i hcell => ?_, fun f hf => (ht.slots _ (h.slots f hf)).1, h.distinct⟩
  exact h.owner c hbase (Nat.lt_of_lt_of_eq hc ht.cells) a i (ht.opened_iff.1 hcell)

theorem execute {w : Word} {op : Opcode} (h : Owned base s (f :: rest))
    (hact : g.activation = f.activation) (ht : Exec.Ties f s w op g t) :
    Owned base t (g :: rest) := by
  cases ht with
  | still hopen ht =>
    refine (h.still ht).goesOn hact (Nat.le_refl _) fun c hc a i hcell =>
      .inr ⟨hc, hcell, fun hmem => ?_⟩
    rw [hopen]
    exact hmem
  | takes _ htakes _ =>
    refine h.goesOn hact (Nat.le_of_eq (congrArg Array.size htakes.activations).symm)
      fun c hc a i hcell => ?_
    by_cases hlt : c < s.cells.size
    · exact .inr ⟨hlt, (htakes.old c hlt).symm.trans hcell, htakes.kept c⟩
    · obtain ⟨hmem, j, hj⟩ := htakes.fresh c (Nat.le_of_not_lt hlt) hc
      cases hcell.symm.trans hj
      exact .inl ⟨rfl, hmem⟩
  | closes _ hopen ht =>
    subst ht
    refine h.goesOn hact (Nat.le_of_eq (congrArg Array.size (f.closeFrom_activations _ s)).symm)
      fun c hc a i hcell => ?_
    rw [Frame.size_closeFrom] at hc
    rw [Frame.cell_closeFrom _ hc] at hcell
    split at hcell
    · cases hcell
    · rename_i hstays
      refine .inr ⟨hc, hcell, fun hmem => ?_⟩
      rw [hopen]
      exact Frame.mem_closeFrom.2 ⟨hmem, Bool.eq_false_iff.2 fun hs => hstays ⟨hmem, hs⟩⟩

theorem start {a : ActivationId} (h : Owned base s fs) (ht : s.Still t)
    (ha : a = s.activations.size) (hsize : t.activations.size = a + 1) (hf : f.activation = a) :
    Owned base t (f :: fs) := by
  have h' := h.still ht
  refine ⟨fun c hbase hc b i hcell => ?_, ?_, ?_⟩
  · obtain ⟨k, hk, hkc⟩ := h'.owner c hbase hc b i hcell
    exact ⟨k, List.mem_cons_of_mem _ hk, hkc⟩
  · intro k hk
    rcases List.mem_cons.1 hk with rfl | hk
    · rw [hf, hsize]
      exact Nat.lt_succ_self a
    · exact h'.slots k hk
  · -- the number of the new call was given to none of the others
    refine List.nodup_cons.2 ⟨fun hmem => ?_, h.distinct⟩
    obtain ⟨k, hk, hka⟩ := List.mem_map.1 hmem
    have := h.slots k hk
    rw [hka, hf, ha] at this
    exact Nat.lt_irrefl _ this

theorem pop (h : Owned base s (f :: rest)) : Owned base (f.closeFrom 0 s).2 rest := by
  refine ⟨fun c hbase hc a i hcell => ?_, fun k hk => ?_, ?_⟩
  · rw [Frame.size_closeFrom] at hc
    rw [Frame.cell_closeFrom 0 hc] at hcell
    split at hcell
    · cases hcell
    · rename_i hstays
      obtain ⟨k, hk, hka, hkc⟩ := h.owner c hbase hc a i hcell
      rcases List.mem_cons.1 hk with rfl | hk
      · exact absurd ⟨hkc, Frame.standsFrom_iff.2 ⟨a, i, hcell, Nat.zero_le i⟩⟩ hstays
      · exact ⟨k, hk, hka, hkc⟩
  · rw [f.closeFrom_activations]
    exact h.slots k (List.mem_cons_of_mem _ hk)
  · exact (List.nodup_cons.1 h.distinct).2

theorem kept (base : Nat) : Kept (Owned base) where
  still h ht := h.still ht
  push _ h := h.goesOn rfl (Nat.le_refl _) fun _ hc _ _ hcell => .inr ⟨hc, hcell, id⟩
  start h ht ha hsize _ := h.start ht ha hsize rfl
  execute h hruns := h.execute hruns.moves.sameCall.activation hruns.ties
  pop h := h.pop

end Owned

namespace Outcome

variable {host : Host}

/-- No call is in progress when the machine gives its result. -/
def Resting : Outcome → Prop
  | returned _ m | failed _ m => m.frames = []
  | _ => True

theorem resting_deliver (m : Machine) (v : Value) : (m.deliver v).Resting := by
  obtain ⟨s, frames, pending, depth, limit⟩ := m
  cases frames with
  | nil => rfl
  | cons f rest => exact trivial

theorem resting_raise (m : Machine) (e : Fault) : (m.raise e).Resting := by
  have hnil := m.frames_raise e
  rw [m.machine_raise] at hnil
  exact m.raise_cases (P := Resting) e trivial hnil

theorem Move.resting {o' : Outcome} (hm : Move host o o') : o'.Resting := by
  cases hm with
  | step m =>
    refine Machine.step_cases host m ?_ ?_ ?_ ?_
    · intro c _ o hcall
      cases hcall with
      | value => exact resting_deliver _ _
      | failed => exact resting_raise _ _
      | started | again | waiting | stuck => exact trivial
    · intro f rest w _ _ _ o hexec
      cases hexec with
      | next | call => exact trivial
      | failed | undecoded => exact resting_raise _ _
    · exact fun _ _ _ _ _ _ _ _ => resting_deliver _ _
    · exact fun _ hfs => hfs
  | answer r m _ =>
    unfold Machine.resume
    split
    · exact resting_deliver _ _
    · exact resting_raise _ _

theorem Run.resting {m : Machine} (hr : Run host (.running m) o) : o.Resting := by
  cases hr with
  | refl => exact trivial
  | move _ hm => exact hm.resting

/-- Whatever a run does, the cells that it made are closed with the call on whose slots they were
opened. -/
theorem Run.owned {m : Machine} (hidle : m.frames = []) (hr : Run host (.running m) o) :
    Owned m.store.cells.size o.machine.store o.machine.frames := by
  refine (Owned.kept m.store.cells.size).run ?_ hr
  simp only [machine, hidle]
  exact ⟨fun c hbase hc => absurd hc (Nat.not_lt.2 hbase), by simp, by simp⟩

end Outcome

open Outcome (Run)

/-- The life of a captured variable. During a call, whatever happens in it, the cells that it keeps
are in order. Two captures of a slot get one cell if and only if no end of a scope between them
closed the slot. Until then the slot and the cell are one: they hold the same value, and a write to
either is a write to both. From then on the cell has the value that the slot had, or what was
written to it since; no slot changes it, and it changes no slot. In a run from a machine at rest,
the calls in progress have slots of their own, and once a call has ended, none of the cells that the
run made is open on its slots. -/
theorem captured_variable_lifecycle {f g : Frame} {s t : Store} {es : List CellEvent}
    (hfresh : f.openCells = []) (h : f.Lives s es g t) : g.Orderly t ∧
    (∀ es₁ es₂ es₃ slot c d, es = es₁ ++ .captured slot c :: (es₂ ++ .captured slot d :: es₃) →
      (c = d ↔ ∀ n, .closed n ∈ es₂ → slot < n)) ∧
    (∀ es₁ es₂ slot c, es = es₁ ++ .captured slot c :: es₂ → (∀ n, .closed n ∈ es₂ → slot < n) →
      g.Mirrors t slot c ∧ (t.locals g.activation)[slot]? = some (t.cellValue c) ∧
        ∀ v, t.setCell c v = t.setLocal g.activation slot v ∧
          ((t.setCell c v).locals g.activation)[slot]? = some v) ∧
    (∀ es₁ es₂ es₃ slot c n, es = es₁ ++ .captured slot c :: (es₂ ++ .closed n :: es₃) → n ≤ slot →
      (∀ k, .closed k ∈ es₂ → slot < k) →
      ∃ f' s' v, f.Lives s (es₁ ++ .captured slot c :: es₂) f' s' ∧
      (s'.locals f'.activation)[slot]? = some v ∧
        t.cell c = .closed ((CellEvent.lastSet c es₃).getD v) ∧ c ∉ g.openCells ∧
        (∀ i w, (t.setLocal g.activation i w).cellValue c = t.cellValue c) ∧
        ∀ w, (t.setCell c w).activations = t.activations) ∧
    ∀ (host : Host) (m : Machine) (o o' : Outcome), m.frames = [] → Run host (.running m) o →
      Run host o o' → o'.Resting ∧ (o'.machine.frames.map Frame.activation).Nodup ∧
        ∀ k ∈ o.machine.frames, k.activation ∉ o'.machine.frames.map Frame.activation →
          ∀ c, m.store.cells.size ≤ c → c < o'.machine.store.cells.size →
            ∀ i, o'.machine.store.cell c ≠ .opened k.activation i := by
  have hf : f.Orderly s := Frame.orderly_of_nil hfresh
  refine ⟨h.orderly hf, ?_, ?_, ?_, ?_⟩
  · rintro es₁ es₂ es₃ slot c d rfl
    exact h.captured_eq_iff hf
  · rintro es₁ es₂ slot c rfl hkeep
    obtain ⟨f₁, s₁, hf₁, hc, h₁⟩ := h.after_capture hf
    have hc' := h₁.mirrors hf₁ hc hkeep
    have hvalue := hc'.value (h.orderly hf)
    refine ⟨hc', hvalue, fun v => ⟨hc'.setCell v, ?_⟩⟩
    obtain ⟨hslot, -⟩ := Array.getElem?_eq_some_iff.1 hvalue
    rw [hc'.setCell, Store.locals_setLocal, if_pos rfl,
      Array.getElem?_setIfInBounds_self_of_lt hslot]
  · rintro es₁ es₂ es₃ slot c n rfl hn hkeep
    obtain ⟨f', s', v, h', hv, hclosed⟩ := h.closed_value hf hn hkeep
    refine ⟨f', s', v, h', hv, hclosed, fun hmem => ?_, fun i w => ?_, fun w => ?_⟩
    · obtain ⟨_, i, _, hi⟩ := (h.orderly hf).opened c hmem
      cases hclosed.symm.trans hi
    · have hsame : (t.setLocal g.activation i w).cell c = t.cell c := rfl
      rw [Store.cellValue, Store.cellValue, hsame, hclosed]
    · rw [Store.setCell, hclosed]
  · intro host m o o' hidle hr hr'
    have howned := (hr.trans hr').owned hidle
    refine ⟨(hr.trans hr').resting, howned.distinct, fun k _ hgone c hbase hc i hcell => ?_⟩
    obtain ⟨k', hk', ha, _⟩ := howned.owner c hbase hc _ i hcell
    exact hgone (List.mem_map.2 ⟨k', hk', ha⟩)

/-- A call with two slots, at its start. -/
def Frame.pristine : Frame := ⟨default, none, 0, [], 0, [], none⟩

def Store.twoSlots : Store := { Store.empty with activations := #[#[.null, .null]] }

/-- A slot is captured, written, captured again, and captured once more after its scope ended. -/
theorem captured_variable_lifecycle_reopened :
    Frame.pristine.openCells = [] ∧
    Frame.pristine.Lives Store.twoSlots
      [.captured 1 0, .wrote 1 (.bool true), .captured 1 0, .closed 1, .captured 1 1,
        .set 0 (.bool false)]
      { Frame.pristine with openCells := [1] }
      { Store.twoSlots with
        activations := #[#[.null, .bool true]], cells := #[.closed (.bool false), .opened 0 1] } ∧
    ((0 : CellId) = 0 ↔ ∀ n, CellEvent.closed n ∈ [.wrote 1 (.bool true)] → 1 < n) ∧
    ((0 : CellId) = 1 ↔ ∀ n, CellEvent.closed n ∈ [.closed 1] → 1 < n) := by
  have hlives : Frame.pristine.Lives Store.twoSlots
      [.captured 1 0, .wrote 1 (.bool true), .captured 1 0, .closed 1, .captured 1 1,
        .set 0 (.bool false)]
      { Frame.pristine with openCells := [1] }
      { Store.twoSlots with
        activations := #[#[.null, .bool true]], cells := #[.closed (.bool false), .opened 0 1] } :=
    .cons (.capture (by decide) rfl) (.cons .write (.cons (.capture (by decide) rfl) (.cons .close
      (.cons (.capture (by decide) rfl) (.cons .set .nil)))))
  have h := (captured_variable_lifecycle rfl hlives).2.1
  exact ⟨rfl, hlives, h [] [_] [_, _, _] 1 0 0 rfl, h [_, _] [_] [_] 1 0 1 rfl⟩

end Refscript
