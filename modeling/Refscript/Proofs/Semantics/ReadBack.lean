import Refscript.Proofs.Semantics.Refinement
import Refscript.Proofs.Syntax.Literal
import Refscript.Shell

/-!
# Refscript.Proofs.Semantics.ReadBack

Data that is shown reads back as itself.

* `Lower.quiet_program`: the only thing to report about a literal is its size.
* `Scene.Makes`: code that builds data anew and changes no list that was there before.
* `repr_reads_back`: the text that shows a value, run as a program, gives a value that is the same
  data.
-/

namespace Refscript

open Lower Scene

variable {d : Datum} {h : Nat} {n : Node} {ds : List Datum} {ns : List Node} {ω : Type}

namespace Lower

/-- The step reports nothing but that something is too large. -/
def Quiet {α : Type} (x : LowerM α) : Prop :=
  ∀ s a t, x s = .ok a t → ∀ r ∈ t.diagnostics, r ∈ s.diagnostics ∨ ∃ name,
    r.problem = .tooLarge name

section Quiet

variable {α β : Type}

theorem quiet_pure (a : α) : Quiet (pure a) := by
  intro s a t h r hr
  cases h
  exact .inl hr

theorem quiet_build (x : Build α) : Quiet (build x) := by
  intro s a t h r hr
  simp only [build] at h
  split at h
  · cases h
    exact .inl hr
  · cases h

theorem Quiet.bind {x : LowerM α} {f : α → LowerM β} (hx : Quiet x) (hf : ∀ a, Quiet (f a)) :
    Quiet (x >>= f) := by
  intro s b u h r hr
  simp only [Bind.bind, EStateM.bind] at h
  split at h
  · rename_i a t ht
    rcases hf a t b u h r hr with hr | hlarge
    · exact hx s a t ht r hr
    · exact .inr hlarge
  · cases h

theorem Quiet.seq {x : LowerM Unit} {y : LowerM α} (hx : Quiet x) (hy : Quiet y) :
    Quiet (do x; y) :=
  hx.bind fun _ => hy

theorem quiet_get : Quiet get := by
  intro s a t h r hr
  cases h
  exact .inl hr

theorem quiet_checkSize (pos : Position) : Quiet (checkSize pos) := by
  refine quiet_get.bind fun s => ?_
  dsimp only
  split
  · intro s a t h r hr
    cases h
    rcases List.mem_append.1 hr with hr | hr
    · exact .inl hr
    · exact .inr ⟨_, by rw [List.mem_singleton.1 hr]⟩
  · exact quiet_pure ()

theorem quiet_leave (pos : Position) : Quiet (leave pos) := by
  refine (quiet_checkSize pos).bind fun _ => ?_
  intro s a t h r hr
  obtain ⟨b, enclosing, ds⟩ := s
  cases enclosing with
  | nil | cons parent rest =>
    cases h
    exact .inl hr

theorem quiet_nodes (ih : ∀ d ∈ ds, ∀ n, d.Denotes n → Quiet (node n))
    (h : List.Forall₂ Datum.Denotes ds ns) : Quiet (nodes ns) := by
  induction h with
  | nil => exact quiet_pure ()
  | cons hn _ ihs =>
    obtain ⟨ihd, ih⟩ := List.forall_mem_cons.1 ih
    exact (ihd _ hn).seq (ihs ih)

theorem quiet_node (h : d.Denotes n) : Quiet (node n) := by
  induction d using Datum.induction_items generalizing n with
  | null =>
    cases h
    exact (quiet_build _).seq (quiet_build .null)
  | bool b =>
    cases h
    exact (quiet_build _).seq (quiet_build (.bool b))
  | int i =>
    cases h
    exact (quiet_build _).seq (quiet_build (.int i))
  | str s =>
    cases h
    exact (quiet_build _).seq (quiet_build (.string s))
  | list items ih =>
    cases h with
    | list pos hitems =>
      have hnodes := quiet_nodes (fun d hd n => ih d hd) hitems
      exact (quiet_build _).seq (hnodes.seq ((quiet_build _).seq (quiet_pure ())))
  | tuple items ih =>
    cases h with
    | tuple pos hitems =>
      have hnodes := quiet_nodes (fun d hd n => ih d hd) hitems
      exact (quiet_build _).seq (hnodes.seq ((quiet_build _).seq (quiet_pure ())))

/-- The only thing to report about a literal is its size. -/
theorem quiet_program (h : d.Denotes n) : Quiet (program [n]) :=
  (quiet_nodes (fun _ _ _ => quiet_node) (.cons h .nil)).seq (quiet_leave _)

end Quiet

end Lower

/-- A literal is compiled unless it is too large. -/
theorem compile_text (hfits : ∀ ds, compile d.text = .error (.rejected ds) → SizesFit ds) :
    ∃ p n b, compile d.text = .ok p ∧ d.Denotes n ∧ p.outers = [] ∧ nodes [n] .start = .ok () b ∧
      p.PackedFrom b.builder := by
  obtain ⟨n, hread, hn⟩ := d.readProgram_text
  have hmarks := @marks_readProgram d.text (by rw [hread]; rfl)
  rw [hread] at hmarks
  obtain ⟨p, t, hrun, houters, hgood⟩ := yields_program hmarks
  have hcompile : compile d.text =
      if errorCount t.diagnostics = 0 then .ok p else .error (.rejected t.diagnostics) := by
    have hlower : lower [n] = .ok ⟨p, t.diagnostics⟩ := by
      rw [lower, EStateM.run, hrun]
    simp only [compile, hread, hlower]
    rfl
  have hsizes : SizesFit t.diagnostics := by
    by_cases hcount : errorCount t.diagnostics = 0
    · exact sizesFit_of_errorCount hcount
    · exact hfits _ (hcompile.trans (if_neg hcount))
  have hnone : t.diagnostics = [] := by
    rw [List.eq_nil_iff_forall_not_mem]
    intro r hr
    rcases quiet_program hn _ _ _ hrun r hr with hr | ⟨name, hlarge⟩
    · cases hr
    · exact hsizes r hr name hlarge
  obtain ⟨_, b, hnodes, hpacked⟩ := hgood hsizes
  refine ⟨p, n, b, ?_, hn, houters, hnodes, hpacked⟩
  rw [hcompile, hnone]
  rfl

theorem Store.keepsLists_newList (s : Store) (items : Array Value) :
    s.KeepsLists (s.newList items).2 := by
  intro id old hid
  obtain ⟨hlt, rfl⟩ := Array.getElem?_eq_some_iff.1 hid
  exact Array.getElem?_push_lt hlt

namespace Scene

variable {S : Scene ω}

/-- The code makes the data and leaves it on the stack. -/
def Makes (S : Scene ω) (d : Datum) : Shape := fun P i j =>
  S.code = P → ∀ stack s, ∃ k v t, S.after k (S.point i stack s) = S.point j (v :: stack) (t, s.2) ∧
    s.1.KeepsLists t ∧ t.Holds v d

/-- The code makes all the data, the last one on top. -/
def MakesAll (S : Scene ω) (ds : List Datum) : Shape := fun P i j =>
  S.code = P → ∀ stack s, ∃ k vs t, S.after k (S.point i stack s) =
    S.point j (vs.reverse ++ stack) (t, s.2) ∧ s.1.KeepsLists t ∧ List.Forall₂ t.Holds vs ds

theorem Pushes.makes {v : Value} (hv : ∀ s : Store, s.Holds v d) {P : Prototype} {i j : Nat}
    (h : S.Pushes v P i j) : S.Makes d P i j :=
  fun hP stack s => ⟨1, v, s.1, h hP stack s, fun _ _ hid => hid, hv _⟩

theorem emits_atom {x : Build Unit} {v : Value} {line : Nat} (hv : ∀ s : Store, s.Holds v d)
    (hx : Emits bare (build x) h (h + 1) (S.Pushes v)) :
    Emits bare (do build (.setLine line); build x) h (h + 1) (S.Makes d) := by
  refine ((emits_setLine line).seq hx).imp ?_
  rintro P i j ⟨_, rfl, hpushes⟩
  exact hpushes.makes hv

theorem emits_items
    (ih : ∀ d ∈ ds, ∀ n, d.Denotes n → ∀ h, Emits bare (node n) h (h + 1) (S.Makes d))
    (hns : List.Forall₂ Datum.Denotes ds ns) (h : Nat) :
    Emits bare (nodes ns) h (h + ns.length) (S.MakesAll ds) := by
  induction hns generalizing h with
  | nil =>
    refine emits_pure.imp ?_
    rintro P i j rfl hP stack s
    exact ⟨0, [], s.1, rfl, fun _ _ hid => hid, .nil⟩
  | @cons d n ds ns hn _ ihs =>
    obtain ⟨ihd, ih⟩ := List.forall_mem_cons.1 ih
    have hrest := ihs ih (h + 1)
    rw [Nat.add_assoc, Nat.add_comm 1] at hrest
    rw [nodes]
    refine ((ihd n hn h).seq hrest).imp ?_
    rintro P i j ⟨m, hfirst, hrest⟩ hP stack s
    obtain ⟨k, v, t, hk, hkeep, hv⟩ := hfirst hP stack s
    obtain ⟨k', vs, u, hk', hkeep', hvs⟩ := hrest hP (v :: stack) (t, s.2)
    refine ⟨k + k', v :: vs, u, after_trans hk ?_, hkeep.trans hkeep', .cons (hv.mono hkeep') hvs⟩
    rw [hk', List.reverse_cons, List.append_assoc]
    rfl

/-- The code puts data on the stack together. -/
def Collects (S : Scene ω) (ds : List Datum) (d : Datum) : Shape := fun P i j =>
  S.code = P → ∀ vs stack s, List.Forall₂ s.1.Holds vs ds →
    ∃ v t, S.after 1 (S.point i (vs.reverse ++ stack) s) = S.point j (v :: stack) (t, s.2) ∧
      s.1.KeepsLists t ∧ t.Holds v d

theorem emits_collect_list (ds : List Datum) :
    Emits bare (build (.list ds.length)) (h + ds.length) (h + 1) (S.Collects ds (.list ds)) := by
  refine (emits_single ds.length 1 (.wide .list ds.length)).imp ?_
  rintro P i j ⟨rfl, hi⟩ rfl vs stack s hvs
  have hkeep := s.1.keepsLists_newList vs.toArray
  refine ⟨.list s.1.lists.size, (s.1.newList vs.toArray).2, ?_, hkeep, ?_⟩
  · rw [after_point hi, operation_list hi hvs.length_eq]
    rfl
  · exact .list Array.getElem?_push_size (hvs.imp fun v d hv => hv.mono hkeep)

theorem emits_collect_tuple (ds : List Datum) :
    Emits bare (build (.tuple ds.length)) (h + ds.length) (h + 1) (S.Collects ds (.tuple ds)) := by
  refine (emits_single ds.length 1 (.wide .tuple ds.length)).imp ?_
  rintro P i j ⟨rfl, hi⟩ rfl vs stack s hvs
  exact ⟨.tuple vs, s.1, after_silent hi (operation_tuple hi hvs.length_eq),
    fun _ _ hid => hid, .tuple hvs⟩

theorem emits_collected {o : Build Unit} {line : Nat}
    (hns : Emits bare (nodes ns) h (h + ns.length) (S.MakesAll ds))
    (ho : Emits bare (build o) (h + ns.length) (h + 1) (S.Collects ds d)) :
    Emits bare (do build (.setLine line); nodes ns; build o; discard true) h (h + 1)
      (S.Makes d) := by
  refine ((emits_setLine line).seq (hns.seq (ho.seq emits_pure))).imp ?_
  rintro P i j ⟨_, rfl, m, hall, _, hop, rfl⟩ hP stack s
  obtain ⟨k, vs, t, hk, hkeep, hvs⟩ := hall hP stack s
  obtain ⟨v, u, hmove, hkeep', hv⟩ := hop hP vs stack (t, s.2) hvs
  exact ⟨k + 1, v, u, after_trans hk hmove, hkeep.trans hkeep', hv⟩

/-- The code of a literal makes the data. -/
theorem emits_literal (hn : d.Denotes n) (h : Nat) : Emits bare (node n) h (h + 1) (S.Makes d) := by
  induction d using Datum.induction_items generalizing n h with
  | null =>
    cases hn
    exact emits_atom (fun _ => .null) S.emits_null
  | bool b =>
    cases hn
    exact emits_atom (fun _ => .bool b) (S.emits_bool b)
  | int i hi =>
    cases hn
    exact emits_atom (fun _ => .int i hi) (S.emits_int i)
  | str s hs =>
    cases hn
    exact emits_atom (fun _ => .str s hs) (S.emits_str s)
  | list items ih =>
    cases hn with
    | list pos hitems =>
      have hcollect : Emits bare _ (h + items.length) (h + 1) (S.Collects items _) :=
        emits_collect_list items
      rw [hitems.length_eq] at hcollect
      exact emits_collected (emits_items (fun d hd n => ih d hd) hitems h) hcollect
  | tuple items ih =>
    cases hn with
    | tuple pos hitems =>
      have hcollect : Emits bare _ (h + items.length) (h + 1) (S.Collects items _) :=
        emits_collect_tuple items
      rw [hitems.length_eq] at hcollect
      exact emits_collected (emits_items (fun d hd n => ih d hd) hitems h) hcollect

end Scene

/-- The run of a literal's code ends with the data and leaves the world alone. -/
theorem Machine.after_literal {m : Machine} (t : Terminal (StateM ω)) (host : Host) {p : Prototype}
    {b : State} (hn : d.Denotes n) (hrun : nodes [n] .start = .ok () b)
    (hp : p.PackedFrom b.builder) (houters : p.outers = []) (hfit : p.startable = true)
    (hidle : m.frames = []) (hroom : m.depth < m.limit) (w : ω) :
    ∃ k v s, Outcome.after t host k (m.runPrototype p [], w) =
      (.returned v ⟨s, [], none, m.depth, m.limit⟩, w) ∧ m.store.KeepsLists s ∧ s.Holds v d := by
  let S := m.scene t host 0 p
  have hitems : Emits bare (nodes [n]) 0 1 (S.MakesAll [d]) :=
    emits_items (fun d _ n hn h => emits_literal hn h) (.cons hn .nil) 0
  obtain ⟨hmakes, hparams, hvariadic⟩ := code_of_emits hitems hrun hp
  have hstart := after_runPrototype (m := m) t host houters hidle w
  rw [start_program hparams hvariadic, if_neg (Nat.not_le.2 hroom), hfit, Bool.not_true,
    if_neg Bool.false_ne_true] at hstart
  obtain ⟨k, vs, u, hk, hkeep, hvs⟩ := hmakes rfl []
    (((m.store.addClosure ⟨p, #[]⟩).2.addActivation (Array.replicate p.slots .null)).2, w)
  obtain ⟨v, rfl, hv⟩ : ∃ v, vs = [v] ∧ u.Holds v d := by
    cases hvs with
    | cons hv hrest =>
      cases hrest
      exact ⟨_, rfl, hv⟩
  refine ⟨1 + (k + 1), v, u, ?_, hkeep, hv⟩
  exact after_trans (S := S) hstart (after_trans hk (after_end [v] (u, w)))

/-- Data that is shown reads back as itself: the text of a value without cycles, made of null, truth
values, integers other than the least one, plain strings, lists and tuples, is a program that gives
a value which is the same data, unless the program is too large or asks for more stack than there
can be, which takes a tree that no memory holds. It does so on every machine that is at rest, and it
changes no list that was there before. -/
theorem repr_reads_back (t : Terminal (StateM ω)) (host : Host) {s : Store} {v : Value} {d : Datum}
    (hv : s.Holds v d) (hfits : ∀ ds, compile (s.repr v) = .error (.rejected ds) → SizesFit ds)
    (hstack : ∀ p, compile (s.repr v) = .ok p → p.startable = true) {m : Machine}
    (hidle : m.frames = []) (hroom : m.depth < m.limit) (w : ω) :
    ∃ n u m', ((Shell.mk t false (Machine.drive t host false n)).interpret (s.repr v) m).run w =
      ((.ok u, m'), w) ∧ m'.store.Holds u d ∧ m.store.KeepsLists m'.store := by
  rw [hv.repr_eq] at hfits hstack ⊢
  obtain ⟨p, n, b, hcompile, hn, houters, hrun, hp⟩ := compile_text hfits
  obtain ⟨k, u, s', hk, hkeep, hu⟩ :=
    Machine.after_literal t host hn hrun hp houters (hstack p hcompile) hidle hroom w
  obtain ⟨fuel, hdrive⟩ := (Outcome.exists_drive_iff _ _ rfl).2 ⟨k, hk⟩
  refine ⟨fuel, u, ⟨s', [], none, m.depth, m.limit⟩, ?_, hu, hkeep⟩
  rw [Shell.interpret, hcompile]
  show ((Machine.drive t host false fuel (m.runPrototype p []) >>= fun o => pure (o.settle m)).run
    w) = _
  rw [StateT.run_bind, hdrive]
  rfl

/-- A store with a list of four items, one of them an empty list in a tuple. -/
def Store.nested : Store :=
  { Store.initial with lists := #[#[.int (-3), .str "a\"\n\\", .tuple [.list 1], .null], #[]] }

/-- The list of four items. -/
def Datum.nested : Datum :=
  .list [.int (-3) (by decide), .str "a\"\n\\" (by decide), .tuple [.list []], .null]

theorem Store.holds_nested : Store.nested.Holds (.list 0) .nested :=
  .list rfl (.cons (.int _ _)
    (.cons (.str _ _) (.cons (.tuple (.cons (.list rfl .nil) .nil)) (.cons .null .nil))))

/-- A tuple in which one list stands twice is read back. -/
theorem repr_reads_back_nested :
    Store.nested.Holds (.tuple [.list 0, .bool true, .list 0])
      (.tuple [.nested, .bool true, .nested]) ∧
    (compile (Store.nested.repr (.tuple [.list 0, .bool true, .list 0]))).toOption.any
      Prototype.startable = true ∧
    Machine.standard.frames = [] ∧ Machine.standard.depth < Machine.standard.limit ∧
    ∃ n u m', ((Shell.mk Recording.terminal false
      (Machine.drive Recording.terminal noHost false n)).interpret
        (Store.nested.repr (.tuple [.list 0, .bool true, .list 0])) Machine.standard).run .blank =
          ((.ok u, m'), .blank) ∧
      m'.store.Holds u (.tuple [.nested, .bool true, .nested]) ∧
        Machine.standard.store.KeepsLists m'.store := by
  have hv : Store.nested.Holds (.tuple [.list 0, .bool true, .list 0])
    (.tuple [.nested, .bool true, .nested]) :=
    .tuple (.cons Store.holds_nested (.cons (.bool true) (.cons Store.holds_nested .nil)))
  have hcompile : (compile (Store.nested.repr (.tuple [.list 0, .bool true, .list 0]))).toOption.any
      Prototype.startable = true := by
    rw [hv.repr_eq]
    decide +kernel
  refine ⟨hv, hcompile, rfl, by decide, ?_⟩
  refine repr_reads_back Recording.terminal noHost hv ?_ ?_ rfl (by decide) .blank
  · intro ds hrejected
    rw [hrejected] at hcompile
    cases hcompile
  · intro p hp
    rw [hp] at hcompile
    exact hcompile

end Refscript
