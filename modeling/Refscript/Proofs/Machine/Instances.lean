import Refscript.Proofs.Machine.Definition

/-!
# Refscript.Proofs.Machine.Instances

Which captures share a cell. A captured variable belongs to a call and to a block that the call is
in. It has one cell from its first capture until the call leaves the block, provided that every loop
of the program leaves the names in scope as it finds them: only then do the open blocks of the chart
tell which slots are in use.

* `Scope.Binds`: the slot of a variable, by its block and name; control that cannot leave the block
  keeps it.
* `Machine.Captures`: the next step captures a variable; `Machine.Captures.origin` finds the call
  that has it.
* `Variable.Anchored`: as long as the cell of a variable is open, its call is inside the block;
  every instruction of a run keeps that, since it leads nowhere but to where the chart allows.
* `captures_follow_activations`: two captures share a cell exactly if they are of one activation of
  one variable.
-/

namespace Refscript

open Outcome (Move Run)

variable {host : Host} {C D D' : Chart} {P Q : Prototype} {m m' : Machine} {f g f' : Frame}
  {rest fs : List Frame} {e e' : Entry} {x : String} {c d c' : CellId} {a : ActivationId}
  {base id i i' : Nat} {s t : Store} {w : Word} {op : Opcode} {eff : Effect}
  {around : List (List String)} {start o o' : Outcome} {way : List (Scope × Prototype)}

namespace Scope

/-- The variable `x` of the block numbered `id` has the slot `i`. -/
inductive Binds (id : Nat) (x : String) (i : Nat) : Scope → Prop where
  | here {b : Block} {S : Scope} {j : Nat} : b.id = id → b.names[j]? = some x →
      i = S.names.length + j → Binds id x i (b :: S)
  | outside {S : Scope} (b : Block) : Binds id x i S → Binds id x i (b :: S)

variable {S S' : Scope} {b : Block} {K : List (Nat × String)}

theorem Binds.getElem? (h : S.Binds id x i) : S.names[i]? = some x := by
  induction h with
  | here _ hj hi =>
    rw [names, hi, List.getElem?_append_right (Nat.le_add_right _ _), Nat.add_sub_cancel_left, hj]
  | @outside S b _ ih =>
    rw [names, List.getElem?_append_left (List.getElem?_eq_some_iff.1 ih).1, ih]

theorem Binds.lt (h : S.Binds id x i) : i < S.names.length :=
  (List.getElem?_eq_some_iff.1 h.getElem?).1

theorem Binds.block (h : S.Binds id x i) : ∃ b ∈ S, b.id = id ∧ x ∈ b.names := by
  induction h with
  | here hid hj _ => exact ⟨_, List.mem_cons_self, hid, List.mem_of_getElem? hj⟩
  | outside _ _ ih =>
    obtain ⟨b, hb, h⟩ := ih
    exact ⟨b, List.mem_cons_of_mem _ hb, h⟩

theorem Binds.mem_ids (h : S.Binds id x i) : id ∈ S.map Block.id := by
  obtain ⟨b, hb, rfl, _⟩ := h.block
  exact List.mem_map_of_mem hb

theorem Binds.home? (h : S.Binds id x i) (hd : S.names.Nodup) : S.home? x = some id := by
  obtain ⟨b, hb, rfl, hx⟩ := h.block
  exact home?_of_mem hd hb hx

theorem exists_binds (h : S.names[i]? = some x) : ∃ id, S.Binds id x i := by
  induction S with
  | nil => cases h
  | cons b S ih =>
    rw [names, List.getElem?_append] at h
    split at h
    · obtain ⟨id, hid⟩ := ih h
      exact ⟨id, hid.outside b⟩
    · exact ⟨b.id, .here rfl h (by omega)⟩

theorem binds_of_home? (hd : S.names.Nodup) (hslot : S.slot? x = some i)
    (hhome : S.home? x = some id) : S.Binds id x i := by
  obtain ⟨id', h⟩ := exists_binds (getElem?_of_slot? hslot)
  cases (h.home? hd).symm.trans hhome
  exact h

theorem Binds.of_lt (h : Binds id x i (b :: S)) (hi : i < S.names.length) : S.Binds id x i := by
  cases h with
  | here _ _ hj => omega
  | outside _ h => exact h

theorem Binds.of_mem_ids (h : Binds id x i (b :: S)) (hd : ((b :: S).map Block.id).Nodup)
    (hid : id ∈ S.map Block.id) : S.Binds id x i := by
  cases h with
  | here hb _ _ => exact absurd (hb ▸ hid) (List.nodup_cons.1 hd).1
  | outside _ h => exact h

/-- Control stays in the blocks of captured variables. -/
theorem Binds.flow (h : S.Binds id x i) (hK : (id, x) ∈ K) (hflow : Flow K S S') :
    S'.Binds id x i := by
  induction hflow with
  | refl => exact h
  | leave _ hb ih =>
    cases ih with
    | here hid _ _ => exact absurd (hid ▸ hK) (hb x)
    | outside _ ih => exact ih
  | declare more _ ih =>
    cases ih with
    | here hid hj hi =>
      exact .here hid (by rw [List.getElem?_append_left (List.getElem?_eq_some_iff.1 hj).1, hj]) hi
    | outside _ ih => exact ih.outside _
  | enter b _ ih => exact ih.outside b

end Scope

/-- The offset that an instruction takes a call to is one that the code allows, unless it ends the
call. -/
theorem Exec.Moves.nexts (h : Moves f w op f.ip eff) (hw : f.prototype.code[f.ip]? = some w)
    (hop : w.op? = some op) :
    (after eff).ip ∈ f.prototype.nexts f.ip ∨ (after eff).ip = f.prototype.code.size := by
  have hmem : ∀ {height : Nat} {targets : List (Nat × Nat)} {k n : Nat},
      StackCheck.successors? f.prototype op w f.ip height = some targets → (k, n) ∈ targets →
      k ∈ f.prototype.nexts f.ip := by
    intro height targets k n hs hk
    simp only [Prototype.nexts, hw, hop]
    have hsame : ((StackCheck.successors? f.prototype op w f.ip 0).getD []).map Prod.fst =
        targets.map Prod.fst := by
      unfold StackCheck.successors? at hs ⊢
      split at hs <;> first | (cases hs; rfl) | skip
      split at hs
      · cases hs
        simp [*, Function.comp_def]
      · cases hs
    rw [hsame]
    exact List.mem_map_of_mem hk
  cases h with
  | next _ _ _ hs hk | call _ _ _ hs hk => exact .inl (hmem hs hk)
  | ret _ _ _ hip _ => exact .inr hip

theorem Within.steady (h : Within C P way D Q) (hC : Described [] C P) (hsteady : C.steady = true) :
    D.steady = true := by
  induction h with
  | self => exact hsteady
  | inner h hD _ ih => exact (h.matched hC).steady ih _ (List.mem_of_getElem? hD)

namespace Outcome

theorem Run.head (h : Run host (.running m) o) : o = .running m ∨ Run host (m.step host) o := by
  induction h with
  | refl => exact .inl rfl
  | move _ hm ih =>
    rcases ih with rfl | ih
    · cases hm
      exact .inr .refl
    · exact .inr (ih.move hm)

theorem Run.steps (h : Run host (.running m) (.running m')) :
    Run host (m.step host) (m'.step host) := by
  rcases h.head with heq | h
  · cases heq
    exact .refl
  · exact h.move (.step m')

end Outcome

/-- The machine is about to execute the instruction of the entry `e`, in a call of a function of the
program `P` with the chart `C`. -/
structure Machine.Visits (C : Chart) (P : Prototype) (m : Machine) (f : Frame) (D : Chart)
    (e : Entry) : Prop where
  pending : m.pending = none
  frames : ∃ rest, m.frames = f :: rest
  within : ∃ way, Within C P way D f.prototype
  entry : D.entries[f.ip]? = some e

/-- The instruction of the entry `e` captures a variable called `x` in the cell `c`: a function that
it makes holds the cell, or it takes a reference. -/
inductive Machine.Captures (host : Host) (m : Machine) (e : Entry) (x : String) (c : CellId) :
    Prop where
  | function {q : Closure} {i : Nat} {o : OuterInfo} : q ∈ m.added host →
      q.prototype.outers[i]? = some o → o.name = x → q.captures[i]? = some c → Captures host m e x c
  | reference {g : Frame} {rest : List Frame} {id : Nat} {place : Place} :
      e.use = .access .refer x →
      (m.step host).machine.frames = g :: rest → g.stack.head? = some (.ref id place) →
      place = .loc c ∨ place = .outer c → Captures host m e x c

/-- What such an instruction takes: the cell of a slot of the call itself, or one that its function
holds. -/
def Machine.Obtains (host : Host) (m : Machine) (f : Frame) (D : Chart) (e : Entry) (x : String)
    (c : CellId) : Prop :=
  (∃ slot g rest, e.scope.slot? x = some slot ∧ e.scope.Captures D.captured x ∧
    (m.step host).machine.frames = g :: rest ∧ c ∈ g.openCells ∧
    (m.step host).machine.store.cell c = .opened f.activation slot) ∨
  (x ∉ e.scope.names ∧ ∃ (i : Nat) (o : OuterInfo), f.prototype.outers[i]? = some o ∧ o.name = x ∧
    f.closure.captures[i]? = some c)

namespace Machine

theorem Visits.word (hv : m.Visits C P f D e) (hC : Described [] C P) :
    ∃ w, f.prototype.code[f.ip]? = some w := by
  obtain ⟨way, hwithin⟩ := hv.within
  obtain ⟨hlt, _⟩ := List.getElem?_eq_some_iff.1 hv.entry
  exact ⟨_, Array.getElem?_eq_getElem ((hwithin.matched hC).size ▸ hlt)⟩

theorem Visits.turns (hv : m.Visits C P f D e) (hC : Described [] C P) (host : Host) :
    ((m.step host).machine.frames = [] ∧ (m.step host).machine.store.closures = m.store.closures) ∨
      ∃ rest w op eff, Exec.Runs f m.store w op eff (m.step host).machine.store ∧
        (m.step host).machine.frames = Exec.after eff :: rest := by
  obtain ⟨w, hw⟩ := hv.word hC
  obtain ⟨rest, hfs⟩ := hv.frames
  cases m.step_turns host with
  | keeps hnil hkeeps =>
    exact .inl ⟨hnil f rest w hv.pending hfs hw, hkeeps _ (stable_closures m.store.closures) rfl⟩
  | executes _ hfs' hruns hafter =>
    cases hfs.symm.trans hfs'
    exact .inr ⟨rest, _, _, _, hruns, hafter⟩

theorem Visits.matched (hv : m.Visits C P f D e) (hC : Described [] C P) :
    ∃ around, D.Matches around f.prototype := by
  obtain ⟨way, hwithin⟩ := hv.within
  exact ⟨_, hwithin.matched hC⟩

theorem obtains_of_added {q : Closure} {o : OuterInfo} (hv : m.Visits C P f D e)
    (hC : Described [] C P) (hneat : f.Neat 0 m.store) (hq : q ∈ m.added host)
    (ho : q.prototype.outers[i]? = some o) (hc : q.captures[i]? = some c) :
    m.Obtains host f D e o.name c := by
  obtain ⟨around, hmatched⟩ := hv.matched hC
  have hnone : (m.step host).machine.store.closures = m.store.closures →
      m.Obtains host f D e o.name c := by
    intro heq
    rw [added, heq, ← Array.length_toList, List.drop_length] at hq
    cases hq
  rcases hv.turns hC host with ⟨_, heq⟩ | ⟨rest, w, op, eff, hruns, hafter⟩
  · exact hnone heq
  rcases runs_creates hruns with heq | ⟨places, new, hinstructs, hmakes⟩
  · exact hnone heq
  have hcall := hruns.moves.sameCall
  rw [added, hmakes.closures, ← Array.length_toList, List.drop_left] at hq
  obtain ⟨huse, hinner⟩ := (hmatched.fits f.ip e hv.entry).creates hruns.word hinstructs
  obtain ⟨k, hk, hnested⟩ := Creates.nested ⟨⟨_, hruns.word, hinstructs⟩, _, hcall, hmakes⟩ hq
  obtain ⟨⟨S, D'⟩, hD', rfl⟩ := Option.map_eq_some_iff.1 (hinner k hk)
  have hmem := List.mem_of_getElem? ho
  have hhands := hmatched.hands k _ D' q.prototype hD' hnested o hmem
  have hgives := hmakes.gives hneat q hq i o c ho hc
  obtain ⟨name, position, kind⟩ := o
  cases kind with
  | localInParent =>
    obtain ⟨hlisted, hcell⟩ := hgives
    have hnotes := hmatched.notes e (List.mem_of_getElem? hv.entry)
    simp only [Entry.Notes, huse] at hnotes
    exact .inl ⟨position, _, rest, hhands, hnotes k hk _ hnested _ hmem rfl, hafter, hlisted,
      hcall.activation ▸ hcell⟩
  | outerInParent =>
    obtain ⟨hout, hname⟩ := hhands
    obtain ⟨o', ho', hname⟩ := Option.map_eq_some_iff.1 hname
    exact .inr ⟨hout, position, o', ho', hname, hcall.closure ▸ hgives⟩

theorem obtains_of_reference {place : Place} (hv : m.Visits C P f D e) (hC : Described [] C P)
    (huse : e.use = .access .refer x) (hfs : (m.step host).machine.frames = g :: rest)
    (hhead : g.stack.head? = some (.ref id place)) (hplace : place = .loc c ∨ place = .outer c) :
    m.Obtains host f D e x c := by
  obtain ⟨around, hmatched⟩ := hv.matched hC
  rcases hv.turns hC host with ⟨hnil, _⟩ | ⟨rest, w, op, eff, hruns, hafter⟩
  · cases hfs.symm.trans hnil
  cases hfs.symm.trans hafter
  have hfits := hmatched.fits f.ip e hv.entry
  have hnotes := hmatched.notes e (List.mem_of_getElem? hv.entry)
  simp only [Entry.Fits, huse] at hfits
  simp only [Entry.Notes, huse] at hnotes
  obtain ⟨target, name, hfinds, _, hcarries⟩ := hfits
  obtain rfl := Option.some.inj (hruns.word.symm.trans hcarries.word)
  have href : op = .ref := by
    have := (Insn.op?_pack _).symm.trans hruns.op?
    cases target <;> exact (Option.some.inj this).symm
  subst href
  obtain ⟨kind, hkind, hrefers⟩ := Exec.ref_refers hruns.run
  cases target with
  | loc slot =>
    rw [Insn.a_pack rfl hcarries.fits] at hkind
    cases hkind
    cases hrefers with
    | loc _ _ hlisted hcell _ hhead' =>
      cases hhead.symm.trans hhead'
      rcases hplace with heq | heq <;> cases heq
      rw [Insn.b_pack rfl hcarries.fits] at hcell
      exact .inl ⟨slot, _, rest, hfinds, hnotes (Scope.mem_of_slot? hfinds), hafter, hlisted, hcell⟩
  | outer position =>
    rw [Insn.a_pack rfl hcarries.fits] at hkind
    cases hkind
    cases hrefers with
    | outer _ _ hheld hhead' =>
      cases hhead.symm.trans hhead'
      rcases hplace with heq | heq <;> cases heq
      rw [Insn.b_pack rfl hcarries.fits] at hheld
      obtain ⟨hout, _, hname⟩ := hfinds
      obtain ⟨o, ho, hname⟩ := Option.map_eq_some_iff.1 hname
      exact .inr ⟨hout, position, o, ho, hname, hheld⟩
  | global =>
    rw [Insn.a_pack rfl hcarries.fits] at hkind
    cases hkind
    cases hrefers with
    | global _ _ hhead' =>
      cases hhead.symm.trans hhead'
      rcases hplace with heq | heq <;> cases heq

theorem Captures.obtains (h : m.Captures host e x c) (hv : m.Visits C P f D e)
    (hC : Described [] C P) (hneat : f.Neat 0 m.store) : m.Obtains host f D e x c := by
  cases h with
  | function hq ho hname hc => exact hname ▸ obtains_of_added hv hC hneat hq ho hc
  | reference huse hfs hhead hplace => exact obtains_of_reference hv hC huse hfs hhead hplace

end Machine

/-- A variable of a call. -/
structure Variable where
  call : ActivationId
  block : Nat
  name : String

variable {v v' : Variable}

/-- The next step captures the variable in the cell, at the call that has it in scope. -/
def Machine.CapturesOwn (host : Host) (C : Chart) (P : Prototype) (m : Machine) (D : Chart)
    (v : Variable) (c : CellId) : Prop :=
  ∃ f e, m.Visits C P f D e ∧ f.activation = v.call ∧ e.scope.home? v.name = some v.block ∧
    m.Captures host e v.name c

/-- From one machine to the other the call stays in the block of the variable: every instruction
that it executes on the way is inside, and does not end it. -/
def Variable.Lasts (host : Host) (C : Chart) (P : Prototype) (D : Chart) (v : Variable)
    (m₁ m₂ : Machine) : Prop :=
  ∀ m f e, Run host (.running m₁) (.running m) → Run host (m.step host) (.running m₂) →
    m.Visits C P f D e → f.activation = v.call → v.block ∈ e.after.map Block.id

theorem Machine.Captures.own (h : m.Captures host e x c) (hv : m.Visits C P f D e)
    (hid : e.scope.Captures D.captured x) : ∃ v, m.CapturesOwn host C P D v c ∧ v.name = x := by
  obtain ⟨id, hid, _⟩ := hid
  exact ⟨⟨f.activation, id, x⟩, ⟨f, e, hv, rfl, hid, h⟩, rfl⟩

/-- A captured variable is one of the innermost function around that has it in scope. The capture,
or the one that it goes back to when the functions in between were made, is at the call of that
function. -/
theorem Machine.Captures.origin {ms : List Machine} (hC : Described [] C P)
    (houters : P.outers = [])
    (hneat : ∀ m, Run host start (.running m) → ∀ f ∈ m.frames, f.Neat 0 m.store)
    (h : m.Captures host e x c) (hr : Run host start (.running m)) (hv : m.Visits C P f D e)
    (hlexical : Lexical C P ms way D f.prototype)
    (hdescends : Outcome.Descends host start ⟨P, #[]⟩ f.closure ms) :
    ∃ n slot m' D' v, Scope.lookup (e.scope :: way.map Prod.fst) x = some (n, slot) ∧
      (m :: ms)[n]? = some m' ∧ m'.CapturesOwn host C P D' v c ∧ v.name = x := by
  generalize hq : f.closure = q at hdescends
  -- by induction on where the call's function comes from
  induction hdescends generalizing m f e D way with
  | self =>
    obtain ⟨rest, hfs⟩ := hv.frames
    rcases h.obtains hv hC (hneat m hr f (hfs ▸ List.mem_cons_self)) with
      ⟨slot, _, _, hslot, hid, _⟩ | ⟨_, i, o, ho, _⟩
    · obtain ⟨v, hown⟩ := h.own hv hid
      exact ⟨0, slot, m, D, v, by rw [Scope.lookup, hslot], rfl, hown⟩
    · rw [Frame.prototype, hq, houters] at ho
      cases ho
  | @created m₁ f₁ rest₁ q ms hr₁ hfs₁ hdescends hadded ih =>
    obtain ⟨rest, hfs⟩ := hv.frames
    rcases h.obtains hv hC (hneat m hr f (hfs ▸ List.mem_cons_self)) with
      ⟨slot, _, _, hslot, hid, _⟩ | ⟨hout, i, o, ho, hname, hheld⟩
    · obtain ⟨v, hown⟩ := h.own hv hid
      exact ⟨0, slot, m, D, v, by rw [Scope.lookup, hslot], rfl, hown⟩
    · rw [Frame.prototype, hq] at hlexical ho
      rw [hq] at hheld
      cases hlexical with
      | @inner _ way D₁ _ Q _ _ f' _ S places k hlexical hfs' hQ he _ hD₁ hnested =>
        cases hfs₁.symm.trans hfs'
        subst hQ
        obtain ⟨_, _, _, hp, _⟩ := creates_of_mem_added hadded
        have hv₁ : m₁.Visits C P f₁ D₁ ⟨S, .create places⟩ :=
          ⟨hp, ⟨_, hfs₁⟩, ⟨_, hlexical.within⟩, he⟩
        obtain ⟨n, slot, m', D', v, hlookup, hm', hv'⟩ :=
          ih (.function hadded ho hname hheld) hr₁ hv₁ hlexical rfl
        refine ⟨n + 1, slot, m', D', v, ?_, hm', hv'⟩
        rw [Scope.lookup, Scope.slot?_eq_none_iff.2 hout, List.map_cons, hlookup]
        rfl

theorem Frame.opened_of_closeFrom {n : Nat} (hlt : c < s.cells.size)
    (h : (f.closeFrom n s).2.cell c = .opened a i) : s.cell c = .opened a i := by
  rw [cell_closeFrom n hlt] at h
  split at h
  · cases h
  · exact h

namespace Accounted

theorem eq_of_activation (h : Accounted base s fs) (hf : f ∈ fs) (hg : g ∈ fs)
    (heq : f.activation = g.activation) : f = g :=
  List.inj_on_of_nodup_map h.distinct hf hg heq

theorem listed (h : Accounted base s fs) (hf : f ∈ fs) (hbase : base ≤ c) (hlt : c < s.cells.size)
    (hcell : s.cell c = .opened f.activation i) : c ∈ f.openCells := by
  obtain ⟨g, hg, hact, hc⟩ := h.owner c hbase hlt _ _ hcell
  exact h.eq_of_activation hg hf hact ▸ hc

/-- One slot has one open cell. -/
theorem cell_unique (h : Accounted base s fs)
    (hc : base ≤ c ∧ c < s.cells.size ∧ s.cell c = .opened a i)
    (hd : base ≤ d ∧ d < s.cells.size ∧ s.cell d = .opened a i) : c = d := by
  obtain ⟨f, hf, rfl, hlisted⟩ := h.owner c hc.1 hc.2.1 _ _ hc.2.2
  exact (h.neat f hf).unique c hlisted d (h.listed hf hd.1 hd.2.1 hd.2.2) (hc.2.2.trans hd.2.2.symm)

end Accounted

namespace Exec.Runs

/-- A cell that is open after an instruction was open before. -/
theorem opened (h : Runs f s w op eff t) (hlt : c < s.cells.size) :
    c < t.cells.size ∧ (t.cell c = .opened a i → s.cell c = .opened a i) := by
  cases h.ties with
  | still _ ht => exact ⟨ht.cells ▸ hlt, ht.opened_iff.1⟩
  | takes _ htakes _ => exact ⟨Nat.lt_of_lt_of_le hlt htakes.size, (htakes.old c hlt).symm.trans⟩
  | closes _ _ ht => exact ht ▸ ⟨f.size_closeFrom w.c s ▸ hlt, Frame.opened_of_closeFrom hlt⟩

/-- A cell stays open unless the instruction closes its slot. -/
theorem opens (h : Runs f s w op eff t) (hlt : c < s.cells.size) (hcell : s.cell c = .opened a i)
    (hstays : op = .closeOuters → c ∈ f.openCells → i < w.c) : t.cell c = .opened a i := by
  cases h.ties with
  | still _ ht => exact ht.opened_iff.2 hcell
  | takes _ htakes _ => exact (htakes.old c hlt).trans hcell
  | closes hop _ ht =>
    rw [ht, Frame.cell_closeFrom _ hlt, if_neg, hcell]
    rintro ⟨hmem, hstands⟩
    obtain ⟨b, j, hj, hle⟩ := Frame.standsFrom_iff.1 hstands
    cases hcell.symm.trans hj
    exact Nat.not_lt.2 hle (hstays hop hmem)

/-- An instruction after which the cell of a variable is open does not end its block. -/
theorem binds_after (h : Runs f s w op eff t) (hD : D.Matches around f.prototype)
    (he : D.entries[f.ip]? = some e) (hlt : c < t.cells.size) (hc : c ∈ (after eff).openCells)
    (hcell : t.cell c = .opened a i) (hbinds : e.scope.Binds id x i) : e.after.Binds id x i := by
  have hfits := hD.fits _ e he
  obtain ⟨S, use⟩ := e
  cases use with
  | close =>
    obtain rfl := Option.some.inj ((hfits.op?_eq h.word).symm.trans h.op?)
    obtain ⟨hlisted, rfl⟩ : (after eff).openCells = (f.closeFrom w.c s).1.openCells ∧
        t = (f.closeFrom w.c s).2 := by
      cases h.run
      exact ⟨rfl, rfl⟩
    rw [hlisted] at hc
    obtain ⟨_, hstands⟩ := Frame.mem_closeFrom.1 hc
    rw [Frame.size_closeFrom] at hlt
    have hle : i < w.c := by
      refine Nat.lt_of_not_le fun hle => ?_
      rw [Frame.standsFrom_iff.2 ⟨a, i, Frame.opened_of_closeFrom hlt hcell, hle⟩] at hstands
      cases hstands
    rw [hfits.c_eq h.word rfl] at hle
    cases S with
    | nil => cases hbinds
    | cons b S => exact hbinds.of_lt hle
  | _ => exact hbinds

/-- Nor does control leave it from there. -/
theorem binds_next (h : Runs f s w op eff t) (hD : D.Matches around f.prototype)
    (hsteady : D.steady = true) (hK : (id, x) ∈ D.captured) (he : D.entries[f.ip]? = some e)
    (hbinds : e.after.Binds id x i) (he' : D.entries[(after eff).ip]? = some e') :
    e'.scope.Binds id x i := by
  rcases h.moves.nexts h.word h.op? with hnext | hend
  · exact hbinds.flow hK ((hD.flows hsteady).2 _ e he _ hnext e' he')
  · rw [hend, hD.size, List.getElem?_eq_none (Nat.le_refl _)] at he'
    cases he'

/-- An instruction that closes slots leaves those of the blocks that stay. -/
theorem lt_closed (h : Runs f s w op eff t) (hD : D.Matches around f.prototype)
    (he : D.entries[f.ip]? = some e) (hbinds : e.after.Binds id x i) (hop : op = .closeOuters) :
    i < w.c := by
  have hfits := hD.fits _ e he
  obtain ⟨S, use⟩ := e
  cases (hfits.use h.word h.op?).1 hop
  rw [Prototype.Carries.c_eq hfits h.word rfl]
  exact hbinds.lt

end Exec.Runs

theorem kept_opened (c : CellId) (a : ActivationId) (i : Nat) (p : Prop) :
    Kept fun s _ => c < s.cells.size ∧ (s.cell c = .opened a i → p) where
  still h ht := ⟨ht.cells ▸ h.1, fun hc => h.2 (ht.opened_iff.1 hc)⟩
  push _ h := h
  start h ht _ _ _ := ⟨ht.cells ▸ h.1, fun hc => h.2 (ht.opened_iff.1 hc)⟩
  execute h hruns :=
    ⟨(hruns.opened h.1 (a := a) (i := i)).1, fun hc => h.2 ((hruns.opened h.1).2 hc)⟩
  pop {s f _} h := ⟨f.size_closeFrom 0 s ▸ h.1, fun hc => h.2 (Frame.opened_of_closeFrom h.1 hc)⟩

/-- A cell that is open at the end was open all the time. -/
theorem Outcome.Run.opened (hr : Run host o o') (hlt : c < o.machine.store.cells.size)
    (hcell : o'.machine.store.cell c = .opened a i) :
    o.machine.store.cell c = .opened a i :=
  ((kept_opened c a i _).run ⟨hlt, id⟩ hr).2 hcell

theorem Entry.binds_after_of_mem (h : e.scope.Binds id x i) (hd : e.scope.Distinct)
    (hid : id ∈ e.after.map Block.id) : e.after.Binds id x i := by
  obtain ⟨S, use⟩ := e
  cases use with
  | close =>
    cases S with
    | nil => cases h
    | cons b S => exact h.of_mem_ids hd.ids hid
  | _ => exact h

/-- The call of the variable is in its block, where the variable has the slot `i`. -/
structure Variable.Inside (v : Variable) (D : Chart) (Q : Prototype) (i : Nat) (f : Frame) :
    Prop where
  call : f.activation = v.call
  prototype : f.prototype = Q
  binds : ∀ {e : Entry}, D.entries[f.ip]? = some e → e.scope.Binds v.block v.name i

/-- As long as the cell is open on the slot the call is in the block. -/
structure Variable.Anchored (v : Variable) (D : Chart) (Q : Prototype) (i base : Nat) (c : CellId)
    (s : Store) (fs : List Frame) : Prop extends Accounted base s fs where
  old : base ≤ c
  made : c < s.cells.size
  inside : s.cell c = .opened v.call i → ∃ f ∈ fs, v.Inside D Q i f

namespace Variable

theorem Inside.execute (h : v.Inside D Q i f) (hD : D.Matches around Q) (hsteady : D.steady = true)
    (hK : (v.block, v.name) ∈ D.captured) (hruns : Exec.Runs f s w op eff t)
    (hacc : Accounted base t (Exec.after eff :: rest)) (hbase : base ≤ c) (hlt : c < t.cells.size)
    (hcell : t.cell c = .opened v.call i) : v.Inside D Q i (Exec.after eff) := by
  obtain ⟨hact, rfl, hbinds⟩ := h
  have hcall := hruns.moves.sameCall
  have hlisted :=
    hacc.listed List.mem_cons_self hbase hlt (hcell.trans (by rw [hcall.activation, hact]))
  obtain ⟨e, he⟩ := hD.entry hruns.word
  have hafter := hruns.binds_after hD he hlt hlisted hcell (hbinds he)
  exact ⟨hcall.activation.trans hact, congrArg Closure.prototype hcall.closure,
    hruns.binds_next hD hsteady hK he hafter⟩

theorem kept_anchored (hD : D.Matches around Q) (hsteady : D.steady = true)
    (hK : (v.block, v.name) ∈ D.captured) : Kept (v.Anchored D Q i base c) where
  still h ht :=
    ⟨h.toAccounted.still ht, h.old, ht.cells ▸ h.made,
    fun hcell => h.inside (ht.opened_iff.1 hcell)⟩
  push u h := by
    refine ⟨(Accounted.kept base).push u h.toAccounted, h.old, h.made, fun hcell => ?_⟩
    obtain ⟨f, hf, hin⟩ := h.inside hcell
    rcases List.mem_cons.1 hf with rfl | hf
    · exact ⟨_, List.mem_cons_self, hin.call, hin.prototype, hin.binds⟩
    · exact ⟨f, List.mem_cons_of_mem _ hf, hin⟩
  start h ht ha hsize hlen := by
    refine ⟨(Accounted.kept base).start h.toAccounted ht ha hsize hlen, h.old, ht.cells ▸ h.made,
      fun hcell => ?_⟩
    obtain ⟨f, hf, hin⟩ := h.inside (ht.opened_iff.1 hcell)
    exact ⟨f, List.mem_cons_of_mem _ hf, hin⟩
  execute {s t f rest w op eff} h hruns := by
    obtain ⟨hlt, hopen⟩ := hruns.opened h.made
    have hacc := (Accounted.kept base).execute h.toAccounted hruns
    refine ⟨hacc, h.old, hlt, fun hcell => ?_⟩
    obtain ⟨g, hg, hin⟩ := h.inside (hopen hcell)
    rcases List.mem_cons.1 hg with rfl | hg
    · exact ⟨_, List.mem_cons_self, hin.execute hD hsteady hK hruns hacc h.old hlt hcell⟩
    · exact ⟨g, List.mem_cons_of_mem _ hg, hin⟩
  pop {s f rest} h := by
    have hacc := h.toAccounted.pop
    have hlt := f.size_closeFrom 0 s ▸ h.made
    refine ⟨hacc, h.old, hlt, fun hcell => ?_⟩
    obtain ⟨g, hg, hin⟩ := h.inside (Frame.opened_of_closeFrom h.made hcell)
    rcases List.mem_cons.1 hg with rfl | hg
    · obtain ⟨k, hk, hact, _⟩ := hacc.owner c h.old hlt _ _ hcell
      exact absurd (hact.trans hin.call.symm) (h.toAccounted.apart k hk)
    · exact ⟨g, hg, hin⟩

theorem Anchored.of_mem (h : v.Anchored D Q i base c s fs) (hcell : s.cell c = .opened v.call i)
    (hf : f ∈ fs) (hact : f.activation = v.call) : v.Inside D Q i f := by
  obtain ⟨g, hg, hin⟩ := h.inside hcell
  exact h.toAccounted.eq_of_activation hg hf (hin.call.trans hact.symm) ▸ hin

/-- The cell is open, unless the call has ended. -/
structure Opened (v : Variable) (D : Chart) (Q : Prototype) (i base : Nat) (c : CellId) (s : Store)
    (fs : List Frame) : Prop extends v.Anchored D Q i base c s fs where
  begun : v.call < s.activations.size
  cell : v.call ∈ fs.map Frame.activation → s.cell c = .opened v.call i

theorem stable_opened (hD : D.Matches around Q) (hsteady : D.steady = true)
    (hK : (v.block, v.name) ∈ D.captured) : Stable (v.Opened D Q i base c) where
  still h ht := ⟨(kept_anchored hD hsteady hK).still h.toAnchored ht, (ht.slots _ h.begun).1,
    fun hmem => ht.opened_iff.2 (h.cell hmem)⟩
  push u h := ⟨(kept_anchored hD hsteady hK).push u h.toAnchored, h.begun, h.cell⟩
  start h ht ha hsize hlen := by
    refine ⟨(kept_anchored hD hsteady hK).start h.toAnchored ht ha hsize hlen,
      (ht.slots _ h.begun).1, fun hmem => ?_⟩
    rcases List.mem_cons.1 hmem with heq | hmem
    · exact absurd h.begun (by rw [heq, ha]; exact Nat.lt_irrefl _)
    · exact ht.opened_iff.2 (h.cell hmem)
  pop {s f rest} h := by
    refine ⟨(kept_anchored hD hsteady hK).pop h.toAnchored, f.closeFrom_activations 0 s ▸ h.begun,
      fun hmem => ?_⟩
    have hcell := h.cell (List.mem_cons_of_mem _ hmem)
    rw [Frame.cell_closeFrom 0 h.made, if_neg, hcell]
    rintro ⟨hlisted, _⟩
    obtain ⟨_, _, j, hj⟩ := (h.neat f List.mem_cons_self).opened c hlisted
    obtain ⟨g, hg, hact⟩ := List.mem_map.1 hmem
    exact h.toAccounted.apart g hg (hact.trans (Cell.opened.inj (hcell.symm.trans hj)).1)

end Variable

/-- The next step captures the variable, at the instruction of `e` in its call `f`, in the cell of
its slot `i`. -/
structure Machine.Catches (host : Host) (C : Chart) (P : Prototype) (base : Nat) (m : Machine)
    (D : Chart) (v : Variable) (c : CellId) (f : Frame) (e : Entry) (i : Nat) : Prop where
  visits : m.Visits C P f D e
  call : f.activation = v.call
  captured : (v.block, v.name) ∈ D.captured
  binds : e.scope.Binds v.block v.name i
  old : base ≤ c
  made : c < (m.step host).machine.store.cells.size
  cell : (m.step host).machine.store.cell c = .opened v.call i

namespace Machine

theorem Visits.distinct (h : m.Visits C P f D e) (hC : Described [] C P) : e.scope.Distinct := by
  obtain ⟨around, hmatched⟩ := h.matched hC
  exact hmatched.distinct e (List.mem_of_getElem? h.entry)

/-- A step after which a cell is open executes the instruction. -/
theorem Visits.runs (h : m.Visits C P f D e) (hC : Described [] C P)
    (hacc : Accounted base (m.step host).machine.store (m.step host).machine.frames)
    (hbase : base ≤ c) (hlt : c < (m.step host).machine.store.cells.size)
    (hcell : (m.step host).machine.store.cell c = .opened a i) :
    ∃ rest w op eff, Exec.Runs f m.store w op eff (m.step host).machine.store ∧
      (m.step host).machine.frames = Exec.after eff :: rest := by
  rcases h.turns hC host with ⟨hnil, _⟩ | hruns
  · obtain ⟨g, hg, _⟩ := hacc.owner c hbase hlt _ _ hcell
    rw [hnil] at hg
    cases hg
  · exact hruns

/-- It keeps to the block of the variable whose cell it is. -/
theorem Visits.binds_after (h : m.Visits C P f D e) (hC : Described [] C P)
    (hacc : Accounted base (m.step host).machine.store (m.step host).machine.frames)
    (hact : f.activation = v.call) (hbase : base ≤ c)
    (hlt : c < (m.step host).machine.store.cells.size)
    (hcell : (m.step host).machine.store.cell c = .opened v.call i)
    (hbinds : e.scope.Binds v.block v.name i) : e.after.Binds v.block v.name i := by
  obtain ⟨around, hD⟩ := h.matched hC
  obtain ⟨rest, w, op, eff, hruns, hafter⟩ := h.runs hC hacc hbase hlt hcell
  rw [hafter] at hacc
  have hlisted := hacc.listed List.mem_cons_self hbase hlt
    (hcell.trans (by rw [hruns.moves.sameCall.activation, hact]))
  exact hruns.binds_after hD h.entry hlt hlisted hcell hbinds

theorem CapturesOwn.catches (h : m.CapturesOwn host C P D v c) (hC : Described [] C P)
    (hacc : Accounted base m.store m.frames) : ∃ f e i, m.Catches host C P base D v c f e i := by
  obtain ⟨f, e, hv, hact, hhome, hcaptures⟩ := h
  obtain ⟨rest, hfs⟩ := hv.frames
  rcases hcaptures.obtains hv hC (hacc.neat f (hfs ▸ List.mem_cons_self)).zero with
    ⟨slot, g, rest', hslot, ⟨id, hid, hK⟩, hfs', hlisted, hcell⟩ | ⟨hout, _⟩
  · cases hhome.symm.trans hid
    have hstep : Move host (.running m) (m.step host) := .step m
    have hacc' := (Accounted.kept base).move (o := .running m) hacc hstep
    obtain ⟨hbase, hlt, _⟩ := (hacc'.neat g (hfs' ▸ List.mem_cons_self)).opened c hlisted
    exact ⟨f, e, slot, hv, hact, hK, Scope.binds_of_home? (hv.distinct hC).names hslot hhome, hbase,
      hlt, hact ▸ hcell⟩
  · rw [Scope.home?_eq_none_iff.2 hout] at hhome
    cases hhome

namespace Catches

variable (hC : Described [] C P) (hsteady : C.steady = true)
  (hacc : ∀ o, Run host start o → Accounted base o.machine.store o.machine.frames)
  (hr : Run host start (.running m)) (h : m.Catches host C P base D v c f e i)

include hC hsteady hacc hr h

theorem anchored (hlater : Run host (m.step host) o) :
    v.Anchored D f.prototype i base c o.machine.store o.machine.frames := by
  obtain ⟨way, hwithin⟩ := h.visits.within
  have hD := hwithin.matched hC
  have hDsteady := hwithin.steady hC hsteady
  have hacc' := hacc _ (hr.move (.step m))
  refine (Variable.kept_anchored hD hDsteady h.captured).run
    ⟨hacc', h.old, h.made, fun _ => ?_⟩ hlater
  obtain ⟨rest, w, op, eff, hruns, hafter⟩ := h.visits.runs hC hacc' h.old h.made h.cell
  have hin : v.Inside D f.prototype i f := by
    refine ⟨h.call, rfl, fun he => ?_⟩
    cases h.visits.entry.symm.trans he
    exact h.binds
  rw [hafter] at hacc' ⊢
  exact ⟨_, List.mem_cons_self, hin.execute hD hDsteady h.captured hruns hacc' h.old h.made h.cell⟩

/-- The call is in the block whenever a step leaves the cell open. -/
theorem binds_of_opened (hlater : Run host (.running m) (.running m')) (hv : m'.Visits C P f' D e')
    (hact : f'.activation = v.call)
    (hcell : (m'.step host).machine.store.cell c = .opened v.call i) :
    e'.scope.Binds v.block v.name i := by
  obtain ⟨rest', hfs'⟩ := hv.frames
  rcases hlater.head with heq | hlater
  · cases heq
    obtain ⟨rest, hfs⟩ := h.visits.frames
    cases hfs.symm.trans hfs'
    cases h.visits.entry.symm.trans hv.entry
    exact h.binds
  · have hanchored := h.anchored hC hsteady hacc hr hlater
    have hstep : Run host (.running m') (m'.step host) := .move .refl (.step m')
    exact (hanchored.of_mem (hstep.opened hanchored.made hcell) (hfs' ▸ List.mem_cons_self)
      hact).binds hv.entry

theorem lasts (hlater : Run host (.running m') o)
    (hcell : o.machine.store.cell c = .opened v.call i) : v.Lasts host C P D m m' := by
  intro m₁ f₁ e₁ hr₁ hr₁' hv hact
  have hanchored := h.anchored hC hsteady hacc hr hr₁.steps
  have hcell₁ := (hr₁'.trans hlater).opened hanchored.made hcell
  have hbinds := h.binds_of_opened hC hsteady hacc hr hr₁ hv hact hcell₁
  exact (hv.binds_after hC hanchored.toAccounted hact h.old hanchored.made hcell₁ hbinds).mem_ids

/-- While the call stays in the block the cell is open. -/
theorem stays (hlasts : v.Lasts host C P D m m') (hcall : v.call ∈ m'.frames.map Frame.activation)
    (hlater : Run host (m.step host) (.running m')) : m'.store.cell c = .opened v.call i := by
  obtain ⟨way, hwithin⟩ := h.visits.within
  have hD := hwithin.matched hC
  have hDsteady := hwithin.steady hC hsteady
  have hanchored := h.anchored hC hsteady hacc hr .refl
  obtain ⟨g, hg, hgact, _⟩ := hanchored.owner c h.old h.made _ _ h.cell
  have hstart : v.Opened D f.prototype i base c (m.step host).machine.store
    (m.step host).machine.frames :=
    ⟨hanchored, hgact ▸ hanchored.slots g hg, fun _ => h.cell⟩
  refine ((Variable.stable_opened hD hDsteady h.captured).run hstart hlater ?_).cell hcall
  intro m₁ f₁ rest w op eff t hr₁ hr₁' hp hfs hruns hopened
  refine ⟨(Variable.kept_anchored hD hDsteady h.captured).execute hopened.toAnchored hruns,
    (hruns.ties.grows.slots _ hopened.begun).1, fun hmem => ?_⟩
  rw [List.map_cons, hruns.moves.sameCall.activation] at hmem
  have hcell := hopened.cell hmem
  refine hruns.opens hopened.made hcell fun hop hlisted => ?_
  -- an instruction that closed the slot would leave the block
  obtain ⟨_, _, j, hj⟩ := (hopened.neat f₁ List.mem_cons_self).opened c hlisted
  have hact := (Cell.opened.inj (hj.symm.trans hcell)).1
  have hin := hopened.toAnchored.of_mem hcell List.mem_cons_self hact
  rw [← hin.prototype] at hwithin hD
  obtain ⟨e₁, he₁⟩ := hD.entry hruns.word
  have hv : m₁.Visits C P f₁ D e₁ := ⟨hp, ⟨rest, hfs⟩, ⟨way, hwithin⟩, he₁⟩
  have hblock := hlasts m₁ f₁ e₁ (.trans (.move .refl (.step m)) hr₁) hr₁' hv hact
  exact hruns.lt_closed hD he₁ (Entry.binds_after_of_mem (hin.binds he₁) (hv.distinct hC) hblock)
    hop

/-- Two captures share a cell exactly if they are of one variable, and the call stays in its block
from the one to the other. -/
theorem eq_iff (h' : m'.Catches host C P base D' v' c' f' e' i')
    (hlater : Run host (.running m) (.running m')) (hD : v.call = v'.call → D = D') :
    c = c' ↔ v = v' ∧ v.Lasts host C P D m m' := by
  have hd := (h'.visits.distinct hC).names
  constructor
  · rintro rfl
    obtain ⟨hcall, rfl⟩ := Cell.opened.inj (h.cell.symm.trans (hlater.steps.opened h.made h'.cell))
    obtain rfl := hD hcall
    have hcell := h'.cell
    rw [← hcall] at hcell
    have hbinds :=
      h.binds_of_opened hC hsteady hacc hr hlater h'.visits (h'.call.trans hcall.symm) hcell
    have hname := Option.some.inj (hbinds.getElem?.symm.trans h'.binds.getElem?)
    have hblock := hbinds.home? hd
    rw [hname, h'.binds.home? hd] at hblock
    refine ⟨?_, h.lasts hC hsteady hacc hr (.move .refl (.step m')) hcell⟩
    obtain ⟨call, block, name⟩ := v
    obtain ⟨call', block', name'⟩ := v'
    cases hcall
    cases hname
    cases hblock
    rfl
  · rintro ⟨rfl, hlasts⟩
    obtain rfl := hD rfl
    have hacc' := hacc _ ((hr.trans hlater).move (.step m'))
    have hanchored := h.anchored hC hsteady hacc hr hlater.steps
    obtain ⟨rest, w, op, eff, hruns, _⟩ := h'.visits.runs hC hacc' h'.old h'.made h'.cell
    have hslot : e'.scope.Binds v.block v.name i → i = i' := fun hbinds =>
      Option.some.inj ((Scope.slot?_of_getElem? hd hbinds.getElem?).symm.trans
        (Scope.slot?_of_getElem? hd h'.binds.getElem?))
    have hcell : (m'.step host).machine.store.cell c = .opened v.call i' := by
      rcases hlater.head with heq | hlater
      · cases heq
        rw [← hslot (h.binds_of_opened hC hsteady hacc hr .refl h'.visits h'.call h.cell)]
        exact h.cell
      · obtain ⟨rest, hfs⟩ := h'.visits.frames
        have hmem : f' ∈ m'.frames := hfs ▸ List.mem_cons_self
        have hopen := h.stays hC hsteady hacc hr hlasts (List.mem_map.2 ⟨f', hmem, h'.call⟩) hlater
        have hanchored := h.anchored hC hsteady hacc hr hlater
        obtain rfl := hslot ((hanchored.of_mem hopen hmem h'.call).binds h'.visits.entry)
        refine hruns.opens hanchored.made hopen fun hop _ => ?_
        obtain ⟨around, hmatched⟩ := h'.visits.matched hC
        have hafter := h'.visits.binds_after hC hacc' h'.call h'.old h'.made h'.cell h'.binds
        exact hruns.lt_closed hmatched h'.visits.entry hafter hop
    exact hacc'.cell_unique ⟨h.old, hanchored.made, hcell⟩ ⟨h'.old, h'.made, h'.cell⟩

/-- A variable that is set up finds no cell on its slot but its own. -/
theorem init_own (hv : m'.Visits C P f' D' e') (hlater : Run host (m.step host) (.running m'))
    (hD : f'.activation = v.call → D' = D) {slot : Nat}
    (hinit : f'.prototype.Carries f'.ip (.wide .initLocal slot))
    (hcell : m'.store.cell c = .opened f'.activation slot) :
    f'.activation = v.call ∧ e'.use = .init v.name ∧ e'.scope.home? v.name = some v.block ∧
      v.Lasts host C P D m m' := by
  obtain ⟨hact, rfl⟩ := Cell.opened.inj (h.cell.symm.trans (hlater.opened h.made hcell))
  obtain rfl := hD hact.symm
  rw [← hact] at hcell
  obtain ⟨rest, hfs⟩ := hv.frames
  have hanchored := h.anchored hC hsteady hacc hr hlater
  have hbinds := (hanchored.of_mem hcell (hfs ▸ List.mem_cons_self) hact.symm).binds hv.entry
  obtain ⟨around, hmatched⟩ := hv.matched hC
  have hfits := hmatched.fits _ _ hv.entry
  obtain ⟨x, huse⟩ := (hfits.use hinit.word (Insn.op?_pack _)).2.1 rfl
  simp only [Entry.Fits, huse] at hfits
  obtain ⟨slot, hslot, hcarries⟩ := hfits
  obtain rfl : slot = i := (hcarries.c_eq hinit.word rfl).symm.trans (hinit.c_eq hinit.word rfl)
  obtain rfl := Option.some.inj (hbinds.getElem?.symm.trans (Scope.getElem?_of_slot? hslot))
  exact ⟨hact.symm, huse, hbinds.home? (hv.distinct hC).names,
    h.lasts hC hsteady hacc hr .refl hcell⟩

end Catches
end Machine

theorem Machine.capturesOwn_of_head (host : Host) (C : Chart) (x : String) (block : Nat)
    (c : CellId) (hfs : m.frames = f :: rest) (hP : f.prototype = P)
    (hhead : (m.pending.isNone && m.frames.head?.any fun f =>
      C.entries[f.ip]?.any (·.scope.home? x == some block)) = true)
    (hadded : ((m.added host).any fun q =>
      q.prototype.outers.map OuterInfo.name == [x] && q.captures[0]? == some c) = true) :
    (∃ e, m.Visits C P f C e) ∧ m.CapturesOwn host C P C ⟨f.activation, block, x⟩ c := by
  simp only [hfs, List.head?_cons, Option.any_some, Bool.and_eq_true,
    Option.isNone_iff_eq_none] at hhead
  obtain ⟨e, he, hhome⟩ := (Option.any_eq_true _ _).1 hhead.2
  obtain ⟨q, hq, h⟩ := List.any_eq_true.1 hadded
  obtain ⟨hname, hc⟩ := (Bool.and_eq_true _ _).mp h
  obtain ⟨o, ho, hname⟩ := List.map_eq_singleton_iff.1 (beq_iff_eq.1 hname)
  have hv : m.Visits C P f C e := ⟨hhead.1, ⟨rest, hfs⟩, ⟨[], hP ▸ .self⟩, he⟩
  exact ⟨⟨e, hv⟩, f, e, hv, rfl, beq_iff_eq.1 hhome,
    .function hq (by rw [ho]; rfl) hname (beq_iff_eq.1 hc)⟩

/-- Captures follow the activations of blocks in every program whose loops leave the names in scope
as they find them.

Every capture of a variable, by a function, a member of a type or a reference, is of the innermost
function around that has it in scope, and gives the cell that the call of this function captured it
in. Two such captures, by the calls that have the variables, give one cell exactly if they are of
one variable of one call, and the call stays in the block that declares it from the first one to the
second. No variable is set up on a slot on which another cell is open: the only one is that of the
variable itself, since the call came into its block. -/
theorem captures_follow_activations (host : Host) {source : String} {p : Prototype}
    (hp : compile source = .ok p)
    (hsteady : (Chart.ofProgram (readProgram source).items).steady = true) {m₀ : Machine}
    (hidle : m₀.frames = []) (args : List Value) {m : Machine}
    (hr : Run host (m₀.runPrototype p args) (.running m)) :
    (∀ {f : Frame} {D : Chart} {e : Entry} {x : String} {c : CellId} {ms : List Machine}
      {way : List (Scope × Prototype)}, m.Visits (.ofProgram (readProgram source).items) p f D e →
      m.Captures host e x c →
      Lexical (.ofProgram (readProgram source).items) p ms way D f.prototype →
      Outcome.Descends host (m₀.runPrototype p args) ⟨p, #[]⟩ f.closure ms →
      ∃ n slot m' D' v, Scope.lookup (e.scope :: way.map Prod.fst) x = some (n, slot) ∧
      (m :: ms)[n]? = some m' ∧
        m'.CapturesOwn host (.ofProgram (readProgram source).items) p D' v c ∧ v.name = x) ∧
    ∀ {D : Chart} {v : Variable} {c : CellId},
      m.CapturesOwn host (.ofProgram (readProgram source).items) p D v c →
      (∀ {m' : Machine} {D' : Chart} {v' : Variable} {c' : CellId},
        Run host (.running m) (.running m') →
        m'.CapturesOwn host (.ofProgram (readProgram source).items) p D' v' c' →
        (v.call = v'.call → D = D') →
        (c = c' ↔ v = v' ∧ v.Lasts host (.ofProgram (readProgram source).items) p D m m')) ∧
      ∀ {m' : Machine} {f : Frame} {D' : Chart} {e : Entry} {slot : Nat},
        Run host (m.step host) (.running m') →
        m'.Visits (.ofProgram (readProgram source).items) p f D' e →
          (f.activation = v.call → D' = D) →
        f.prototype.Carries f.ip (.wide .initLocal slot) →
          m'.store.cell c = .opened f.activation slot →
        f.activation = v.call ∧ e.use = .init v.name ∧ e.scope.home? v.name = some v.block ∧
          v.Lasts host (.ofProgram (readProgram source).items) p D m m' := by
  have hC := described_of_compile hp
  have hacc : ∀ o, Run host (m₀.runPrototype p args) o →
    Accounted _ o.machine.store o.machine.frames :=
    fun o => Outcome.accounted_runPrototype hidle p args
  refine ⟨fun hv hcaptures hlexical hdescends => ?_, fun hown => ?_⟩
  · refine hcaptures.origin hC (good_of_compile hp).1 (fun m hr f hf => ?_) hr hv hlexical hdescends
    exact ((hacc _ hr).neat f hf).zero
  · obtain ⟨f, e, i, hcatches⟩ := hown.catches hC (hacc _ hr)
    refine ⟨fun hlater hown' hD => ?_, fun hlater hv hD hinit hcell => ?_⟩
    · obtain ⟨f', e', i', hcatches'⟩ := hown'.catches hC (hacc _ (hr.trans hlater))
      exact hcatches.eq_iff hC hsteady hacc hr hcatches' hlater hD
    · exact hcatches.init_own hC hsteady hacc hr hv hlater hD hinit hcell

/-- Two functions that capture one variable. -/
def twins : String :=
  "var x = [fn() x, fn() x]"

/-- The machine that runs the text, after `k` steps. -/
def Machine.inTwins : Nat → Machine
  | 0 => ((⟨.empty, [], none, 0, 8⟩ : Machine).runPrototype (.ofText twins) []).machine
  | k + 1 => ((inTwins k).step noHost).machine

theorem Machine.frames_inTwins (houters : (Prototype.ofText twins).outers = []) :
    ∃ f, (inTwins 1).frames = [f] ∧ f.prototype = .ofText twins := by
  have harity : (Prototype.ofText twins).arity.accepts 0 = true := by decide +kernel
  have hslots : (Prototype.ofText twins).startable = true := by decide +kernel
  have hvariadic : (Prototype.ofText twins).variadic = false := by decide +kernel
  rw [inTwins, inTwins]
  generalize Prototype.ofText twins = P at houters harity hslots hvariadic
  have hstart : (runPrototype ⟨.empty, [], none, 0, 8⟩ P []).machine.step noHost =
      start ⟨{ Store.empty with closures := #[⟨P, #[]⟩] }, [], none, 0, 8⟩ ⟨P, #[]⟩
        none [] none := by
    rw [runPrototype, houters]
    rfl
  rw [hstart, start]
  simp only [List.length_nil, harity, hslots, Store.bindArguments, hvariadic]
  exact ⟨_, rfl, rfl⟩

/-- Both functions hold one cell, and so the call has stayed in the block. -/
theorem captures_follow_activations_twins :
    ∃ p m m' D v c, compile twins = .ok p ∧ Run noHost (m.step noHost) (.running m') ∧
      m.CapturesOwn noHost (.ofProgram (readProgram twins).items) p D v c ∧
      m'.CapturesOwn noHost (.ofProgram (readProgram twins).items) p D v c ∧
      v.Lasts noHost (.ofProgram (readProgram twins).items) p D m m' := by
  have hp : compile twins = .ok (.ofText twins) := compile_eq_ofText (by decide +kernel)
  have hmoves : ∀ k < 2, (Machine.inTwins k).step noHost = .running (Machine.inTwins (k + 1)) := by
    have hruns : ∀ k < 2, ((Machine.inTwins k).step noHost).isRunning = true := by decide +kernel
    exact fun k hk => Outcome.eq_running (hruns k hk)
  obtain ⟨f, hfs, hP⟩ := Machine.frames_inTwins (good_of_compile hp).1
  obtain ⟨⟨e, hv⟩, hfirst⟩ :=
    Machine.capturesOwn_of_head noHost (.ofProgram (readProgram twins).items) "x" 0 0 hfs hP
    (by decide +kernel) (by decide +kernel)
  rcases hv.turns (described_of_compile hp) noHost with ⟨hnil, _⟩
    | ⟨rest, w, op, eff, hruns, hafter⟩
  · have hbusy : ((Machine.inTwins 1).step noHost).machine.frames.isEmpty = false := by
      decide +kernel
    rw [hnil] at hbusy
    cases hbusy
  have hcall := hruns.moves.sameCall
  have hfs' : (Machine.inTwins 2).frames = Exec.after eff :: rest := hafter
  obtain ⟨_, hsecond⟩ :=
    Machine.capturesOwn_of_head noHost (.ofProgram (readProgram twins).items) "x" 0 0 hfs'
    ((congrArg Closure.prototype hcall.closure).trans hP) (by decide +kernel) (by decide +kernel)
  rw [hcall.activation] at hsecond
  have hr : Run noHost (Machine.runPrototype ⟨.empty, [], none, 0, 8⟩ (.ofText twins) [])
      (.running (Machine.inTwins 1)) :=
    hmoves 0 (by decide) ▸ .move .refl (.step _)
  have hlater : Run noHost ((Machine.inTwins 1).step noHost) (.running (Machine.inTwins 2)) :=
    hmoves 1 (by decide) ▸ .refl
  obtain ⟨_, hshare⟩ := captures_follow_activations noHost hp (by decide +kernel) rfl [] hr
  have hlasts :=
    (((hshare hfirst).1 (.trans (.move .refl (.step _)) hlater) hsecond fun _ => rfl).1 rfl).2
  exact ⟨_, _, _, _, _, _, hp, hlater, hfirst, hsecond, hlasts⟩

/-- A loop whose body declares a variable outside of a block of its own. -/
def leaking : String :=
  "var f = false; var i = 0;" ++
    "while i < 2 not [{ var x = i fn() x }, (var b = 10 + i), f = f or fn() b, i = i + 1]; f()"

/-- The variable `b` is 11 at the end, but the function that captured it gives the value of `x`. -/
theorem captures_mixed_leaking :
    (Chart.ofProgram (readProgram leaking).items).steady = false ∧ ∃ p, compile leaking = .ok p ∧
      ∃ m, Machine.run noHost 99 (Machine.runPrototype ⟨.empty, [], none, 0, 8⟩ p []).machine =
        .returned (.int 1) m :=
  ⟨by decide +kernel, _, compile_eq_ofText (by decide +kernel),
    Outcome.eq_returned (by decide +kernel)⟩

end Refscript
