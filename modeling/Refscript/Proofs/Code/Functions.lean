import Refscript.Proofs.Code.Balance
import Refscript.Proofs.Syntax.Parts

/-!
# Refscript.Proofs.Code.Functions

Names, functions and types in lowering: the parts of a construct that depend on the functions around
the one at hand.

A function that is finished is good (`Prototype.Good`) unless it was reported as too large, and the
variables that it captures are there in the function around it.
-/

namespace Refscript
namespace Lower

open Builder (Keeps Finishes WidensAll Linked)
open StackCheck

variable {base h h' k : Nat} {s t u : State} {b c : Builder} {body : TypeBody Node}
  {ds : List Diagnostic}

theorem Step.access {popped pushed : Nat} {insn : Insn} (hs : s.Sane)
    (hh : s.builder.height = base + (h + popped)) (hop : straight insn.op = true)
    (hadmits : ∀ P : Prototype, Finishes [] s.builder.mark s.builder P → P.Admits insn)
    (heff : insn.fits = true → effect? insn.op insn.pack = some (popped, pushed)) :
    Step anything s (base + (h + pushed)) (Balanced (h + popped) (h + pushed))
      (s.emit popped pushed insn) := by
  have hemit :=
    Step.emit (I := anything) hs trivial (hh.trans (Nat.add_assoc base h popped).symm)
    popped pushed insn
  rw [Nat.add_sub_cancel, Nat.add_assoc, Nat.add_assoc] at hemit
  refine { hemit with code := fun P hP => ?_ }
  exact balanced_insn base popped pushed (hemit.code P hP) hop
    (hadmits P (hP.of_keeps hemit.leads.keeps)) heff

theorem Step.widen {qs : List Builder} (hh : s.builder.height = h) (hwiden : s.builder.Widens c)
    (hall : WidensAll s.enclosing qs) (hlinked : Linked ds c qs) (hds : s.diagnostics <+: ds) :
    Step anything s h .none ⟨c, qs, ds⟩ := by
  refine .quiet ⟨hwiden.keeps, ?_, ?_, hlinked, hall, hds⟩ ?_ ?_ trivial
  · rw [hwiden.eq]
  · intro k v hk hv
    rw [hwiden.eq, List.getElem?_eq_none hk] at hv
    cases hv
  · rw [hwiden.eq]
    exact hh
  · rw [hwiden.eq]
    rfl

/-- The builder has the variable. -/
def Place.In (b : Builder) : Place → Prop
  | .loc slot => slot < b.maxLocals
  | .outer position => position < b.outers.length
  | .global => True

theorem yields_resolve (name : String) (hs : s.Sane) (hh : s.builder.height = h) :
    Yields (resolve name) s fun place t => Step anything s h .none t ∧ place.In t.builder := by
  obtain ⟨b, enclosing, ds⟩ := s
  simp only [Yields, resolve]
  split
  · rename_i slot hslot
    obtain ⟨l, hl, rfl⟩ := Builder.slot_of_localSlot? hslot
    exact ⟨_, _, rfl, .refl hs trivial hh, hs.sound.slots l hl⟩
  · split
    · rename_i position c qs hresolve
      obtain ⟨hlinked, hwiden, hall, hlt, _⟩ := Builder.resolveOuter?_spec hs hresolve
      exact ⟨_, _, rfl, .widen hh hwiden hall hlinked (List.prefix_refl _), hlt⟩
    · exact ⟨_, _, rfl, .refl hs trivial hh, trivial⟩

theorem balances_resolve {f : Place → LowerM Unit} (name : String)
    (hf : ∀ base place s, s.Sane → s.builder.height = base + h → place.In s.builder →
      Yields (f place) s fun _ t => Step anything s (base + h') (Balanced h h') t) :
    Balances (resolve name >>= f) h h' := by
  intro base s hs _ hh
  rw [yields_bind]
  refine (yields_resolve name hs hh).imp fun place t hr => ?_
  obtain ⟨hquiet, hplace⟩ := hr
  exact (hf base place t hquiet.leads.sane hquiet.height hplace).imp fun _ u hu => hquiet.after hu

theorem balances_load (name : String) : Balances (load name) h (h + 1) := by
  refine balances_resolve name fun base place s hs hh hplace => ?_
  cases place with
  | loc slot =>
    refine (yields_emitUnit (Nat.zero_le _) _ _).2 ?_
    exact .access hs hh rfl (fun P hP => Nat.lt_of_lt_of_le hplace hP.maxLocals) fun _ => rfl
  | outer position =>
    refine (yields_emitUnit (Nat.zero_le _) _ _).2 ?_
    exact .access hs hh rfl (fun P hP => Nat.lt_of_lt_of_le hplace hP.outers.length_le) fun _ => rfl
  | global =>
    exact balances_named .loadGlobal name rfl (fun _ _ hn => hn) (fun _ => rfl) base s hs trivial hh

theorem balances_store (name : String) : Balances (store name) (h + 1) (h + 1) := by
  refine balances_resolve name fun base place s hs hh hplace => ?_
  cases place with
  | loc slot =>
    refine (yields_emitUnit (by omega) _ _).2 ?_
    exact .access hs hh rfl (fun P hP => Nat.lt_of_lt_of_le hplace hP.maxLocals) fun _ => rfl
  | outer position =>
    refine (yields_emitUnit (by omega) _ _).2 ?_
    exact .access hs hh rfl (fun P hP => Nat.lt_of_lt_of_le hplace hP.outers.length_le) fun _ => rfl
  | global =>
    exact balances_named .storeGlobal name rfl (fun _ _ hn => hn) (fun _ => rfl) base
      s hs trivial hh

theorem effect_ref {kind : RefKind} {b : Nat}
    (hfits : (Insn.split .ref kind.number b).fits = true) :
    effect? .ref (Insn.split .ref kind.number b).pack =
      some (match kind with | .index => 2 | .field => 1 | _ => 0, 1) := by
  have ha : (Insn.split .ref kind.number b).pack.a = kind.number := Insn.a_pack rfl hfits
  simp only [effect?, ha]
  cases kind <;> rfl

theorem balances_refer (name : String) : Balances (refer name) h (h + 1) := by
  refine balances_resolve name fun base place s hs hh hplace => ?_
  cases place with
  | loc slot =>
    have hwiden := s.builder.widens_markCaptured slot
    have hmark :
      Step anything s (base + h) .none { s with builder := s.builder.markCaptured slot } :=
      .quiet (.builder hs hwiden.keeps rfl rfl rfl (hwiden.sound hs.sound)) hh rfl trivial
    rw [yields_bind, yields_build (a := ()) (b := s.builder.markCaptured slot) rfl]
    refine (yields_emitUnit (Nat.zero_le _) _ _).2 ?_
    refine hmark.after (.access hmark.leads.sane hmark.height rfl (fun P hP => ?_) effect_ref)
    exact Nat.lt_of_lt_of_le hplace hP.maxLocals
  | outer position =>
    refine (yields_emitUnit (Nat.zero_le _) _ _).2 ?_
    exact .access hs hh rfl (fun P hP => Nat.lt_of_lt_of_le hplace hP.outers.length_le) effect_ref
  | global =>
    refine balances_pooled (.str name) (fun _ => rfl) (fun P n hn => ?_) (fun n => effect_ref) base
      s hs trivial hh
    exact stringConstant?_isSome hn

/-- The builder has the slot of a declared name. -/
def Declared (b : Builder) (slot : Option Nat) : Prop :=
  ∀ k, slot = some k → k < b.maxLocals

theorem Declared.mono {slot : Option Nat} (h : Declared b slot) (hkeeps : Keeps b c) :
    Declared c slot :=
  fun k hk => Nat.lt_of_lt_of_le (h k hk) hkeeps.maxLocals

theorem Step.addLocal {name : String} {slot : Nat} (hs : s.Sane) (hh : s.builder.height = h)
    (hadd : s.builder.addLocal? name = some (slot, b)) :
    Step anything s h .none { s with builder := b } := by
  obtain ⟨hsound, _⟩ := hs.sound.addLocal hadd
  unfold Builder.addLocal? at hadd
  split at hadd
  · cases hadd
  · cases hadd
    refine .quiet
      (.builder hs { Keeps.refl s.builder with maxLocals := Nat.le_max_left _ _ } rfl rfl
      rfl hsound) ?_ ?_ trivial
    · exact hh
    · rfl

theorem yields_declareLocal (name : String) (pos : Position) (hs : s.Sane)
    (hh : s.builder.height = h) :
    Yields (declareLocal name pos) s fun slot t => Step anything s h .none t ∧
      Declared t.builder slot := by
  unfold declareLocal
  rw [yields_bind, yields_get]
  split
  · rename_i slot b hadd
    refine ⟨some slot, { s with builder := b }, rfl, .addLocal hs hh hadd, ?_⟩
    intro k hk
    cases hk
    exact (hs.sound.addLocal hadd).2
  · rw [yields_bind, yields_report, yields_pure]
    exact ⟨.report hs trivial hh _, fun k hk => by cases hk⟩

theorem yields_isRoot {R : Bool → State → Prop} :
    Yields isRoot s R ↔ R (s.enclosing.isEmpty && s.builder.scopeDepth == 0) s := by
  simp only [isRoot, yields_bind, yields_get, yields_pure]

theorem yields_declareBinding (name : String) (pos : Position) (hs : s.Sane)
    (hh : s.builder.height = h) :
    Yields (declareBinding name pos) s fun slot t => Step anything s h .none t ∧
      Declared t.builder slot := by
  unfold declareBinding
  rw [yields_bind, yields_isRoot]
  split
  · exact yields_pure.2 ⟨.refl hs trivial hh, fun k hk => by cases hk⟩
  · exact yields_declareLocal name pos hs hh

theorem yields_initLocal (base h : Nat) {slot : Nat} (hs : s.Sane)
    (hh : s.builder.height = base + (h + 1)) (hslot : slot < s.builder.maxLocals) :
    Yields (build (.initLocal slot)) s fun _ t =>
      Step anything s (base + (h + 1)) (Balanced (h + 1) (h + 1)) t := by
  refine (yields_emitUnit (by omega) _ _).2 ?_
  exact .access hs hh rfl (fun P hP => Nat.lt_of_lt_of_le hslot hP.maxLocals) fun _ => rfl

theorem yields_bindName (base h : Nat) {name : String} {slot : Option Nat} (hs : s.Sane)
    (hh : s.builder.height = base + (h + 1)) (hslot : Declared s.builder slot) :
    Yields (bindName name slot) s fun _ t =>
      Step anything s (base + (h + 1)) (Balanced (h + 1) (h + 1)) t := by
  cases slot with
  | some slot => exact yields_initLocal base h hs hh (hslot slot rfl)
  | none =>
    unfold bindName
    rw [yields_bind, yields_isRoot]
    split
    · exact balances_named .storeGlobal name rfl (fun _ _ hn => hn) (fun _ => rfl) base
        s hs trivial hh
    · exact balances_pure base s hs trivial hh

/-- The invariant holds however lowering goes on. -/
def Invariant.Lasts (I : Invariant) : Prop :=
  ∀ {s t : State}, Leads s t → I.holds s → I.holds t

theorem anything_lasts : anything.Lasts :=
  fun _ _ => trivial

theorem Step.lasting {I : Invariant} {A : Shape} (hI : I.Lasts) (ht : Step anything s h A t)
    (hs : I.holds s) : Step I s h A t :=
  { ht with holds := hI ht.leads hs }

section

variable {I J : Invariant} {A : Shape} {y : LowerM Unit}

theorem threads_declared {declare : LowerM (Option Nat)} {use : Option Nat → LowerM Unit}
    (base h : Nat) (hI : I.Lasts) (hJ : J.Lasts)
    (hdeclare : ∀ s : State, s.Sane → s.builder.height = base + h →
      Yields declare s fun slot t => Step anything s (base + h) .none t ∧ Declared t.builder slot)
    (huse : ∀ (slot : Option Nat) (s : State), s.Sane → s.builder.height = base + (h + 1) →
      Declared s.builder slot →
      Yields (use slot) s fun _ t => Step anything s (base + (h + 1)) (Balanced (h + 1) (h + 1)) t)
    (hy : Threads I J y (base + h) (base + (h + 1)) A) :
    Threads I J (do let slot ← declare; y; use slot) (base + h) (base + (h + 1))
      (A.seq (Balanced (h + 1) (h + 1))) := by
  intro s hs hholds hh
  rw [yields_bind]
  refine (hdeclare s hs hh).imp fun slot t hr => ?_
  obtain ⟨ht, hslot⟩ := hr
  have ht := ht.lasting hI hholds
  rw [yields_bind]
  refine (hy t ht.leads.sane ht.holds ht.height).imp fun _ u hu => ?_
  refine (huse slot u hu.leads.sane hu.height (hslot.mono hu.leads.keeps)).imp fun _ v hv => ?_
  exact ht.after (hu.seq (hv.lasting hJ hu.holds))

theorem threads_bound (base h : Nat) (name : String) (pos : Position) (hI : I.Lasts) (hJ : J.Lasts)
    (hy : Threads I J y (base + h) (base + (h + 1)) A) :
    Threads I J (do
      let slot ← declareLocal name pos
      y
      match slot with
      | some slot => build (.initLocal slot)
      | none => pure ()) (base + h) (base + (h + 1)) (A.seq (Balanced (h + 1) (h + 1))) := by
  refine threads_declared base h hI hJ (fun s hs hh => yields_declareLocal name pos hs hh) ?_ hy
  intro slot s hs hh hslot
  cases slot with
  | none => exact balances_pure base s hs trivial hh
  | some slot => exact yields_initLocal base h hs hh (hslot slot rfl)

theorem threads_definition (base h : Nat) (name : String) (pos : Position) (hI : I.Lasts)
    (hJ : J.Lasts) (hy : Threads I J y (base + h) (base + (h + 1)) A) :
    Threads I J (do let slot ← declareBinding name pos; y; bindName name slot) (base + h)
      (base + (h + 1)) (A.seq (Balanced (h + 1) (h + 1))) :=
  threads_declared base h hI hJ (fun _ hs hh => yields_declareBinding name pos hs hh)
    (fun _ _ hs hh hslot => yields_bindName base h hs hh hslot) hy

theorem Balances.bound (name : String) (pos : Position) (hy : Balances y h (h + 1)) :
    Balances (do
      let slot ← declareLocal name pos
      y
      match slot with
      | some slot => build (.initLocal slot)
      | none => pure ()) h (h + 1) :=
  fun base => (threads_bound base h name pos anything_lasts anything_lasts (hy base)).imp
    fun _ _ _ => Balanced.seq

theorem Balances.definition (name : String) (pos : Position) (hy : Balances y h (h + 1)) :
    Balances (do let slot ← declareBinding name pos; y; bindName name slot) h (h + 1) :=
  fun base =>
    (threads_definition base h name pos anything_lasts anything_lasts (hy base)).imp fun _ _ _ =>
    Balanced.seq

end

theorem yields_declareParameters (pos : Position) (params : List String) (hs : s.Sane)
    (hh : s.builder.height = h) :
    Yields (params.forM (declareParameter pos)) s fun _ t => Step anything s h .none t := by
  induction params generalizing s with
  | nil => exact yields_pure.2 (.refl hs trivial hh)
  | cons name params ih =>
    rw [List.forM, yields_bind, declareParameter, yields_bind, yields_get]
    -- the parameter is declared or reported, and then come the others
    have hnext : ∀ t, Step anything s h .none t →
        Yields (params.forM (declareParameter pos)) t fun _ u => Step anything s h .none u :=
      fun t ht => (ih ht.leads.sane ht.height).imp fun _ u hu => ht.after hu
    split
    · rename_i slot b hadd
      obtain ⟨⟨slot', c⟩, hc, heq⟩ := Option.map_eq_some_iff.1 hadd
      cases heq
      have hlocal := Step.addLocal hs hh hc
      have hcount : Step anything { s with builder := c } h .none
          { s with builder := { c with params := c.params + 1 } } :=
        .quiet (.builder hlocal.leads.sane { Keeps.refl c with } rfl rfl rfl
          { hlocal.leads.sane.sound with }) hlocal.height rfl trivial
      exact ⟨(), _, rfl, hnext _ (hlocal.after hcount)⟩
    · exact yields_report pos _ |>.2 (hnext _ (.report hs trivial hh _))

theorem finishes_build (hfits : ∀ (k : Nat) (i : Insn), b.code[k]? = some i → i.fits = true) :
    Finishes [] ⟨0, 0⟩ b b.build := by
  refine ⟨fun k i _ _ hi => ⟨?_, hfits k i hi⟩, fun _ _ _ => rfl, List.prefix_refl _,
    List.prefix_refl _, List.prefix_refl _, List.prefix_refl _, Nat.le_refl _, Nat.le_refl _⟩
  show (b.code.map Insn.pack)[k]? = some i.pack
  rw [Array.getElem?_map, hi]
  rfl

theorem finishes_of_packed {P : Prototype} (h : P.PackedFrom b) : Finishes [] ⟨0, 0⟩ b P := by
  obtain ⟨rfl, hfits⟩ := h
  refine finishes_build fun k i hi => hfits i (List.mem_of_getElem? (i := k) ?_)
  rw [Array.getElem?_toList]
  exact hi

/-- A function whose code keeps count, from nothing to at most one value, is good if nothing was too
large. -/
theorem good_build (hsound : b.Sound ds) (hfit : SizesFit ds)
    (hfilled : ∀ (k : Nat) (u : JumpTable), b.tables[k]? = some u → u.HasDefault) (hk : k ≤ 1)
    (hcode : Balanced 0 k b.build 0 b.position) : b.build.Good := by
  have hlength : b.build.code.size = b.position := Array.size_map
  have hnested : ∀ q ∈ b.build.nested, q.Good ∧ q.Packed := hsound.nested hfit
  refine ⟨?_, ?_, .intro (fun q hq => (hnested q hq).2) fun q hq => (hnested q hq).1.packed⟩
  · refine (check_ok_iff b.build).2
      ⟨Segment.check (h := k) ?_ hk, fun q hq => (hnested q hq).1.heights⟩
    rw [hlength]
    exact hcode
  · refine .intro (fun k hk => ?_) hsound.members (fun u hu => ?_) (fun q hq o ho => ?_) fun q hq =>
      (hnested q hq).1.operands
    · exact Segment.has hcode (Nat.zero_le k) (by rw [← hlength]; exact hk)
    · obtain ⟨k, hk⟩ := List.getElem?_of_mem hu
      exact hfilled k u hk
    · exact hsound.captures q hq o ho

/-- What the function around gets: a function that is good if nothing was too large, and whose
captured variables the function around has. -/
def Finished (p : Prototype) (t : State) : Prop :=
  (SizesFit t.diagnostics → p.Good ∧ p.Packed) ∧ ∀ o ∈ p.outers, t.builder.Provides o

theorem yields_checkSize (pos : Position) (hs : s.Sane) (hh : s.builder.height = h) :
    Yields (checkSize pos) s fun _ t =>
      Step anything s h .none t ∧ t.builder = s.builder ∧ t.enclosing = s.enclosing ∧
        (SizesFit t.diagnostics → s.builder.oversized = false) := by
  rw [checkSize, yields_bind, yields_get]
  dsimp only
  split
  · rw [yields_report]
    refine ⟨.report hs trivial hh _, rfl, rfl, fun hfit => ?_⟩
    exact absurd rfl (hfit _ (List.mem_append_right _ List.mem_cons_self) _)
  · rename_i hsize
    exact yields_pure.2 ⟨.refl hs trivial hh, rfl, rfl, fun _ => by simpa using hsize⟩

theorem yields_leave {s₀ : State} {name : Option String} (pos : Position)
    (hnew : s₀.builder = .new name) (st : Step anything s₀ k (Balanced 0 k) s) (hk : k ≤ 1) :
    Yields (leave pos) s fun p t => p = s.builder.build ∧
      (SizesFit t.diagnostics → p.Good ∧ p.PackedFrom s.builder) ∧
      ∃ ds, s.diagnostics <+: ds ∧
        t = match s.enclosing with
          | parent :: rest => ⟨parent, rest, ds⟩
          | [] => ⟨.new none, [], ds⟩ := by
  rw [leave, yields_bind]
  refine (yields_checkSize pos st.leads.sane st.height).imp fun _ u hr => ?_
  obtain ⟨hu, hbuilder, henclosing, hsize⟩ := hr
  obtain ⟨b, enclosing, ds⟩ := u
  subst hbuilder henclosing
  have hgood : SizesFit ds → s.builder.build.Good ∧ s.builder.build.PackedFrom s.builder := by
    intro hfit
    have hsound := hu.leads.sane.sound
    have hfinish := finishes_build (hsound.fits (hsize hfit))
    have hcode := st.code s.builder.build (hfinish.mono (Nat.zero_le _) (Nat.zero_le _))
    rw [hnew] at hcode
    refine ⟨good_build hsound hfit (fun k v hv => st.leads.filled k v ?_ hv) hk hcode, rfl,
      fun i hi => ?_⟩
    · rw [hnew]
      exact Nat.zero_le k
    · obtain ⟨k, hk⟩ := List.getElem?_of_mem hi
      exact hsound.fits (hsize hfit) k i (by rw [← Array.getElem?_toList]; exact hk)
  cases henc : s.enclosing with
  | nil | cons parent rest => exact ⟨_, _, rfl, rfl, hgood, ds, hu.leads.diagnostics, rfl⟩

/-- The state in which the body of a function inside the one at hand is lowered. -/
def State.inside (s : State) (name : Option String) : State :=
  ⟨.new name, s.builder :: s.enclosing, s.diagnostics⟩

theorem yields_enter (name : Option String) (pos : Position) (params : List String)
    (variadic : Bool) (hs : s.Sane) : Yields (enter name pos params variadic) s fun _ t =>
      Step anything (s.inside name) 0 .none t := by
  have hinside : (s.inside name).Sane := ⟨.new _ _, fun _ ho => (List.not_mem_nil ho).elim, hs⟩
  simp only [enter, yields_bind]
  refine ⟨(), s.inside name, rfl, ?_⟩
  dsimp only
  refine (emits_setLine (I := anything) pos.line _ hinside trivial rfl).imp fun _ t ht => ?_
  refine (yields_declareParameters pos params ht.leads.sane ht.height).imp fun _ u hu => ?_
  have hparams := ht.after hu
  split
  · have hvariadic : Leads u { u with builder := { u.builder with variadic := true } } :=
      .builder hparams.leads.sane { Keeps.refl u.builder with } rfl rfl rfl
        { hparams.leads.sane.sound with }
    refine (yields_build (a := ()) (b := { u.builder with variadic := true }) rfl).2 ?_
    exact hparams.after (.quiet hvariadic hparams.height rfl trivial)
  · exact yields_pure.2 hparams

theorem yields_body (name : Option String) (pos : Position) (params : List String) (variadic : Bool)
    {body : Node} (hbody : Balances (node body) 0 1) (hs : s.Sane) :
    Yields (do enter name pos params variadic; node body) s fun _ u =>
      Step anything (s.inside name) 1 (Balanced 0 1) u := by
  rw [yields_bind]
  refine (yields_enter name pos params variadic hs).imp fun _ t ht => ?_
  exact (hbody 0 t ht.leads.sane trivial ht.height).imp fun _ u hu => ht.after hu

theorem yields_within (name : Option String) (pos : Position) (params : List String)
    (variadic : Bool) {body : Node} (hbody : Balances (node body) 0 1) (hs : s.Sane)
    (hh : s.builder.height = h) :
    Yields (do enter name pos params variadic; node body; leave pos) s fun p t =>
      Step anything s h .none t ∧ Finished p t := by
  obtain ⟨_, u, hrun, hall⟩ := yields_body name pos params variadic hbody hs
  rw [← bind_assoc, yields_bind]
  refine ⟨(), u, hrun, ?_⟩
  refine (yields_leave pos rfl hall (Nat.le_refl 1)).imp fun p v hr => ?_
  obtain ⟨hp, hgood, ds, hds, hv⟩ := hr
  have hpacked : SizesFit v.diagnostics → p.Good ∧ p.Packed := fun hfit =>
    ⟨(hgood hfit).1, name, pos, params, variadic, body, s, u, hrun, (hgood hfit).2⟩
  obtain ⟨b, enclosing, ds'⟩ := u
  -- the function around is still there, and it may have been widened
  cases enclosing with
  | nil => exact hall.leads.enclosing.elim
  | cons parent rest =>
    subst hp hv
    obtain ⟨hwiden, hothers⟩ := hall.leads.enclosing
    obtain ⟨_, houters, hlinked⟩ := hall.leads.sane
    exact ⟨.widen hh hwiden hothers (hlinked.report hds) (hall.leads.diagnostics.trans hds),
      hpacked, houters⟩

theorem yields_closure (base h : Nat) {p : Prototype} (hp : Finished p s) (hs : s.Sane)
    (hh : s.builder.height = base + h) :
    Yields (build (.closure p)) s fun _ t =>
      Step anything s (base + (h + 1)) (Balanced h (h + 1)) t := by
  have hadd : Leads s { s with builder := (s.builder.addNested p).2 } :=
    .builder hs { Keeps.refl s.builder with nested := List.prefix_append _ _ } rfl rfl rfl
      (hs.sound.addNested hp.1 hp.2)
  have hnested : Step anything s (base + h) .none { s with builder := (s.builder.addNested p).2 } :=
    .quiet hadd hh rfl trivial
  refine (yields_build (emitUnit_run (b := (s.builder.addNested p).2) (Nat.zero_le _) 1
    (.wide .closure s.builder.nested.length))).2 ?_
  refine hnested.after (.access hnested.leads.sane hh rfl (fun P hP => ?_) fun _ => rfl)
  have hle := hP.nested.length_le
  simp only [Builder.addNested, List.length_append, List.length_singleton] at hle
  exact hle

theorem balances_closure {f : Function Node} (name : Option String) (pos : Position)
    (hf : Balances (node f.body) 0 1) :
    Balances (do build (.closure (← function name pos f))) h (h + 1) := by
  obtain ⟨params, variadic, body⟩ := f
  intro base s hs _ hh
  rw [function, yields_bind]
  refine (yields_within name pos params variadic hf hs hh).imp fun p t hr => ?_
  obtain ⟨ht, hp⟩ := hr
  exact (yields_closure base h hp ht.leads.sane ht.height).imp fun _ u hu => ht.after hu

/-- All of the places are of functions inside. -/
def Nested (b : Builder) (ks : List Nat) : Prop :=
  ∀ k ∈ ks, k < b.nested.length

theorem Nested.mono {ks : List Nat} (h : Nested b ks) (hkeeps : Keeps b c) : Nested c ks :=
  fun k hk => Nat.lt_of_lt_of_le (h k hk) hkeeps.nested.length_le

theorem yields_memberFunction {f : Function Node} (typeName : String) (pos : Position)
    (name : String) (hf : Balances (node f.body) 0 1) (hs : s.Sane) (hh : s.builder.height = h) :
    Yields (memberFunction typeName pos name f) s fun k t => Step anything s h .none t ∧
      Nested t.builder [k] := by
  obtain ⟨params, variadic, body⟩ := f
  have hwithin := yields_within (some (typeName ++ "." ++ name)) pos params variadic hf hs hh
  simp only [memberFunction, yields_bind] at hwithin ⊢
  refine hwithin.imp fun _ t ht => ht.imp fun _ u hu => hu.imp fun p v hr => ?_
  obtain ⟨hv, hp⟩ := hr
  have hadd : Leads v { v with builder := (v.builder.addNested p).2 } :=
    .builder hv.leads.sane { Keeps.refl v.builder with nested := List.prefix_append _ _ }
      rfl rfl rfl (hv.leads.sane.sound.addNested hp.1 hp.2)
  refine (yields_build (a := v.builder.nested.length) (b := (v.builder.addNested p).2) rfl).2 ?_
  refine ⟨hv.after (.quiet hadd hv.height rfl trivial), fun k hk => ?_⟩
  rw [List.mem_singleton.1 hk]
  simp [Builder.addNested]

/-- The functions become members of a type, one after the other, and get the places. -/
inductive Joins (pos : Position) : List (Function Node) → State → List Nat → State → Prop where
  | nil {s : State} : Joins pos [] s [] s
  | cons {f : Function Node} {fs : List (Function Node)} {k : Nat} {ks : List Nat} {s t u : State}
      (typeName name : String) : memberFunction typeName pos name f s = .ok k t →
        Joins pos fs t ks u →
      Joins pos (f :: fs) s (k :: ks) u

namespace Joins

variable {pos : Position} {fs gs : List (Function Node)} {ks ls : List Nat}

theorem append (h : Joins pos fs s ks t) (h' : Joins pos gs t ls u) :
    Joins pos (fs ++ gs) s (ks ++ ls) u := by
  induction h with
  | nil => exact h'
  | cons typeName name hrun _ ih => exact .cons typeName name hrun (ih h')

theorem length (h : Joins pos fs s ks t) : ks.length = fs.length := by
  induction h with
  | nil => rfl
  | cons _ _ _ _ ih => rw [List.length_cons, List.length_cons, ih]

theorem step (hjoins : Joins pos fs s ks t) (hfs : ∀ f ∈ fs, Balances (node f.body) 0 1)
    (hs : s.Sane) (hh : s.builder.height = h) :
    Step anything s h .none t ∧ Nested t.builder ks := by
  induction hjoins with
  | nil => exact ⟨.refl hs trivial hh, fun _ hk => (List.not_mem_nil hk).elim⟩
  | cons typeName name hrun _ ih =>
    obtain ⟨hf, hfs⟩ := List.forall_mem_cons.1 hfs
    obtain ⟨ht, hk⟩ := (yields_memberFunction typeName pos name hf hs hh).of_run hrun
    obtain ⟨hu, hks⟩ := ih hfs ht.leads.sane ht.height
    exact ⟨ht.after hu, List.forall_mem_cons.2 ⟨hk.mono hu.leads.keeps _ List.mem_cons_self, hks⟩⟩

end Joins

theorem yields_optionalMember {f : Option (Function Node)} (typeName : String) (pos : Position)
    (name : String) (hf : ∀ g ∈ f.toList, Balances (node g.body) 0 1) (hs : s.Sane)
    (hh : s.builder.height = h) :
    Yields (optionalMember typeName pos name f) s fun k t => Joins pos f.toList s k.toList t := by
  cases f with
  | none => exact yields_pure.2 .nil
  | some f =>
    obtain ⟨k, t, hrun, _⟩ :=
      yields_memberFunction typeName pos name (hf f List.mem_cons_self) hs hh
    rw [optionalMember, yields_bind]
    exact ⟨k, t, hrun, yields_pure.2 (.cons typeName name hrun .nil)⟩

theorem yields_members (typeName : String) (pos : Position) (ms : List (Member Node))
    (hms : ∀ f ∈ ms.map Member.function, Balances (node f.body) 0 1) (hs : s.Sane)
    (hh : s.builder.height = h) :
    Yields (members typeName pos ms) s fun r t =>
      Joins pos (ms.map Member.function) s (r.map Prod.snd) t := by
  induction ms generalizing s with
  | nil => exact yields_pure.2 .nil
  | cons m ms ih =>
    obtain ⟨name, f⟩ := m
    obtain ⟨hf, hrest⟩ := List.forall_mem_cons.1 hms
    obtain ⟨k, t, hrun, ht, _⟩ := yields_memberFunction typeName pos name hf hs hh
    simp only [members, member, yields_bind, yields_pure]
    exact ⟨k, t, hrun, (ih hrest ht.leads.sane ht.height).imp fun r u hu =>
      .cons typeName name hrun hu⟩

/-- The members are created in another order than they are lowered: the methods come last. -/
theorem yields_typeBody (pos : Position) (hbody : ∀ f ∈ body.functions, Balances (node f.body) 0 1)
    (hs : s.Sane) (hh : s.builder.height = h) :
    Yields (typeBody pos body) s fun info t => ∃ specials methods operators,
      Joins pos body.functions s (specials ++ methods ++ operators) t ∧
      specials.length = body.ctor.toList.length + body.invoke.toList.length ∧
        methods.length = body.methods.length ∧
      info.members = specials ++ operators ++ methods := by
  obtain ⟨name, ctor, methods, prefixOps, infixOps, invoke⟩ := body
  simp only [TypeBody.functions, List.forall_mem_append] at hbody
  obtain ⟨⟨⟨⟨hctor, hinvoke⟩, hmethods⟩, hprefix⟩, hinfix⟩ := hbody
  simp only [typeBody, yields_bind, yields_pure]
  refine (yields_optionalMember name pos "ctor" hctor hs hh).imp fun c s₁ h₁ => ?_
  have st₁ := (h₁.step hctor hs hh).1
  refine (yields_optionalMember name pos "invoke" hinvoke st₁.leads.sane st₁.height).imp
    fun v s₂ h₂ => ?_
  have st₂ := (h₂.step hinvoke st₁.leads.sane st₁.height).1
  refine (yields_members name pos methods hmethods st₂.leads.sane st₂.height).imp fun ms s₃ h₃ => ?_
  have st₃ := (h₃.step hmethods st₂.leads.sane st₂.height).1
  refine (yields_members name pos prefixOps hprefix st₃.leads.sane st₃.height).imp fun ps s₄ h₄ =>
    ?_
  have st₄ := (h₄.step hprefix st₃.leads.sane st₃.height).1
  refine (yields_members name pos infixOps hinfix st₄.leads.sane st₄.height).imp fun is s₅ h₅ => ?_
  refine ⟨c.toList ++ v.toList, ms.map Prod.snd, ps.map Prod.snd ++ is.map Prod.snd, ?_, ?_, ?_, ?_⟩
  · rw [← List.append_assoc]
    exact (((h₁.append h₂).append h₃).append h₄).append h₅
  · rw [List.length_append, h₁.length, h₂.length]
  · rw [h₃.length, List.length_map]
  · simp only [TypeInfo.members, List.append_assoc]

theorem yields_makeType (base h : Nat) {t : TypeInfo} (ht : Nested s.builder t.members)
    (hs : s.Sane) (hh : s.builder.height = base + h) : Yields (build (.makeType t)) s fun _ u =>
      Step anything s (base + (h + 1)) (Balanced h (h + 1)) u := by
  have hadd : Leads s { s with builder := { s.builder with types := s.builder.types ++ [t] } } :=
    .builder hs { Keeps.refl s.builder with types := List.prefix_append _ _ } rfl rfl rfl
      (hs.sound.addType ht)
  refine (yields_build
    (emitUnit_run (b := { s.builder with types := s.builder.types ++ [t] }) (Nat.zero_le _) 1
    (.wide .makeType s.builder.types.length))).2 ?_
  have htype : Step anything s (base + h) .none _ := .quiet hadd hh rfl trivial
  refine htype.after (.access htype.leads.sane hh rfl (fun P hP => ?_) fun _ => rfl)
  have hle := hP.types.length_le
  simp only [List.length_append, List.length_singleton] at hle
  exact hle

theorem nested_typeBody (pos : Position) (hbody : ∀ f ∈ body.functions, Balances (node f.body) 0 1)
    (hs : s.Sane) (hh : s.builder.height = h) :
    Yields (typeBody pos body) s fun info t => Step anything s h .none t ∧
      Nested t.builder info.members := by
  refine (yields_typeBody pos hbody hs hh).imp fun info t hr => ?_
  obtain ⟨A, B, C, hjoins, _, _, hmembers⟩ := hr
  obtain ⟨ht, hplaces⟩ := hjoins.step hbody hs hh
  refine ⟨ht, fun k hk => hplaces k ?_⟩
  rw [hmembers] at hk
  simp only [List.mem_append] at hk ⊢
  rcases hk with (hk | hk) | hk <;> simp [hk]

theorem balances_makeType (pos : Position)
    (hbody : ∀ f ∈ body.functions, Balances (node f.body) 0 1) :
    Balances (do build (.makeType (← typeBody pos body))) h (h + 1) := by
  intro base s hs _ hh
  rw [yields_bind]
  refine (nested_typeBody pos hbody hs hh).imp fun info t hr => ?_
  obtain ⟨ht, hinfo⟩ := hr
  exact (yields_makeType base h hinfo ht.leads.sane ht.height).imp fun _ u hu => ht.after hu

end Lower

/-- `q` is `p` or a function inside it, at any depth. -/
inductive Prototype.Inside (q : Prototype) : Prototype → Prop where
  | self : Inside q q
  | nested {p p' : Prototype} : p' ∈ p.nested → Inside q p' → Inside q p

theorem Prototype.Good.inside {p q : Prototype} (hp : p.Good) (hq : q.Inside p) : q.Good := by
  induction hq with
  | self => exact hp
  | @nested p p' hmem _ ih =>
    obtain ⟨hheights, hoperands, hpacked⟩ := hp
    cases hoperands with
    | intro _ _ _ _ hnested =>
      cases hpacked with
      | intro _ hinside =>
        exact ih ⟨((StackCheck.check_ok_iff p).1 hheights).2 p' hmem, hnested p' hmem,
          hinside p' hmem⟩

theorem sizesFit_of_errorCount {ds : List Diagnostic} (h : errorCount ds = 0) : SizesFit ds := by
  intro d hd name hlarge
  have hwarning := List.countP_eq_zero.1 h d hd
  rw [Diagnostic.isError, hlarge] at hwarning
  exact hwarning rfl

end Refscript
