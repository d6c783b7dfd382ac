import Refscript.Proofs.Code.Plotting

/-!
# Refscript.Proofs.Code.Tracking

Lowering follows plans. `Tracks x h h' p` says that a step of lowering adds the code that the plan
`p` says, in every context; the rules are those of the steps that lowering is made of, without
saying which construct they are for.

* `tracks_junction` and the rules after it: control.
* `tracks_load`, `tracks_store`, `tracks_refer`: names.
* `tracks_bound`, `tracks_definition`: declarations.
* `tracks_closure`, `tracks_makeType`: functions and types.
-/

namespace Refscript
namespace Lower

open Builder (Keeps Finishes)
open StackCheck Plotted

variable {f : Function Node} {P : Prototype} {i : Nat} {body : TypeBody Node}

/-- The step `x` goes from height `h` to height `h'` and adds the code that the plan says. -/
def Tracks (x : LowerM Unit) (h h' : Nat) (p : Plan) : Prop :=
  ∀ c : Context, c.Ok → (p c).Sound c ∧
    Threads c.invariant (p c).context.invariant x h h' ((p c).Charted c)

variable {x y z w : LowerM Unit} {h h' k : Nat} {p q u v : Plan} {c : Context} {s t : State}

theorem Tracks.seq (hx : Tracks x h k p) (hy : Tracks y k h' q) :
    Tracks (x >>= fun _ => y) h h' (p ++ q) := by
  intro c hc
  obtain ⟨hp, hx⟩ := hx c hc
  obtain ⟨hq, hy⟩ := hy _ hp.ok
  exact ⟨hp.seq hq, (hx.seq hy).imp fun _ _ _ => Charted.seq hp hq⟩

theorem tracks_none (hx : ∀ I : Invariant, Emits I x h h' .none) : Tracks x h h' .skip :=
  fun c hc => ⟨.quiet (.refl hc) hc rfl, (hx c.invariant).imp fun _ _ _ => .quiet (.refl hc)⟩

theorem tracks_pure : Tracks (pure ()) h h .skip :=
  tracks_none fun _ => emits_pure

theorem Tracks.after (hx : Tracks x h k .skip) (hy : Tracks y k h' q) :
    Tracks (x >>= fun _ => y) h h' q := by
  rw [← Plan.skip_append q]
  exact hx.seq hy

theorem Tracks.setLine (hx : Tracks x h h' p) (line : Nat) :
    Tracks (do build (.setLine line); x) h h' p :=
  (tracks_none fun _ => emits_setLine line).after hx

theorem Tracks.report (hx : Tracks x h h' p) (pos : Position) (problem : Problem) :
    Tracks (do report pos problem; x) h h' p :=
  (tracks_none fun _ => emits_report pos problem).after hx

theorem tracks_insn {popped pushed : Nat} {insn : Insn} (hname : insn.nameless = true)
    (hop : straight insn.op = true) :
    Tracks (build (.emitUnit popped pushed insn)) (h + popped) (h + pushed) .step := by
  intro c hc
  have hemit :=
    (emits_insn (I := c.invariant) (Nat.le_add_left popped h) pushed insn).imp fun P i j hs =>
    Charted.step (c := c) hs.1 hs.2.1 hname hop
  rw [Nat.add_sub_cancel] at hemit
  exact ⟨.emit hc _, hemit⟩

theorem tracks_pooled {popped pushed : Nat} {f : Nat → Insn} (constant : Constant)
    (hname : ∀ n, (f n).nameless = true) (hop : ∀ n, straight (f n).op = true) :
    Tracks (build (do Build.emitUnit popped pushed (f (← Build.constant constant)))) (h + popped)
      (h + pushed) .step := by
  intro c hc
  have hemit :=
    (emits_pooled (I := c.invariant) constant f (Nat.le_add_left popped h) pushed).imp
    fun P i j ⟨n, _, hs⟩ =>
    Charted.step (c := c) hs.1 hs.2.1 (hname n) (hop n)
  rw [Nat.add_sub_cancel] at hemit
  exact ⟨.emit hc _, hemit⟩

theorem tracks_junction (op : Opcode) (hop : (landing k op).isSome = true)
    (hx : Tracks x h (h + 1) p) (hy : Tracks y h h' q) :
    Tracks (junction x op y) h h' (p ++ .step ++ q) := by
  intro c hc
  obtain ⟨hp, hx⟩ := hx c hc
  obtain ⟨hq, hy⟩ := hy _ hp.ok
  exact ⟨(hp.seq (.emit hp.ok _)).seq hq, (threads_junction op hx hy).imp fun _ _ _ =>
    Charted.junction hop hp hq⟩

theorem tracks_either (op : Opcode) (hop : (landing k op).isSome = true) (hx : Tracks x h (h + 1) p)
    (hy : Tracks y h h' q) (hz : Tracks z h h' u) :
    Tracks (either x op y z) h h' (p ++ .step ++ q ++ .step ++ u) := by
  intro c hc
  obtain ⟨hp, hx⟩ := hx c hc
  obtain ⟨hq, hy⟩ := hy _ hp.ok
  obtain ⟨hu, hz⟩ := hz _ hq.ok
  exact ⟨(((hp.seq (.emit hp.ok _)).seq hq).seq (.emit hq.ok _)).seq hu,
    (threads_either op hx hy hz).imp fun _ _ _ => Charted.either hop hp hq hu⟩

theorem tracks_looping (hx : Tracks x h (h + 1) p) (hy : Tracks y h h q) :
    Tracks (looping x y) h h (.loop (p ++ .step ++ q ++ .step)) := by
  intro c hc
  obtain ⟨hp, hx⟩ := hx c hc
  obtain ⟨hq, hy⟩ := hy _ hp.ok
  exact ⟨(((hp.seq (.emit hp.ok _)).seq hq).seq (.emit hq.ok _)).loop,
    (threads_looping hx hy).imp fun _ _ _ => Charted.looping hp hq⟩

theorem tracks_loopingElse (hx : ∀ h, Tracks x h (h + 1) p) (hw : Tracks w h k q)
    (hy : Tracks y k k u) (hz : Tracks z h k v) : Tracks (loopingElse x w y z) h k
      (p ++ .step ++ q ++ .step ++ .loop (p ++ .step ++ u ++ .step) ++ .step ++ v) := by
  intro c hc
  obtain ⟨hp, hx₁⟩ := hx h c hc
  obtain ⟨hq, hw⟩ := hw _ hp.ok
  obtain ⟨hp', hx₂⟩ := hx k _ hq.ok
  obtain ⟨hu, hy⟩ := hy _ hp'.ok
  obtain ⟨hv, hz⟩ := hz _ hu.ok
  have hloop := (((hp'.seq (.emit hp'.ok .plain)).seq hu).seq (.emit hu.ok .plain)).loop
  exact ⟨(((((hp.seq (.emit hp.ok .plain)).seq hq).seq (.emit hq.ok .plain)).seq hloop).seq
    (.emit hu.ok .plain)).seq hv,
    (threads_loopingElse hx₁ hw hx₂ hy hz).imp fun _ _ _ => Charted.loopingElse hp hq hp' hu hv⟩

theorem tracks_ret (required : Bool) (hx : Tracks x h (h + 1) p) :
    Tracks (do x; build .ret; if required
      then build (.setHeight ((← get).builder.height + 1)) else return)
      h (h + required.toNat) (p ++ .step) := by
  intro c hc
  obtain ⟨hp, hx⟩ := hx c hc
  exact ⟨hp.seq (.emit hp.ok _), (threads_ret required hx).imp fun _ _ _ => Charted.ret hp⟩

theorem tracks_scope (hx : Tracks x h k p) :
    Tracks (do build .startScope; x; build .endScope) h k (.block p) := by
  intro c hc
  obtain ⟨hp, hx⟩ := hx _ hc.openBlock
  refine ⟨hp.closeBlock hc, (threads_scope ?_ ?_ hx).imp fun _ _ _ => Charted.closeBlock hc hp⟩
  · intro s hs
    exact (Context.Holds.update hs (hs.tied.mirrors.push hc.rooted c.fresh) rfl rfl).renumber _
  · intro s base scopes hs hscopes
    obtain ⟨scopes', hscopes', hmirrors, _⟩ := mirrors_closeBlock hc hp hs
    rw [hscopes] at hscopes'
    cases hscopes'
    exact Context.Holds.update hs hmirrors rfl rfl

theorem threadsArms_plan {keys : List MatchKey} {as : List (Arm Node)} {table : Table MatchKey Nat}
    (hbody : ∀ a ∈ as, Tracks (node a.body) h k (Plan.node a.body)) (hc : c.Ok)
    (hkeys : ∀ key, table.contains key = true ↔ key ∈ keys) :
    ThreadsArms h k c.invariant (Plan.arms keys as c).context.invariant table as
      (armShapes c keys as) := by
  induction as generalizing c keys table with
  | nil => exact .nil
  | cons arm as ih =>
    have hrest : ∀ a ∈ as, Tracks (node a.body) h k (Plan.node a.body) :=
      fun a ha => hbody a (List.mem_cons_of_mem _ ha)
    by_cases hskip : ∀ key, matchKey? arm.pattern = some key → key ∈ keys
    · rw [Plan.arms_skip hskip, armShapes_skip c hskip]
      exact .skip (fun key hkey => (hkeys key).2 (hskip key hkey)) (ih hrest hc hkeys)
    · obtain ⟨key, hkey, hnew⟩ : ∃ key, matchKey? arm.pattern = some key ∧ key ∉ keys := by
        simpa using hskip
      obtain ⟨hsound, hthreads⟩ := hbody arm List.mem_cons_self c hc
      rw [Plan.arms_take hkey hnew, armShapes_take c hkey hnew]
      refine .take hkey ?_ hthreads fun i => ih hrest hsound.ok fun key' => ?_
      · rw [← Bool.not_eq_true, hkeys]
        exact hnew
      · rw [Table.contains_insert, hkeys, List.mem_cons]

theorem tracks_matching {pos : Position} {required : Bool} {scrutinee : Node}
    {cases : List (Arm Node)} (hx : Tracks (node scrutinee) h (h + 1) (Plan.node scrutinee))
    (hcases : ∀ a ∈ cases, Tracks (node a.body) h (h + required.toNat) (Plan.node a.body)) :
    Tracks (expr pos required (.matchCases scrutinee cases)) h (h + required.toNat)
      (Plan.expr required (.matchCases scrutinee cases)) := by
  intro c hc
  obtain ⟨hp, hx⟩ := hx c hc
  have hbody : ∀ a ∈ cases, ∀ c : Context, c.Ok → (Plan.node a.body c).Sound c :=
    fun a ha c hc => (hcases a ha c hc).1
  have harms := Sound.arms hbody [] hp.ok
  have hempty : ∀ key, Table.contains (.empty : Table MatchKey Nat) key = true ↔
      key ∈ ([] : List MatchKey) := by
    simp [Table.contains, Table.empty, Table.get?, Table.get?.go]
  have hthreads :=
    (threads_matching pos required scrutinee cases hx (threadsArms_plan hcases hp.ok hempty)).imp
    fun _ _ _ => Charted.matching hp hbody
  have hmatched := (hp.seq (.emit hp.ok .plain)).seq harms
  rw [Plan.expr]
  -- whether or not null is left at the end, names are not concerned
  generalize (!(Plan.armKeys [] cases).contains .default && required) = wanted at hthreads ⊢
  cases wanted with
  | true => exact ⟨hmatched.seq (.emit harms.ok .plain), hthreads⟩
  | false => exact ⟨hmatched.seq (.quiet (.refl harms.ok) harms.ok rfl), hthreads⟩

theorem Step.entry (use : Use) (insn : Insn) {popped : Nat} (pushed : Nat) (hs : s.Sane)
    (hc : c.Holds s) (hh : s.builder.height = h + popped) (hop : straight insn.op = true)
    (huse : use ≠ .close)
    (hentry : ∀ P, Finishes [] s.builder.mark s.builder P → P.Carries s.builder.position insn →
      Entry.Fits ⟨c.scope, use⟩ (c.around.map Scope.names) c.inner P s.builder.position ∧
        Entry.Notes ⟨c.scope, use⟩ c.captured P) :
    Step c.invariant s (h + pushed) ((Plan.emit use c).Charted c) (s.emit popped pushed insn) := by
  have hemit := Step.emit (I := c.invariant) hs hc hh popped pushed insn
  rw [Nat.add_sub_cancel] at hemit
  refine { hemit with code := fun P hP => ?_ }
  obtain ⟨hposition, hcarries, _⟩ := hemit.code P hP
  obtain ⟨hfits, hnotes⟩ := hentry P (hP.of_keeps hemit.leads.keeps) hcarries
  rw [hposition]
  refine ⟨placed_emit hfits hnotes, routed_emit huse fun next hnext => .inr ?_⟩
  rw [Prototype.nexts_straight hcarries hop] at hnext
  exact List.mem_singleton.1 hnext

/-- How many values an access takes. -/
def popped : Access → Nat
  | .store => 1
  | _ => 0

/-- The access to a variable by its place. -/
def accessAt (a : Access) (x : String) : Place → LowerM Unit
  | .global => build (do Build.emitUnit (popped a) 1 (a.insn .global (← Build.constant (.str x))))
  | place => build (.emitUnit (popped a) 1 (a.insn place 0))

theorem load_eq (x : String) : load x = resolve x >>= accessAt .load x := by
  unfold load
  congr
  funext place
  cases place <;> rfl

theorem store_eq (x : String) : store x = resolve x >>= accessAt .store x := by
  unfold store
  congr
  funext place
  cases place <;> rfl

theorem straight_insn (a : Access) (place : Place) (n : Nat) :
    straight (a.insn place n).op = true := by
  cases a <;> cases place <;> rfl

theorem yields_accessAt {a : Access} {x : String} {place : Place} (hs : s.Sane) (hc : c.Holds s)
    (hh : s.builder.height = h + popped a)
    (hfinds : c.scope.Finds (c.around.map Scope.names) s.builder.outers x place)
    (hnotes : ∀ P, Entry.Notes ⟨c.scope, .access a x⟩ c.captured P) :
    Yields (accessAt a x place) s fun _ t =>
      Step c.invariant s (h + 1) ((Plan.emit (.access a x) c).Charted c) t := by
  cases hplace : place with
  | global =>
    subst hplace
    have hpooled :=
      emits_pooled (I := c.invariant) (.str x) (a.insn .global) (Nat.le_add_left (popped a) h) 1
    rw [Nat.add_sub_cancel] at hpooled
    refine (hpooled s hs hc hh).imp fun _ t ht => ht.imp ?_
    rintro P ⟨n, hn, hj, hcarries, _⟩
    rw [hj]
    refine ⟨placed_emit ⟨.global, n, hfinds, fun _ => hn, hcarries⟩ (hnotes P),
      routed_emit (by simp) fun next hnext => .inr ?_⟩
    rw [Prototype.nexts_straight hcarries (straight_insn a _ _)] at hnext
    exact List.mem_singleton.1 hnext
  | _ =>
    refine (yields_emitUnit (by omega) _ _).2
      (.entry _ _ 1 hs hc hh (straight_insn a _ _) (by simp) fun P hP hcarries => ?_)
    rw [← hplace] at hcarries
    exact ⟨⟨place, 0, hfinds.mono hP.outers, by rw [hplace]; nofun, hcarries⟩, hnotes P⟩

theorem sound_access (hc : c.Ok) (a : Access) (x : String) : (Plan.access a x c).Sound c :=
  (Sound.quiet (Context.grows_touch hc a x) (hc.touch a x) (Context.touch_inner c a x)).seq
    (.emit (hc.touch a x) _)

theorem charted_access (hc : c.Ok) {a : Access} {x : String} {j : Nat}
    (h : (Plan.emit (.access a x) (c.touch a x)).Charted (c.touch a x) P i j) :
    (Plan.access a x c).Charted c P i j :=
  Charted.seq (.quiet (Context.grows_touch hc a x) (hc.touch a x) (Context.touch_inner c a x))
    (.emit (hc.touch a x) _) ⟨i, .quiet (Context.grows_touch hc a x) rfl, h⟩

theorem tracks_load (x : String) : Tracks (load x) h (h + 1) (.access .load x) := by
  refine fun c hc => ⟨sound_access hc _ _, fun s hs hholds hh => ?_⟩
  rw [load_eq, yields_bind]
  refine (yields_resolve_in hc x hs hholds hh).imp fun place t hr => ?_
  obtain ⟨ht, _, hfinds⟩ := hr
  refine (yields_accessAt (a := .load) (c := c.touch .load x) ht.leads.sane ht.holds ht.height ?_
    fun _ => trivial).imp fun _ u hu => ?_
  · rw [Context.touch_scope, Context.touch_around]
    exact hfinds
  · exact (ht.after hu).imp fun P => charted_access hc

theorem tracks_store (x : String) : Tracks (store x) (h + 1) (h + 1) (.access .store x) := by
  refine fun c hc => ⟨sound_access hc _ _, fun s hs hholds hh => ?_⟩
  rw [store_eq, yields_bind]
  refine (yields_resolve_in hc x hs hholds hh).imp fun place t hr => ?_
  obtain ⟨ht, _, hfinds⟩ := hr
  refine (yields_accessAt (a := .store) (c := c.touch .store x) ht.leads.sane ht.holds ht.height ?_
    fun _ => trivial).imp fun _ u hu => ?_
  · rw [Context.touch_scope, Context.touch_around]
    exact hfinds
  · exact (ht.after hu).imp fun P => charted_access hc

theorem notes_refer (c : Context) (x : String) (P : Prototype) :
    Entry.Notes ⟨(c.touch .refer x).scope, .access .refer x⟩ (c.touch .refer x).captured P := by
  intro hx
  dsimp only at hx ⊢
  rw [Context.touch_scope] at hx ⊢
  cases hid : c.scope.home? x with
  | none => exact absurd hx (Scope.home?_eq_none_iff.1 hid)
  | some id =>
    rw [Context.touch_refer_of_home? hid]
    exact ⟨id, hid, List.mem_cons_self⟩

theorem tracks_refer (x : String) : Tracks (refer x) h (h + 1) (.access .refer x) := by
  refine fun c hc => ⟨sound_access hc _ _, fun s hs hholds hh => ?_⟩
  simp only [refer, yields_bind]
  refine (yields_resolve_in hc x hs hholds hh).imp fun place t hr => ?_
  obtain ⟨ht, _, hfinds⟩ := hr
  -- the state in which the reference is taken
  have hrefer : ∀ u, Step (c.touch .refer x).invariant t h .none u →
    t.builder.outers <+: u.builder.outers → Yields (accessAt .refer x place) u fun _ v =>
        Step (c.touch .refer x).invariant s (h + 1) ((Plan.access .refer x c).Charted c) v := by
    intro u hu houters
    refine (yields_accessAt (a := .refer) (c := c.touch .refer x) hu.leads.sane hu.holds hu.height
      ?_ fun P => ?_).imp fun _ v hv => ?_
    · rw [Context.touch_scope, Context.touch_around]
      exact hfinds.mono houters
    · exact notes_refer c x P
    · exact ((ht.after hu).after hv).imp fun P => charted_access hc
  have hsame : x ∉ c.scope.names → Step (c.touch .refer x).invariant t h .none t := by
    intro hx
    have hholds : (c.touch .load x).Holds t := ht.holds
    rw [← Context.touch_refer_of_not_mem hx] at hholds
    exact .refl ht.leads.sane hholds ht.height
  cases place with
  | loc slot =>
    have hx : x ∈ c.scope.names := Scope.mem_of_slot? hfinds
    have hload : c.touch .load x = c := if_pos hx
    have hholds : c.Holds t := hload ▸ ht.holds
    obtain ⟨id, hid⟩ := Option.ne_none_iff_exists'.1 fun hnone => Scope.home?_eq_none_iff.1 hnone hx
    have hwiden := t.builder.widens_markCaptured slot
    have hmark : Step anything t h .none { t with builder := t.builder.markCaptured slot } :=
      .quiet (.builder ht.leads.sane hwiden.keeps rfl rfl rfl (hwiden.sound ht.leads.sane.sound))
        ht.height rfl trivial
    rw [yields_bind, yields_build (a := ()) (b := t.builder.markCaptured slot) rfl]
    refine hrefer _ (hmark.holding ?_) (List.prefix_refl _)
    rw [Context.touch_refer_of_home? hid]
    exact hholds.capture (hholds.tied.mark hc.distinct hfinds hid)
      (fun p hp => List.mem_cons_of_mem _ hp) (List.prefix_refl _) rfl
  | outer position | global => exact hrefer t (hsame hfinds.1) (List.prefix_refl _)

theorem sound_declare (hc : c.Ok) (name : String) : Sound c ⟨[], c.declare name, true⟩ :=
  .quiet (Context.grows_declare hc name) (hc.declare name) rfl

theorem sound_bound (name : String) (hp : ∀ c : Context, c.Ok → (p c).Sound c) (hc : c.Ok) :
    (Plan.bound name p c).Sound c := by
  unfold Plan.bound
  split
  · exact hp c hc
  · have hvalue := hp _ (hc.declare name)
    exact ((sound_declare hc name).seq hvalue).seq (.emit hvalue.ok _)

theorem tracks_bound (name : String) (pos : Position) (hy : Tracks y h (h + 1) p) :
    Tracks (do
      let slot ← declareLocal name pos
      y
      match slot with
      | some slot => build (.initLocal slot)
      | none => pure ()) h (h + 1) (.bound name p) := by
  refine fun c hc => ⟨sound_bound name (fun c hc => (hy c hc).1) hc, fun s hs hholds hh => ?_⟩
  rw [yields_bind]
  refine (yields_declareLocal_in hc name pos hs hholds hh).imp fun slot t hr => ?_
  obtain ⟨ht, hslot⟩ := hr
  rw [yields_bind]
  cases slot with
  | none =>
    have hsame : c.declare name = c := by rw [Context.declare, Scope.declare_of_mem hslot]
    rw [hsame] at ht
    rw [Plan.bound, if_pos hslot]
    refine ((hy c hc).2 t ht.leads.sane ht.holds ht.height).imp fun _ u hu => ?_
    exact yields_pure.2 (ht.after hu)
  | some slot =>
    obtain ⟨hnew, hslot, _⟩ := hslot
    obtain ⟨hsound, hvalue⟩ := hy _ (hc.declare name)
    rw [Plan.bound, if_neg hnew]
    refine (hvalue t ht.leads.sane ht.holds ht.height).imp fun _ u hu => ?_
    have hinit := hsound.grows.slot? hsound.ok hslot
    refine (yields_emitUnit (by rw [hu.height]; omega) _ _).2 ?_
    have hentry :=
      Step.entry (.init name) (.wide .initLocal slot) 1 hu.leads.sane hu.holds hu.height rfl
      (by simp) fun P _ hcarries => ⟨⟨slot, hinit, hcarries⟩, trivial⟩
    have hdeclare := sound_declare hc name
    refine (ht.after (hu.seq hentry)).imp fun P hr => ?_
    obtain ⟨m, hv, hi⟩ := hr
    have hbefore := Charted.seq hdeclare hsound ⟨_, .quiet (Context.grows_declare hc name) rfl, hv⟩
    exact Charted.seq (hdeclare.seq hsound) (.emit hsound.ok _) ⟨m, hbefore, hi⟩

theorem tracks_definition (name : String) (pos : Position) (hy : Tracks y h (h + 1) p) :
    Tracks (do let slot ← declareBinding name pos; y; bindName name slot) h (h + 1)
      (.definition name p) := by
  intro c hc
  cases hroot : c.isRoot with
  | true =>
    obtain ⟨hsound, hvalue⟩ := hy c hc
    have hplan : Plan.definition name p c = (p ++ .emit (.define name)) c := if_pos hroot
    rw [hplan]
    refine ⟨hsound.seq (.emit hsound.ok _), fun s hs hholds hh => ?_⟩
    rw [yields_bind, declareBinding, yields_bind, yields_isRoot, Context.Holds.isRoot hholds hc,
      hroot, if_pos rfl, yields_pure, yields_bind]
    refine (hvalue s hs hholds hh).imp fun _ t ht => ?_
    rw [bindName, yields_bind, yields_isRoot, Context.Holds.isRoot ht.holds hsound.ok,
      hsound.grows.isRoot, hroot, if_pos rfl]
    have hpooled :=
      emits_pooled (I := (p c).context.invariant) (.str name) (.wide .storeGlobal)
      (Nat.le_add_left 1 h) 1
    rw [Nat.add_sub_cancel] at hpooled
    refine (hpooled t ht.leads.sane ht.holds ht.height).imp fun _ u hu => (ht.seq hu).imp ?_
    rintro P ⟨m, hv, n, hn, hj, hcarries, _⟩
    refine Charted.seq hsound (.emit hsound.ok _) ⟨m, hv, ?_⟩
    rw [hj]
    refine ⟨placed_emit ⟨n, hn, hcarries⟩ trivial, routed_emit (by simp) fun next hnext => .inr ?_⟩
    rw [Prototype.nexts_straight hcarries rfl] at hnext
    exact List.mem_singleton.1 hnext
  | false =>
    obtain ⟨hsound, hbound⟩ := tracks_bound name pos hy c hc
    have hplan : Plan.definition name p c = Plan.bound name p c :=
      if_neg (by rw [hroot]; exact Bool.false_ne_true)
    rw [hplan]
    refine ⟨hsound, fun s hs hholds hh => ?_⟩
    have hall := hbound s hs hholds hh
    simp only [yields_bind] at hall ⊢
    rw [declareBinding, yields_bind, yields_isRoot, Context.Holds.isRoot hholds hc, hroot,
      if_neg Bool.false_ne_true]
    refine hall.imp fun slot t ht => ht.imp fun _ u hu => ?_
    cases slot with
    | some slot => exact hu
    | none =>
      -- the state stays as it is, and it is still not at the top level
      have hend := yields_pure.1 hu
      rw [bindName, yields_bind, yields_isRoot, Context.Holds.isRoot hend.holds hsound.ok,
        hsound.grows.isRoot, hroot, if_neg Bool.false_ne_true]
      exact hu

/-- Control goes through a finished function as the open blocks of its entries allow. -/
theorem flows_of_routed {r : Plotted} {start : Scope} (hsize : P.code.size = r.entries.length)
    (hrouted : r.Routed [] [(0, start)] P 0 P.code.size) (hsteady : r.steady = true) :
    (r.chart start).Flows P := by
  have hsettles : r.context.Settles r.context.captured := fun p hp => .inl hp
  have hcovers : Covers (fun k => r.entries[k]?) 0 r.entries := fun n e he => by
    rw [Nat.zero_add]
    exact he
  obtain ⟨_, H, _, hstart, hpaths⟩ := hrouted hsteady _ _ hsettles hcovers
  -- the labels are the open blocks of the entries
  have hlabel : ∀ (k : Nat) (e : Entry), r.entries[k]? = some e → H k = e.scope ∧
      ∀ next ∈ P.nexts k, Scope.Flow r.context.captured e.after (H next) := by
    intro k e he
    obtain ⟨hlt, _⟩ := List.getElem?_eq_some_iff.1 he
    obtain ⟨targets, ⟨e', he', hscope, rfl⟩, hall⟩ := hpaths k (Nat.zero_le k) (by omega)
    obtain rfl := Option.some.inj (he.symm.trans he')
    refine ⟨hscope.symm, fun next hnext => ?_⟩
    rcases hall _ (List.mem_map_of_mem hnext) with ⟨x, hx, _⟩ | ⟨_, _, hflow⟩
    · cases hx
    · exact hflow
  refine ⟨fun e he => ?_, fun k e he next hnext e' he' => ?_⟩
  · rw [← (hlabel 0 e he).1]
    exact (hstart (0, start) (List.mem_singleton_self _)).2.2
  · rw [← (hlabel next e' he').1]
    exact (hlabel k e he).2 next hnext

theorem described_build {r : Plotted} (hr : r.Sound c) (hinner : c.inner = [])
    (hs : r.context.Holds s) (hfit : SizesFit s.diagnostics)
    (hcode : r.Charted c s.builder.build 0 s.builder.position) :
    Described (c.around.map Scope.names) (r.chart c.scope) s.builder.build := by
  obtain ⟨⟨hposition, hplaced⟩, hrouted⟩ := hcode
  have hsize : s.builder.build.code.size = s.builder.position := Array.size_map
  rw [Nat.zero_add] at hposition
  refine .intro ⟨hsize.trans hposition, fun k e he => ?_, fun e he => ?_, hr.distinct,
    hs.tied.outers, hs.length,
    fun i S D q hD hq o ho => (hs.lends i S D q hD hq o ho).1, fun hsteady => ?_,
    fun hsteady D hD => ?_⟩ ?_
  · have hfits := (hplaced k e he).1
    rw [Nat.zero_add] at hfits
    exact hfits
  · obtain ⟨k, he⟩ := List.getElem?_of_mem he
    exact (hplaced k e he).2
  · refine flows_of_routed (hsize.trans hposition) ?_ hsteady
    rw [hsize]
    exact hrouted
  · rcases hr.steady hsteady D hD with hD | hD
    · rw [hinner] at hD
      cases hD
    · exact hD
  · intro i S D q hD hq
    have hdescribed := hs.described hfit i S D q hD hq
    rw [hr.grows.around] at hdescribed
    exact hdescribed

/-- The body of a function is lowered as its plan says. -/
structure Plans (f : Function Node) : Prop where
  balances : Balances (node f.body) 0 1
  tracks : Tracks (node f.body) 0 1 (Plan.node f.body)

theorem plan_function (f : Function Node) : Plan.function f = .inside f.params (.node f.body) := by
  cases f
  rw [Plan.function]

theorem sound_function (hf : Plans f) (hc : c.Ok) : (Plan.function f c).Sound c := by
  rw [plan_function]
  obtain ⟨henter, hparams⟩ := Context.ok_enter hc f.params
  have hbody := (hf.tracks _ henter).1
  have hgrows := hparams.trans hbody.grows
  refine ⟨hc.resume hgrows hbody.ok _, hgrows.resume hc _, fun _ he => (List.not_mem_nil he).elim,
    fun hsteady D hD => ?_⟩
  rcases List.mem_append.1 hD with hD | hD
  · exact .inl hD
  · rw [List.mem_singleton.1 hD]
    exact .inr hsteady

/-- The code of a function inside the one at hand is what its plan says. -/
theorem yields_body_in (name : Option String) (pos : Position) (hf : Plans f) (hc : c.Ok)
    (hs : s.Sane) (hholds : c.Holds s) :
    Yields (do enter name pos f.params f.variadic; node f.body) s fun _ u =>
      Step anything (s.inside name) 1 (Balanced 0 1) u ∧
      Step (Plan.node f.body (c.enter f.params)).context.invariant (s.inside name) 1
        ((Plan.node f.body (c.enter f.params)).Charted (c.enter f.params)) u := by
  refine (yields_body name pos f.params f.variadic hf.balances hs).and ?_
  rw [yields_bind]
  refine (yields_enter_in hc name pos f.params f.variadic hs hholds).imp fun _ t ht => ?_
  exact ((hf.tracks _ (Context.ok_enter hc _).1).2 t ht.leads.sane ht.holds ht.height).imp
    fun _ u hu => ht.after hu

theorem yields_within_in (name : Option String) (pos : Position) (hf : Plans f) (hc : c.Ok)
    (hs : s.Sane) (hholds : c.Holds s) (hh : s.builder.height = h) :
    Yields (do enter name pos f.params f.variadic; node f.body; leave pos) s fun q t =>
      Step anything s h .none t ∧ Finished q t ∧
        (Plan.function f c).context.Holds { t with builder := (t.builder.addNested q).2 } := by
  obtain ⟨henter, hparams⟩ := Context.ok_enter hc f.params
  have hsound := (hf.tracks _ henter).1
  have hgrows := hparams.trans hsound.grows
  have hin : Yields (do enter name pos f.params f.variadic; node f.body; leave pos) s fun q t =>
      (Plan.function f c).context.Holds { t with builder := (t.builder.addNested q).2 } := by
    obtain ⟨_, u, hrun, hall, hu⟩ := yields_body_in name pos hf hc hs hholds
    rw [← bind_assoc, yields_bind]
    refine ⟨(), u, hrun,
      (yields_leave pos rfl hall (Nat.le_refl 1)).imp fun q t ⟨hq, hgood, ds, hds, ht⟩ => ?_⟩
    rw [plan_function]
    subst hq ht
    obtain ⟨b, enclosing, ds'⟩ := u
    cases enclosing with
    | nil => exact hall.leads.enclosing.elim
    | cons parent rest =>
      obtain ⟨hparent, hlends⟩ :=
        hholds.leave hgrows hu.holds hall.leads.enclosing.1 (hall.leads.diagnostics.trans hds)
      refine hparent.addNested (q := b.build) hlends fun hfit => ?_
      -- nothing was too large, so the finished function has all that was built
      have hfinish := finishes_of_packed (hgood hfit).2
      have hdescribed :=
        described_build hsound (Context.enter_inner c f.params) hu.holds (hfit.of_prefix hds)
        (hu.code _ (hfinish.mono (Nat.zero_le _) (Nat.zero_le _)))
      rw [hparams.around] at hdescribed
      exact hdescribed
  exact ((yields_within name pos f.params f.variadic hf.balances hs hh).and hin).imp fun q t hq =>
    ⟨hq.1.1, hq.1.2, hq.2⟩

theorem notes_create {places : List Nat} (hholds : c.Holds s)
    (hP : Finishes [] s.builder.mark s.builder P)
    (hplaces : ∀ i ∈ places, (c.inner[i]?).map Prod.fst = some c.scope) :
    Entry.Notes ⟨c.scope, .create places⟩ c.captured P := by
  intro i hi q hq o ho hkind
  obtain ⟨⟨S, D⟩, hD, hS⟩ := Option.map_eq_some_iff.1 (hplaces i hi)
  obtain ⟨hlt, _⟩ := List.getElem?_eq_some_iff.1 hD
  have hlt : i < s.builder.nested.length := by rw [← hholds.length]; exact hlt
  have hq' : s.builder.nested[i]? = some q := by
    rw [List.getElem?_eq_getElem hlt, ← List.prefix_iff_getElem?.1 hP.nested i hlt, hq]
  have hcaptures := (hholds.lends i S D q hD hq' o ho).2 hkind
  rw [show S = c.scope from hS] at hcaptures
  exact hcaptures

theorem yields_function_in (name : Option String) (pos : Position) (hf : Plans f) (hc : c.Ok)
    (hs : s.Sane) (hholds : c.Holds s) (hh : s.builder.height = h) :
    Yields (function name pos f) s fun q t => Step anything s h .none t ∧ Finished q t ∧
      (Plan.function f c).context.Holds { t with builder := (t.builder.addNested q).2 } := by
  have hwithin := yields_within_in name pos hf hc hs hholds hh
  obtain ⟨params, variadic, body⟩ := f
  rw [function]
  exact hwithin

theorem Step.addNested {q : Prototype} (ht : Step anything s h .none t) (hq : Finished q t)
    (hholds : c.Holds { t with builder := (t.builder.addNested q).2 }) :
    Step c.invariant s h .none { t with builder := (t.builder.addNested q).2 } := by
  have hadd : Leads t { t with builder := (t.builder.addNested q).2 } :=
    .builder ht.leads.sane { Keeps.refl t.builder with nested := List.prefix_append _ _ }
      rfl rfl rfl (ht.leads.sane.sound.addNested hq.1 hq.2)
  exact ht.after (.quiet hadd ht.height rfl hholds)

theorem inner_function (f : Function Node) (c : Context) :
    (Plan.function f c).context.scope = c.scope ∧
    ∃ D, (Plan.function f c).context.inner = c.inner ++ [(c.scope, D)] := by
  rw [plan_function]
  exact ⟨rfl, _, rfl⟩

theorem charted_function (hgrows : c.Grows (Plan.function f c).context) :
    (Plan.function f c).Charted c P i i := by
  rw [plan_function] at hgrows ⊢
  exact .quiet hgrows rfl

theorem tracks_closure (name : Option String) (pos : Position) (hf : Plans f) :
    Tracks (do build (.closure (← function name pos f))) h (h + 1) (.create (.function f)) := by
  intro c hc
  have hsound := sound_function hf hc
  refine ⟨hsound.seq (.emit hsound.ok _), fun s hs hholds hh => ?_⟩
  rw [yields_bind]
  refine (yields_function_in name pos hf hc hs hholds hh).imp fun q t hr => ?_
  obtain ⟨ht, hq, hadded⟩ := hr
  have hnested := Step.addNested ht hq hadded
  obtain ⟨hscope, D, hinner⟩ := inner_function f c
  refine (yields_build (emitUnit_run (b := (t.builder.addNested q).2) (Nat.zero_le _) 1
    (.wide .closure t.builder.nested.length))).2 ?_
  have hlast : t.builder.nested.length = c.inner.length := by
    have := hadded.length
    simp only [hinner, Builder.addNested, List.length_append, List.length_singleton] at this
    omega
  have hplaces : ∀ i ∈ [c.inner.length],
      ((Plan.function f c).context.inner[i]?).map Prod.fst =
        some (Plan.function f c).context.scope := by
    intro i hi
    rw [List.mem_singleton.1 hi, hinner, hscope]
    simp
  have hheight : (t.builder.addNested q).2.height = h + 0 := hnested.height
  refine (hnested.after
    (Step.entry (.create [c.inner.length]) _ 1 hnested.leads.sane hnested.holds hheight rfl
    (by simp) fun P hP hcarries =>
    ⟨⟨hplaces, .inl ⟨_, rfl, ?_⟩⟩, notes_create hadded hP hplaces⟩)).imp fun P hP => ?_
  · rw [← hlast]
    exact hcarries
  · exact Charted.seq hsound (.emit hsound.ok _) ⟨_, charted_function hsound.grows, hP⟩

/-- `n` functions are added to those inside, with the blocks that are open, and no code. -/
structure Adds (c : Context) (r : Plotted) (n : Nat) : Prop where
  sound : r.Sound c
  entries : r.entries = []
  scope : r.context.scope = c.scope
  inner : ∃ Ds, r.context.inner = c.inner ++ Ds ∧ Ds.length = n ∧ ∀ D ∈ Ds, D.1 = c.scope

namespace Adds

variable {a b : Plotted} {m n : Nat}

theorem length (h : Adds c a n) : a.context.inner.length = c.inner.length + n := by
  obtain ⟨Ds, hinner, rfl, _⟩ := h.inner
  rw [hinner, List.length_append]

theorem seq (ha : Adds c a m) (hb : Adds a.context b n) : Adds c (a.seq b) (m + n) := by
  obtain ⟨Ds, hinner, rfl, hscope⟩ := ha.inner
  obtain ⟨Ds', hinner', rfl, hscope'⟩ := hb.inner
  refine ⟨ha.sound.seq hb.sound, by
    rw [Plotted.seq, ha.entries, hb.entries]; rfl, hb.scope.trans ha.scope, Ds ++ Ds', ?_,
    List.length_append, fun D hD => ?_⟩
  · rw [context_seq, hinner', hinner, List.append_assoc]
  · exact (List.mem_append.1 hD).elim (hscope D) fun hD => (hscope' D hD).trans ha.scope

theorem skip (hc : c.Ok) : Adds c (Plan.skip c) 0 :=
  ⟨.quiet (.refl hc) hc rfl, rfl, rfl, [], (List.append_nil _).symm, rfl,
    fun _ hD => (List.not_mem_nil hD).elim⟩

theorem function (hf : Plans f) (hc : c.Ok) : Adds c (Plan.function f c) 1 := by
  obtain ⟨hscope, D, hinner⟩ := inner_function f c
  refine ⟨sound_function hf
    hc, by rw [plan_function]; rfl, hscope, [(c.scope, D)], hinner, rfl, fun D' hD => ?_⟩
  rw [List.mem_singleton.1 hD]

theorem optionalFunction {f : Option (Function Node)} (hf : ∀ g ∈ f.toList, Plans g) (hc : c.Ok) :
    Adds c (Plan.optionalFunction f c) f.toList.length := by
  cases f with
  | none => exact .skip hc
  | some f => exact .function (hf f List.mem_cons_self) hc

theorem members {ms : List (Member Node)} (hms : ∀ f ∈ ms.map Member.function, Plans f)
    (hc : c.Ok) : Adds c (Plan.members ms c) ms.length := by
  induction ms generalizing c with
  | nil => exact .skip hc
  | cons m ms ih =>
    obtain ⟨name, f⟩ := m
    obtain ⟨hf, hms⟩ := List.forall_mem_cons.1 hms
    have hfirst := Adds.function hf hc
    rw [List.length_cons, Nat.add_comm]
    exact hfirst.seq (ih hms hfirst.sound.ok)

theorem charted (h : Adds c a n) : a.Charted c P i i := by
  obtain ⟨entries, c', steady⟩ := a
  obtain rfl : entries = [] := h.entries
  exact .quiet h.sound.grows rfl

theorem places (h : Adds c a n) (hlo : c.inner.length ≤ i) (hhi : i < c.inner.length + n) :
    (a.context.inner[i]?).map Prod.fst = some a.context.scope := by
  obtain ⟨Ds, hinner, rfl, hscope⟩ := h.inner
  rw [hinner, h.scope, List.getElem?_append_right hlo, List.getElem?_eq_getElem (by omega),
    Option.map_some, hscope _ (List.getElem_mem _)]

end Adds

theorem yields_memberFunction_in (typeName : String) (pos : Position) (name : String) (hf : Plans f)
    (hc : c.Ok) (hs : s.Sane) (hholds : c.Holds s) (hh : s.builder.height = h) :
    Yields (memberFunction typeName pos name f) s fun k t =>
      Step (Plan.function f c).context.invariant s h .none t ∧ k = c.inner.length := by
  have hwithin := yields_within_in (some (typeName ++ "." ++ name)) pos hf hc hs hholds hh
  obtain ⟨_, D, hinner⟩ := inner_function f c
  obtain ⟨params, variadic, body⟩ := f
  simp only [memberFunction, yields_bind] at hwithin ⊢
  refine hwithin.imp fun _ t ht => ht.imp fun _ u hu => hu.imp fun q v hr => ?_
  obtain ⟨hv, hq, hadded⟩ := hr
  refine (yields_build (a := v.builder.nested.length) (b := (v.builder.addNested q).2) rfl).2
    ⟨.addNested hv hq hadded, ?_⟩
  have hlength := hadded.length
  simp only [hinner, Builder.addNested, List.length_append, List.length_singleton] at hlength
  omega

/-- What lowering the functions one after the other adds. -/
def afterFunctions (fs : List (Function Node)) (c : Context) : Context :=
  fs.foldl (fun c f => (Plan.function f c).context) c

theorem Joins.tracks {pos : Position} {fs : List (Function Node)} {ks : List Nat}
    (hjoins : Joins pos fs s ks t) (hfs : ∀ f ∈ fs, Plans f) (hc : c.Ok) (hs : s.Sane)
    (hholds : c.Holds s) (hh : s.builder.height = h) :
    Step (afterFunctions fs c).invariant s h .none t ∧
      ks = List.range' c.inner.length fs.length := by
  induction hjoins generalizing c with
  | nil => exact ⟨.refl hs hholds hh, rfl⟩
  | cons typeName name hrun _ ih =>
    obtain ⟨hf, hfs⟩ := List.forall_mem_cons.1 hfs
    have hadds := Adds.function hf hc
    obtain ⟨ht, hk⟩ := (yields_memberFunction_in typeName pos name hf hc hs hholds hh).of_run hrun
    obtain ⟨hu, hks⟩ := ih hfs hadds.sound.ok ht.leads.sane ht.holds ht.height
    refine ⟨ht.after hu, ?_⟩
    rw [hks, hk, hadds.length, List.length_cons, List.range'_succ]

/-- The members of a type. -/
def typeMembers (body : TypeBody Node) : Plan :=
  .optionalFunction body.ctor ++ .optionalFunction body.invoke ++ .members body.methods ++
    .members body.prefixOps ++ .members body.infixOps

/-- The places of the members of a type. -/
def typePlaces (first : Nat) (body : TypeBody Node) : List Nat :=
  Plan.memberPlaces first (body.ctor.toList.length + body.invoke.toList.length) body.methods.length
    (body.prefixOps.length + body.infixOps.length)

theorem context_typeMembers (body : TypeBody Node) (c : Context) :
    (typeMembers body c).context = afterFunctions body.functions c := by
  have hoptional : ∀ (f : Option (Function Node)) c, (Plan.optionalFunction f c).context =
      afterFunctions f.toList c := by
    intro f c
    cases f <;> rfl
  have hmembers : ∀ (ms : List (Member Node)) c,
      (Plan.members ms c).context = afterFunctions (ms.map Member.function) c := by
    intro ms
    induction ms with
    | nil => exact fun c => rfl
    | cons m ms ih => exact fun c => ih _
  have happend : ∀ fs gs c, afterFunctions (fs ++ gs) c = afterFunctions gs (afterFunctions fs c) :=
    fun _ _ _ =>
    List.foldl_append
  simp only [TypeBody.functions, happend, ← hoptional, ← hmembers]
  rfl

theorem adds_typeMembers (hbody : ∀ f ∈ body.functions, Plans f) (hc : c.Ok) :
    Adds c (typeMembers body c)
      (body.ctor.toList.length + body.invoke.toList.length + body.methods.length +
      body.prefixOps.length + body.infixOps.length) := by
  simp only [TypeBody.functions, List.forall_mem_append] at hbody
  obtain ⟨⟨⟨⟨hctor, hinvoke⟩, hmethods⟩, hprefix⟩, hinfix⟩ := hbody
  have hctor := Adds.optionalFunction hctor hc
  have hinvoke := Adds.optionalFunction hinvoke hctor.sound.ok
  have hmethods := Adds.members hmethods hinvoke.sound.ok
  have hunary := Adds.members hprefix hmethods.sound.ok
  have hbinary := Adds.members hinfix hunary.sound.ok
  exact (((hctor.seq hinvoke).seq hmethods).seq hunary).seq hbinary

theorem yields_typeBody_in (pos : Position) (hbody : ∀ f ∈ body.functions, Plans f) (hc : c.Ok)
    (hs : s.Sane) (hholds : c.Holds s) (hh : s.builder.height = h) :
    Yields (typeBody pos body) s fun info t =>
      Step (typeMembers body c).context.invariant s h .none t ∧
      info.members = typePlaces c.inner.length body := by
  refine (yields_typeBody pos (fun f hf => (hbody f hf).balances) hs hh).imp fun info t hr => ?_
  obtain ⟨specials, methods, operators, hjoins, hspecials, hmethods, hinfo⟩ := hr
  obtain ⟨ht, hplaces⟩ := hjoins.tracks hbody hc hs hholds hh
  rw [context_typeMembers]
  refine ⟨ht, ?_⟩
  have hlength : body.functions.length = body.ctor.toList.length + body.invoke.toList.length +
    body.methods.length + (body.prefixOps.length + body.infixOps.length) := by
    simp [TypeBody.functions, Nat.add_assoc]
  rw [hlength, ← List.range'_append_1, ← List.range'_append_1] at hplaces
  obtain ⟨hfront, rfl⟩ := List.append_inj hplaces (by simp [hspecials, hmethods])
  obtain ⟨rfl, rfl⟩ := List.append_inj hfront (by simp [hspecials])
  rw [hinfo, typePlaces, Plan.memberPlaces, Nat.add_assoc c.inner.length]

/-- The value of a type definition. -/
def typeValue (body : TypeBody Node) : Plan := fun c =>
  (typeMembers body ++ Plan.emit (.create (typePlaces c.inner.length body))) c

theorem tracks_makeType (pos : Position) (hbody : ∀ f ∈ body.functions, Plans f) :
    Tracks (do build (.makeType (← typeBody pos body))) h (h + 1) (typeValue body) := by
  intro c hc
  have hadds := adds_typeMembers hbody hc
  refine ⟨hadds.sound.seq (.emit hadds.sound.ok _), fun s hs hholds hh => ?_⟩
  have hnested := nested_typeBody pos (fun f hf => (hbody f hf).balances) hs hh
  rw [yields_bind]
  refine ((yields_typeBody_in pos hbody hc hs hholds hh).and hnested).imp
    fun info t hr => ?_
  obtain ⟨⟨ht, hmembers⟩, _, hinfo⟩ := hr
  have hadd : Leads t { t with builder := { t.builder with types := t.builder.types ++ [info] } } :=
    .builder ht.leads.sane { Keeps.refl t.builder with types := List.prefix_append _ _ } rfl rfl rfl
      (ht.leads.sane.sound.addType hinfo)
  have htype : Step (typeMembers body c).context.invariant s h .none
      { t with builder := { t.builder with types := t.builder.types ++ [info] } } :=
    ht.after (.quiet hadd ht.height rfl
      ((typeMembers body c).context.invariant.inert (s := t) rfl (List.prefix_refl _) rfl
      ht.holds))
  refine (yields_build
    (emitUnit_run (b := { t.builder with types := t.builder.types ++ [info] }) (Nat.zero_le _) 1
    (.wide .makeType t.builder.types.length))).2 ?_
  have hplaces : ∀ i ∈ typePlaces c.inner.length body,
      ((typeMembers body c).context.inner[i]?).map Prod.fst =
        some (typeMembers body c).context.scope := by
    intro i hi
    have hrange : c.inner.length ≤ i ∧
      i < c.inner.length + (body.ctor.toList.length + body.invoke.toList.length +
        body.methods.length + body.prefixOps.length + body.infixOps.length) := by
      simp only [typePlaces, Plan.memberPlaces, List.mem_append, List.mem_range'_1] at hi
      omega
    exact hadds.places hrange.1 hrange.2
  have hheight : t.builder.height = h + 0 := ht.height
  refine (htype.after (Step.entry (.create (typePlaces c.inner.length body)) _ 1 htype.leads.sane
    htype.holds hheight rfl (by simp) fun P hP hcarries =>
      ⟨⟨hplaces, .inr ⟨_, info, ?_, hmembers, hcarries⟩⟩, notes_create htype.holds hP hplaces⟩)).imp
    fun P hP => ?_
  · refine getElem?_of_isPrefix hP.types ?_
    simp
  · exact Charted.seq hadds.sound (.emit hadds.sound.ok _) ⟨_, hadds.charted, hP⟩

end Lower
end Refscript
