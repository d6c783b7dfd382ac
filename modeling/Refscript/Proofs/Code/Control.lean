import Refscript.Proofs.Code.Emission
import Refscript.Proofs.Data.Table

/-!
# Refscript.Proofs.Code.Control

Constructs with jumps. A jump forward is emitted before its target is known and patched later, so
while a construct is being lowered some of its instructions are holes; the rules below start from
the finished function and go back through the patches.

* `threads_junction`: a step that a test may skip.
* `threads_either`: one of two steps after a test.
* `threads_looping`, `threads_loopingElse`: loops, without and with a step for the case that they
  are not entered.
* `threads_matching`: cases, which a table leads to.
* `threads_scope`: a scope, at whose end captured locals are closed.
-/

namespace Refscript
namespace Lower

open Builder (Keeps Finishes Mark)

variable {I J K L M : Invariant} {x y z w : LowerM Unit} {h h' k : Nat} {A B C D : Shape}
  {s : State} {Q : Prototype → Prop} {Ss : List Shape} {as : List (Arm Node)}
  {table : Table MatchKey Nat}

/-- `y` unless the test of `x` by `op` jumps over it. -/
def junction (x : LowerM Unit) (op : Opcode) (y : LowerM Unit) : LowerM Unit := do
  x
  let jump ← build (.emit 1 0 (.wide op 0))
  y
  build (.patchHere jump)

def Shape.junction (h : Nat) (A : Shape) (op : Opcode) (B : Shape) : Shape := fun P i j =>
  ∃ m, A P i m ∧ insn (h + 1) h (.wide op j) P m (m + 1) ∧ B P (m + 1) j

theorem threads_junction (op : Opcode) (hx : Threads I J x h (h + 1) A) (hy : Threads J K y h k B) :
    Threads I K (junction x op y) h k (.junction h A op B) := by
  intro s hs hI hh
  simp only [junction, yields_bind]
  refine (hx s hs hI hh).imp fun _ s₁ hA => ?_
  rw [yields_emit (by rw [hA.height]; omega)]
  have hjump := Draft.jump hA.leads.sane hA.holds hA.height 1 0 op
  refine (hy _ hjump.leads.sane hjump.holds hjump.height).imp fun _ s₂ hB => ?_
  rw [yields_patchHere]
  have hdone := ((hA.append hjump).append hB).patch [] s₂.builder.position
  refine hdone.imp ?_
  rintro P ⟨⟨⟨hA, hmax⟩, hB⟩, hinsn⟩
  rw [position_emit] at hB
  rw [position_patch]
  exact ⟨s₁.builder.position, hA, ⟨rfl, hinsn, hmax.1, hmax.2⟩, hB⟩

/-- `y` or `z`, by the test of `x` by `op`. -/
def either (x : LowerM Unit) (op : Opcode) (y z : LowerM Unit) : LowerM Unit := do
  x
  let skip ← build (.emit 1 0 (.wide op 0))
  let height := (← get).builder.height
  y
  let stop ← build (.jump 0)
  build (.patchHere skip)
  build (.setHeight height)
  z
  build (.patchHere stop)

def Shape.either (h h' : Nat) (A : Shape) (op : Opcode) (B C : Shape) : Shape := fun P i j =>
  ∃ m n, A P i m ∧ insn (h + 1) h (.wide op (n + 1)) P m (m + 1) ∧ B P (m + 1) n ∧
    insn h' h' (.wide .jump j) P n (n + 1) ∧ C P (n + 1) j

theorem threads_either (op : Opcode) (hx : Threads I J x h (h + 1) A) (hy : Threads J K y h k B)
    (hz : Threads K L z h k C) : Threads I L (either x op y z) h k (.either h k A op B C) := by
  intro s hs hI hh
  simp only [either, Build.jump, yields_bind]
  refine (hx s hs hI hh).imp fun _ s₁ hA => ?_
  rw [yields_emit (by rw [hA.height]; omega), yields_get]
  have hskip := Draft.jump hA.leads.sane hA.holds hA.height 1 0 op
  refine (hy _ hskip.leads.sane hskip.holds hskip.height).imp fun _ s₂ hB => ?_
  rw [yields_emit (Nat.zero_le _), yields_patchHere, yields_setHeight]
  have hstop := Draft.jump hB.leads.sane hB.holds hB.height 0 0 .jump
  have hfirst := ((((hA.append hskip).append hB).append hstop).patch [(s₂.builder.position, .jump)]
    (s₂.emit 0 0 (.wide .jump 0)).builder.position).setHeight
    (s₁.emit 1 0 (.wide op 0)).builder.height
  refine (hz _ hfirst.leads.sane hfirst.holds hskip.height).imp fun _ s₃ hC => ?_
  rw [yields_patchHere]
  have hdone := (hfirst.append hC).patch [] s₃.builder.position
  refine hdone.imp ?_
  rintro P ⟨⟨⟨⟨⟨⟨hA, hmax⟩, hB⟩, hmax'⟩, hskip⟩, hC⟩, hstop⟩
  simp only [position_emit, position_patch, position_setHeight] at hB hC hskip ⊢
  exact ⟨s₁.builder.position, s₂.builder.position, hA, ⟨rfl, hskip, hmax.1, hmax.2⟩, hB,
    ⟨rfl, hstop, hmax'.1, hmax'.2⟩, hC⟩

theorem expr_and (pos : Position) (required : Bool) (l r : Node) :
    expr pos required (.and l r) = (do junction (node l) .and (node r); discard required) := by
  rw [expr]
  simp only [junction, bind_assoc]
  rfl

theorem expr_or (pos : Position) (required : Bool) (l r : Node) :
    expr pos required (.or l r) = (do junction (node l) .or (node r); discard required) := by
  rw [expr]
  simp only [junction, bind_assoc]
  rfl

/-- What a condition tests, and the jump that is taken if the condition fails. -/
def test : Node → Node × Opcode
  | ⟨_, _, .not x⟩ => (x, .jumpTrue)
  | c => (c, .jumpFalse)

theorem expr_ifElse (pos : Position) (required : Bool) (c pass : Node) (fail : Option Node) :
    expr pos required (.ifElse c pass fail) =
      if fail.isNone && !required then junction (node (test c).1) (test c).2 (node pass)
      else either (node (test c).1) (test c).2 (node pass) (elseBranch fail) := by
  obtain ⟨_, _, e⟩ := c
  cases fail <;> cases required <;> cases e <;> rfl

/-- `y` as long as the test of `x` succeeds. -/
def looping (x y : LowerM Unit) : LowerM Unit := do
  let start ← build .position
  x
  let exit ← build (.jumpFalse 0)
  y
  let _ ← build (.jump start)
  build (.patchHere exit)

def Shape.looping (h : Nat) (A B : Shape) : Shape := fun P i j =>
  ∃ m n, A P i m ∧ insn (h + 1) h (.wide .jumpFalse (n + 1)) P m (m + 1) ∧ B P (m + 1) n ∧
    insn h h (.wide .jump i) P n (n + 1) ∧ j = n + 1

theorem threads_looping (hx : Threads I J x h (h + 1) A) (hy : Threads J K y h h B) :
    Threads I K (looping x y) h h (.looping h A B) := by
  intro s hs hI hh
  simp only [looping, Build.jump, Build.jumpFalse, yields_bind]
  rw [yields_position]
  refine (hx s hs hI hh).imp fun _ s₁ hA => ?_
  rw [yields_emit (by rw [hA.height]; omega)]
  have hexit := Draft.jump hA.leads.sane hA.holds hA.height 1 0 .jumpFalse
  refine (hy _ hexit.leads.sane hexit.holds hexit.height).imp fun _ s₂ hB => ?_
  rw [yields_emit (Nat.zero_le _), yields_patchHere]
  have hback := Step.emit hB.leads.sane hB.holds hB.height 0 0 (.wide .jump s.builder.position)
  have hdone := (((hA.append hexit).append hB).append hback).patch []
    (s₂.emit 0 0 (.wide .jump s.builder.position)).builder.position
  refine hdone.imp ?_
  rintro P ⟨⟨⟨⟨hA, hmax⟩, hB⟩, hback⟩, hexit⟩
  simp only [position_emit, position_patch] at hB hback hexit ⊢
  exact ⟨s₁.builder.position, s₂.builder.position, hA, ⟨rfl, hexit, hmax.1, hmax.2⟩, hB, hback, rfl⟩

/-- Tests `x`; if that succeeds, `w` and then `y` as long as the test of `x` succeeds, and else `z`.
The test is there twice, so that the loop itself starts with it. -/
def loopingElse (x w y z : LowerM Unit) : LowerM Unit := do
  let height := (← get).builder.height
  x
  let skip ← build (.jumpFalse 0)
  w
  let into ← build (.jump 0)
  let start ← build .position
  x
  let exit ← build (.jumpFalse 0)
  build (.patchHere into)
  y
  let _ ← build (.jump start)
  build (.patchHere exit)
  let stop ← build (.jump 0)
  build (.patchHere skip)
  build (.setHeight height)
  z
  build (.patchHere stop)

def Shape.loopingElse (h k : Nat) (A B A' C D : Shape) : Shape := fun P i j =>
  ∃ m a c d, A P i m ∧ insn (h + 1) h (.wide .jumpFalse (d + 2)) P m (m + 1) ∧ B P (m + 1) a ∧
    insn k k (.wide .jump (c + 1)) P a (a + 1) ∧ A' P (a + 1) c ∧
    insn (k + 1) k (.wide .jumpFalse (d + 1)) P c (c + 1) ∧ C P (c + 1) d ∧
    insn k k (.wide .jump (a + 1)) P d (d + 1) ∧
      insn k k (.wide .jump j) P (d + 1) (d + 2) ∧ D P (d + 2) j

theorem threads_loopingElse {A' : Shape} {N : Invariant} (hx : Threads I J x h (h + 1) A)
    (hw : Threads J K w h k B) (hx' : Threads K L x k (k + 1) A') (hy : Threads L M y k k C)
    (hz : Threads M N z h k D) :
    Threads I N (loopingElse x w y z) h k (.loopingElse h k A B A' C D) := by
  intro s hs hI hh
  simp only [loopingElse, Build.jump, Build.jumpFalse, yields_bind]
  rw [yields_get]
  refine (hx s hs hI hh).imp fun _ s₁ hA => ?_
  rw [yields_emit (by rw [hA.height]; omega)]
  have hskip := Draft.jump hA.leads.sane hA.holds hA.height 1 0 .jumpFalse
  refine (hw _ hskip.leads.sane hskip.holds hskip.height).imp fun _ s₂ hB => ?_
  rw [yields_emit (Nat.zero_le _), yields_position]
  have hinto := Draft.jump hB.leads.sane hB.holds hB.height 0 0 .jump
  refine (hx' _ hinto.leads.sane hinto.holds hinto.height).imp fun _ s₃ hA' => ?_
  rw [yields_emit (by rw [hA'.height]; omega), yields_patchHere]
  have hexit := Draft.jump hA'.leads.sane hA'.holds hA'.height 1 0 .jumpFalse
  -- the jump into the loop is settled
  have hentry := (((((hA.append hskip).append hB).append hinto).append hA').append hexit).patch
    [(s₃.builder.position, .jumpFalse)] (s₃.emit 1 0 (.wide .jumpFalse 0)).builder.position
  refine (hy _ hentry.leads.sane hentry.holds hentry.height).imp fun _ s₄ hC => ?_
  rw [yields_emit (Nat.zero_le _), yields_patchHere, yields_emit (Nat.zero_le _), yields_patchHere,
    yields_setHeight]
  have hback := Step.emit hC.leads.sane hC.holds hC.height 0 0
    (.wide .jump (s₂.emit 0 0 (.wide .jump 0)).builder.position)
  -- the way out of the loop is settled
  have hloop := ((hentry.append hC).append hback).patch []
    (s₄.emit 0 0 (.wide .jump (s₂.emit 0 0 (.wide .jump 0)).builder.position)).builder.position
  generalize hs₅ : State.patch _ s₃.builder.position _ = s₅ at hloop ⊢
  have hp₅ : s₅.builder.position = s₄.builder.position + 1 := by
    rw [← hs₅, position_patch, position_emit]
  have hstop := Draft.jump hloop.leads.sane hloop.holds hloop.height 0 0 .jump
  have hfirst := ((hloop.append hstop).patch [(s₅.builder.position, .jump)]
    (s₅.emit 0 0 (.wide .jump 0)).builder.position).setHeight s.builder.height
  refine (hz _ hfirst.leads.sane hfirst.holds hh).imp fun _ s₆ hD => ?_
  rw [yields_patchHere]
  have hdone := (hfirst.append hD).patch [] s₆.builder.position
  refine hdone.imp ?_
  rintro P ⟨⟨⟨⟨⟨⟨⟨⟨⟨⟨⟨⟨⟨hA, hmax₁⟩, hB⟩, hmax₂⟩, hA'⟩, hmax₃⟩, hinto⟩, hC⟩, hback⟩, hexit⟩,
    hmax₄⟩, hskip⟩, hD⟩, hstop⟩
  simp only [position_emit, position_patch, position_setHeight, hp₅] at *
  exact ⟨s₁.builder.position, s₂.builder.position, s₃.builder.position, s₄.builder.position, hA,
    ⟨rfl, hskip, hmax₁.1, hmax₁.2⟩, hB, ⟨rfl, hinto, hmax₂.1, hmax₂.2⟩, hA',
    ⟨rfl, hexit, hmax₃.1, hmax₃.2⟩, hC, hback, ⟨rfl, hstop, hmax₄.1, hmax₄.2⟩, hD⟩

theorem expr_whileElse_none (pos : Position) (required : Bool) (c body : Node) :
    expr pos required (.whileElse c body none) =
      (do whenRequired required (.list 0); looping (node c) (loopBody required (node body))) := by
  rw [expr]
  rfl

theorem expr_whileElse_some (pos : Position) (required : Bool) (c body other : Node) :
    expr pos required (.whileElse c body (some other)) =
      loopingElse (node c) (whenRequired required (.list 0)) (loopBody required (node body))
        (node other) := by
  rw [expr]
  rfl

/-- The cases of a `match` with their bodies' shapes: each that is not at fault has an entry in the
table and ends with a jump to `stop`. -/
inductive Shape.Arms (k stop : Nat) (P : Prototype) :
    Table MatchKey Nat → List (Arm Node) → List Shape → Table MatchKey Nat → Nat → Nat → Prop where
  | nil {table : Table MatchKey Nat} {i : Nat} : Arms k stop P table [] [] table i i
  | skip {table table' : Table MatchKey Nat} {a : Arm Node} {as : List (Arm Node)} {S : Shape}
      {Ss : List Shape} {i j : Nat} :
      (∀ key, matchKey? a.pattern = some key → table.contains key = true) →
      Arms k stop P table as Ss table' i j → Arms k stop P table (a :: as) (S :: Ss) table' i j
  | take {table table' : Table MatchKey Nat} {a : Arm Node} {as : List (Arm Node)} {S : Shape}
      {Ss : List Shape} {key : MatchKey} {i m j : Nat} :
      matchKey? a.pattern = some key → table.contains key = false → S P i m →
      Shape.insn k k (.wide .jump stop) P m (m + 1) →
        Arms k stop P (table.insert key i) as Ss table' (m + 1) j →
      Arms k stop P table (a :: as) (S :: Ss) table' i j

/-- The bodies of cases are lowered one after the other, each as its shape says. A case at fault is
reported. -/
inductive ThreadsArms (h k : Nat) :
    Invariant → Invariant → Table MatchKey Nat → List (Arm Node) → List Shape → Prop where
  | nil {I : Invariant} {table : Table MatchKey Nat} : ThreadsArms h k I I table [] []
  | fault {I J K : Invariant} {table : Table MatchKey Nat} {a : Arm Node}
      {as : List (Arm Node)} {S : Shape} {Ss : List Shape} :
      (∀ key, matchKey? a.pattern = some key → table.contains key = true) →
      (∀ (s : State) (d : Diagnostic), d.isError = true → I.holds s →
        J.holds { s with diagnostics := s.diagnostics ++ [d] }) →
      ThreadsArms h k J K table as Ss → ThreadsArms h k I K table (a :: as) (S :: Ss)
  | take {I J K : Invariant} {table : Table MatchKey Nat} {a : Arm Node}
      {as : List (Arm Node)} {S : Shape} {Ss : List Shape} {key : MatchKey} :
      matchKey? a.pattern = some key → table.contains key = false →
        Threads I J (node a.body) h k S →
      (∀ i, ThreadsArms h k J K (table.insert key i) as Ss) →
        ThreadsArms h k I K table (a :: as) (S :: Ss)

theorem ThreadsArms.skip {a : Arm Node} {S : Shape}
    (hfault : ∀ key, matchKey? a.pattern = some key → table.contains key = true)
    (has : ThreadsArms h k I J table as Ss) : ThreadsArms h k I J table (a :: as) (S :: Ss) :=
  .fault hfault (fun s _ _ hI => I.inert (s := s) rfl (List.prefix_append _ _) rfl hI) has

theorem threadsArms_of_emits {S : Node → Shape}
    (hbody : ∀ a ∈ as, Emits I (node a.body) h k (S a.body)) (table : Table MatchKey Nat) :
    ThreadsArms h k I I table as (as.map fun a => S a.body) := by
  induction as generalizing table with
  | nil => exact .nil
  | cons a as ih =>
    have ih := ih fun b hb => hbody b (List.mem_cons_of_mem _ hb)
    cases hkey : matchKey? a.pattern with
    | none => exact .skip (by simp [hkey]) (ih table)
    | some key =>
      cases hcontains : table.contains key with
      | true => exact .skip (by simp [hkey, hcontains]) (ih table)
      | false => exact .take hkey hcontains (hbody a List.mem_cons_self) fun i => ih _

/-- What lowering cases from `s` to `t` guarantees, with the table and the jumps to be patched that
it gives. -/
abbrev ArmsDraft (I : Invariant) (k : Nat) (Ss : List Shape) (table : Table MatchKey Nat)
    (as : List (Arm Node)) (s : State) (r : Table MatchKey Nat × List Nat) (t : State) : Prop :=
  Draft I s t.builder.height (r.2.map fun site => (site, .jump))
    (fun P => ∀ stop, (∀ site ∈ r.2, P.Carries site (.wide .jump stop)) →
      Shape.Arms k stop P table as Ss r.1 s.builder.position t.builder.position) t

theorem yields_arms (has : ThreadsArms h k I J table as Ss) (hs : s.Sane) (hI : I.holds s) :
    Yields (arms h as table) s fun r t => ArmsDraft J k Ss table as s r t := by
  induction has generalizing s with
  | nil =>
    rw [arms, yields_pure]
    exact (Step.refl hs hI rfl).imp fun P hP stop _ => by rw [hP]; exact .nil
  | @fault I J K table a as S Ss hfault hreport _ ih =>
    -- the case is at fault: it is reported, and the table stays as it is
    have hskip : ∀ d : Diagnostic, d.isError = true →
        Yields (arms h as table) { s with diagnostics := s.diagnostics ++ [d] } fun r t =>
          ArmsDraft K k (S :: Ss) table (a :: as) s r t := by
      intro d herror
      have hd : Step J s s.builder.height .none { s with diagnostics := s.diagnostics ++ [d] } :=
        .quiet (.report hs d) rfl rfl (hreport s d herror hI)
      refine (ih hd.leads.sane hd.holds).imp fun r t hr => ?_
      exact ((hd.append hr).reorder _ (by simp)).imp fun P hP stop hstop =>
        .skip hfault (hP.2 stop hstop)
    obtain ⟨pos, pattern, body⟩ := a
    simp only [arms, arm, yields_bind]
    split
    · simp only [yields_bind, yields_pure, yields_report, List.nil_append]
      exact hskip _ rfl
    · rename_i key hkey
      rw [if_pos (hfault key hkey)]
      simp only [yields_bind, yields_pure, yields_report, List.nil_append]
      exact hskip _ rfl
  | @take I J K table a as S Ss key hkey hcontains hbody _ ih =>
    obtain ⟨pos, pattern, body⟩ := a
    simp only [arms, arm, yields_bind]
    rw [hkey]
    simp only [hcontains, if_neg Bool.false_ne_true]
    simp only [yields_bind, yields_pure, yields_position, yields_setHeight, Build.jump]
    have hstart := (Step.refl hs hI rfl).setHeight h
    refine (hbody _ hstart.leads.sane hstart.holds hstart.height).imp fun _ s₁ hB => ?_
    rw [yields_emit (Nat.zero_le _)]
    have hjump := Draft.jump hB.leads.sane hB.holds hB.height 0 0 .jump
    refine (ih s.builder.position hjump.leads.sane hjump.holds).imp fun r t hr => ?_
    refine ((((hstart.append hB).append hjump).append hr).reorder _ ?_).imp ?_
    · exact (List.perm_append_singleton _ _).symm
    · rintro P ⟨⟨⟨_, hB⟩, hmax⟩, hr⟩ stop hstop
      rw [position_emit] at hr
      refine .take hkey hcontains hB ⟨rfl, hstop _ List.mem_cons_self, hmax.1, hmax.2⟩ ?_
      exact hr stop fun site hsite => hstop site (List.mem_cons_of_mem _ hsite)

theorem yields_patchAll {t : State} (ends : List Nat) (stop : Nat)
    (d : Draft I s h (ends.map fun site => (site, .jump)) Q t) :
    Yields (ends.forM fun site => build (.patchJump site stop)) t fun _ u =>
      Draft I s h [] (fun P => Q P ∧ ∀ site ∈ ends, P.Carries site (.wide .jump stop)) u ∧
        u.builder.position = t.builder.position := by
  induction ends generalizing t Q with
  | nil =>
    rw [List.forM, yields_pure]
    exact ⟨d.imp fun P hP => ⟨hP, fun _ hsite => (List.not_mem_nil hsite).elim⟩, rfl⟩
  | cons site ends ih =>
    rw [List.forM, yields_bind, yields_build (a := ()) (b := t.builder.patch site stop) rfl]
    refine (ih (d.patch [] stop)).imp fun _ u hu =>
      ⟨hu.1.imp ?_, hu.2.trans (position_patch site stop)⟩
    rintro P ⟨⟨hQ, hsite⟩, hends⟩
    exact ⟨hQ, List.forall_mem_cons.2 ⟨hsite, hends⟩⟩

/-- The state with one more jump table, which is still empty. -/
def State.reserve (s : State) : State :=
  { s with builder := s.builder.reserveTable.2 }

theorem Draft.fill {s₁ u : State} {t : JumpTable} {R : Prototype → Prop} (d₁ : Draft I s k [] Q s₁)
    (d₂ : Draft J s₁.reserve h [] R u) (ht : t.HasDefault) :
    Draft J s h [] (fun P => Q P ∧ P.tables[s₁.builder.tables.length]? = some t ∧ R P)
      { u with builder := u.builder.fillTable s₁.builder.tables.length t } := by
  have hreserve : Keeps s₁.builder s₁.reserve.builder := by
    refine { Keeps.refl
      s₁.builder with length := by simp [State.reserve, Builder.reserveTable], tables := ?_ }
    intro k hk
    exact List.getElem?_append_left hk
  have hkeeps := hreserve.trans d₂.leads.keeps
  have hlength : s₁.builder.tables.length < u.builder.tables.length := by
    have hle := d₂.leads.keeps.length
    simp only [State.reserve, Builder.reserveTable, List.length_append,
      List.length_singleton] at hle
    exact hle
  refine ⟨⟨?_, ?_, ?_, ?_, ?_, ?_⟩, d₂.height, ?_, fun _ hp => (List.not_mem_nil hp).elim, .nil,
    fun P hP => ⟨?_, ?_, ?_⟩⟩
  · exact Builder.keeps_fillTable t (d₁.leads.keeps.trans hkeeps) d₁.leads.keeps.length
  · exact d₂.leads.scopes.trans d₁.leads.scopes
  · intro k v hk hv
    simp only [Builder.fillTable, List.getElem?_set] at hv
    split at hv
    · cases hv
      exact ht
    · rcases Nat.lt_or_ge k s₁.builder.tables.length with hlt | hge
      · rw [hkeeps.tables k hlt] at hv
        exact d₁.leads.filled k v hk hv
      · refine d₂.leads.filled k v ?_ hv
        simp only [State.reserve, Builder.reserveTable, List.length_append, List.length_singleton]
        omega
  · exact Builder.Linked.update d₂.leads.sane { d₂.leads.sane.sound with } rfl
  · exact d₁.leads.enclosing.trans d₂.leads.enclosing
  · exact d₁.leads.diagnostics.trans d₂.leads.diagnostics
  · exact J.inert (s := u) rfl (List.prefix_refl _) rfl d₂.holds
  · exact d₁.code P (hP.of_keeps (Builder.keeps_fillTable t hkeeps (Nat.le_refl _)))
  · rw [hP.tables s₁.builder.tables.length d₁.leads.keeps.length
        (by rw [Builder.fillTable, List.length_set]; exact hlength),
      Builder.fillTable, List.getElem?_set_self hlength]
  · refine d₂.code P { hP with code := fun k i hk => hP.code k i ?_, tables := ?_ }
    · exact Nat.le_trans (d₁.leads.keeps.trans hreserve).size hk
    · intro k hk hlt
      simp only [Builder.mark, State.reserve, Builder.reserveTable, List.length_append,
        List.length_singleton] at hk
      have hle := d₁.leads.keeps.length
      rw [hP.tables k (by simp only [Builder.mark]; omega)
        (by rw [Builder.fillTable, List.length_set]; exact hlt),
        Builder.fillTable, List.getElem?_set_ne (by omega)]

/-- A table with an entry for the case that no other is meant. -/
def orStop (table : Table MatchKey Nat) (stop : Nat) : Table MatchKey Nat :=
  if table.contains .default then table else table.insert .default stop

theorem hasDefault_orStop (table : Table MatchKey Nat) (stop : Nat) :
    JumpTable.HasDefault ⟨orStop table stop⟩ := by
  unfold JumpTable.HasDefault orStop
  split
  · assumption
  · rw [Table.get?_insert, if_pos rfl]
    rfl

theorem mem_orStop {stop : Nat} {entry : MatchKey × Nat} (h : entry ∈ (orStop table stop).entries) :
    entry ∈ table.entries ∨ (table.contains .default = false ∧ entry.2 = stop) := by
  unfold orStop at h
  split at h
  · exact .inl h
  · rename_i hdefault
    exact (Table.mem_insert h).imp id fun heq => ⟨by simpa using hdefault, heq⟩

/-- A scrutinee, the cases, and null for the case that none of them is meant but a value is
wanted. -/
def Shape.matching (h : Nat) (required : Bool) (A : Shape) (Ss : List Shape)
    (cases : List (Arm Node)) : Shape :=
  fun P i j => ∃ m index table a, A P i m ∧ insn (h + 1) h (.wide .matchOn index) P m (m + 1) ∧
    Arms (h + required.toNat) j P .empty cases Ss table (m + 1) a ∧
    if table.contains .default || !required then
      a = j ∧ P.tables[index]? = some ⟨orStop table j⟩
    else insn h (h + 1) (.simple .pushNull) P a j ∧
      P.tables[index]? = some ⟨table.insert .default a⟩

theorem yields_settle {s₁ t : State} {R : Prototype → Prop} {n : Nat} (table : Table MatchKey Nat)
    (ends : List Nat) (height : Nat) (d₁ : Draft I s k [] Q s₁)
    (d₂ : Draft J s₁.reserve n (ends.map fun site => (site, .jump)) R t) :
    Yields (do
      let stop ← build .position
      ends.forM fun site => build (.patchJump site stop)
      build (modify (·.fillTable s₁.builder.tables.length ⟨orStop table stop⟩))
      build (.setHeight height)) t fun _ u =>
        Draft J s height [] (fun P => Q P ∧
          P.tables[s₁.builder.tables.length]? = some ⟨orStop table t.builder.position⟩ ∧ R P ∧
          ∀ site ∈ ends, P.Carries site (.wide .jump t.builder.position)) u ∧
        u.builder.position = t.builder.position := by
  simp only [yields_bind, yields_position]
  refine (yields_patchAll ends t.builder.position d₂).imp fun _ u hu => ?_
  rw [yields_build (a := ()) (b := u.builder.fillTable _ _) rfl, yields_setHeight]
  exact ⟨(d₁.fill hu.1 (hasDefault_orStop table t.builder.position)).setHeight height, hu.2⟩

theorem threads_matching (pos : Position) (required : Bool) (scrutinee : Node)
    (cases : List (Arm Node)) (hx : Threads I J (node scrutinee) h (h + 1) A)
    (hcases : ThreadsArms h (h + required.toNat) J K .empty cases Ss) :
    Threads I K (expr pos required (.matchCases scrutinee cases)) h (h + required.toNat)
      (.matching h required A Ss cases) := by
  intro s hs hI hh
  simp only [expr, Build.matchOn, yields_bind]
  refine (hx s hs hI hh).imp fun _ s₁ hA => ?_
  have hreserve : s₁.reserve.Sane :=
    Builder.Linked.update hA.leads.sane { hA.leads.sane.sound with } rfl
  have hholds : J.holds s₁.reserve := J.inert (s := s₁) rfl (List.prefix_refl _) rfl hA.holds
  refine (yields_build (a := s₁.builder.tables.length) (b := s₁.reserve.builder) rfl).2 ?_
  have hheight : s₁.reserve.builder.height = h + 1 := hA.height
  refine (yields_emitUnit (s := s₁.reserve) (by omega) _ _).2 ?_
  have hmatch := Step.emit hreserve hholds hheight 1 0 (.wide .matchOn s₁.builder.tables.length)
  rw [yields_get, hmatch.height]
  refine (yields_arms hcases hmatch.leads.sane hmatch.holds).imp fun r t hr => ?_
  obtain ⟨table, ends⟩ := r
  have hcases := (hmatch.append hr).reorder (ends.map fun site => (site, .jump)) (by simp)
  have hend : (if required = true then h + 1 - 1 + 0 + 1 else h + 1 - 1 + 0) =
      h + required.toNat := by
    cases required <;> rfl
  rw [hend]
  split
  · rename_i hdefault
    rw [pure_bind]
    refine (yields_settle table ends _ hA hcases).imp fun _ u hu => hu.1.imp ?_
    rintro P ⟨hA, htable, ⟨hmatch, hcases⟩, hends⟩
    rw [position_emit] at hmatch hcases
    refine ⟨_, _, table, t.builder.position, hA, hmatch, ?_, ?_⟩
    · rw [hu.2]
      exact hcases _ hends
    · rw [if_pos hdefault, hu.2]
      exact ⟨rfl, htable⟩
  · rename_i hdefault
    have hjoin := hcases.setHeight h
    rw [yields_bind, yields_position, yields_bind, yields_setHeight, yields_bind, Build.null,
      yields_emitUnit (Nat.zero_le _), pure_bind]
    have hnull := Step.emit hjoin.leads.sane hjoin.holds hjoin.height 0 1 (.simple .pushNull)
    have hall := (hjoin.append hnull).reorder (ends.map fun site => (site, .jump)) (by simp)
    refine (yields_settle (table.insert .default t.builder.position) ends _ hA hall).imp
      fun _ u hu => hu.1.imp ?_
    rintro P ⟨hA, htable, ⟨⟨hmatch, hcases⟩, hnull⟩, hends⟩
    rw [position_emit] at hmatch hcases
    refine ⟨_, _, table, t.builder.position, hA, hmatch, ?_, ?_⟩
    · rw [hu.2]
      exact hcases _ hends
    · rw [if_neg hdefault, hu.2]
      refine ⟨hnull, ?_⟩
      rw [htable, orStop, if_pos]
      rw [Table.contains, Table.get?_insert, if_pos rfl]
      rfl

theorem emits_discard (required : Bool) :
    Emits I (discard required) (h + 1) (h + required.toNat)
      (if required then .none else .insn (h + 1) h (.simple .pop)) := by
  cases required with
  | true => exact emits_pure
  | false => exact emits_insn (Nat.le_add_left 1 h) 0 (.simple .pop)

theorem emits_whenRequired (required : Bool) {x : Build Unit} (hx : Emits I (build x) h (h + 1) A) :
    Emits I (whenRequired required x) h (h + required.toNat) (if required then A else .none) := by
  cases required with
  | true => exact hx
  | false => exact emits_pure

theorem threads_ret (required : Bool) (hx : Threads I J x h (h + 1) A) :
    Threads I J (do x; build .ret; if required
      then build (.setHeight ((← get).builder.height + 1)) else return)
      h (h + required.toNat) (A.seq (.insn (h + 1) h (.simple .ret))) := by
  intro s hs hI hh
  simp only [yields_bind]
  refine (hx s hs hI hh).imp fun _ s₁ hA => ?_
  rw [Build.ret, yields_emitUnit (by rw [hA.height]; omega)]
  have hret := hA.seq (Step.emit hA.leads.sane hA.holds hA.height 1 0 (.simple .ret))
  cases required with
  | true =>
    rw [if_pos rfl, yields_bind, yields_get, hret.height, yields_setHeight]
    exact Draft.setHeight hret _
  | false => exact yields_pure.2 hret

/-- The builder after a scope has started. -/
def pushScope (b : Builder) : Builder :=
  { b with scopes := b.active.length :: b.scopes }

/-- The builder after the innermost scope has ended, but for the lives of its locals. -/
def popScope (b : Builder) (base : Nat) (scopes : List Nat) : Builder :=
  { b with scopes := scopes, active := b.active.take base }

/-- What is in a scope that ends in a state with `J`, and after it the closing of its locals if one
of them is captured. -/
def Shape.scope (J : Invariant) (h : Nat) (A : Shape) : Shape := fun P i j =>
  ∃ (s : State) (base : Nat), J.holds s ∧ s.builder.scopes.head? = some base ∧
    if (s.builder.active.drop base).any LocalInfo.captured then
      base < P.maxLocals ∧ ∃ m, A P i m ∧ insn h h (.wide .closeOuters base) P m j
    else A P i j

theorem Step.retire {u : State} (hu : Step I s k A u) (ls : List LocalInfo) :
    Step I s k A { u with builder := u.builder.retire ls } := by
  have hleads : Leads u { u with builder := u.builder.retire ls } :=
    .builder hu.leads.sane { Keeps.refl u.builder with } rfl rfl rfl { hu.leads.sane.sound with }
  refine { hu with
    leads := hu.leads.trans hleads
    holds := I.inert (s := u) rfl (List.prefix_refl _) rfl hu.holds
    code := fun P hP => ?_ }
  exact hu.code P { hP with }

theorem endScope_run {b : Builder} {base : Nat} {scopes : List Nat}
    (hb : b.scopes = base :: scopes) : Build.endScope b = .ok ()
      ((if (b.active.drop base).any LocalInfo.captured then
        (popScope b base scopes).emitted 0 0 (.wide .closeOuters base)
        else popScope b base scopes).retire (b.active.drop base)) := by
  have hget (f : Builder → Build Unit) : (get >>= f) b = f b b := rfl
  rw [Build.endScope, hget, hb]
  dsimp only
  split
  · rfl
  · rfl

theorem threads_scope (hopen : ∀ s, I.holds s → J.holds { s with builder := pushScope s.builder })
    (hclose : ∀ s base scopes, K.holds s → s.builder.scopes = base :: scopes →
      L.holds { s with builder := popScope s.builder base scopes })
    (hx : Threads J K x h k A) : Threads I L (do build .startScope; x; build .endScope) h k
      (.scope K k A) := by
  intro s hs hI hh
  simp only [yields_bind]
  -- the scope starts
  refine (yields_build (a := ()) (b := pushScope s.builder) rfl).2 ?_
  have hstart : State.Sane { s with builder := pushScope s.builder } :=
    Builder.Linked.update hs { hs.sound with } rfl
  refine (hx _ hstart (hopen s hI) hh).imp fun _ t hA => ?_
  obtain ⟨base, hbase⟩ : ∃ base, t.builder.scopes = base :: s.builder.scopes := ⟨_, hA.leads.scopes⟩
  -- the scope ends
  have hpop : Step L s k A { t with builder := popScope t.builder base s.builder.scopes } := by
    refine ⟨⟨{ hA.leads.keeps with }, rfl, hA.leads.filled, ?_, hA.leads.enclosing,
      hA.leads.diagnostics⟩, hA.height,
      hclose t base _ hA.holds hbase, fun _ hp => (List.not_mem_nil hp).elim, .nil, ?_⟩
    · exact Builder.Linked.update hA.leads.sane { hA.leads.sane.sound.take base with } rfl
    · intro P hP
      exact hA.code P { hP with }
  refine (yields_build (endScope_run hbase)).2 ?_
  have hhead : t.builder.scopes.head? = some base := by rw [hbase, List.head?_cons]
  split
  · rename_i hcaptured
    have hnonempty : base < t.builder.active.length := by
      obtain ⟨l, hl, _⟩ := List.any_eq_true.1 hcaptured
      have := List.length_pos_of_mem hl
      rw [List.length_drop] at this
      omega
    have hclosed := Step.emit hpop.leads.sane hpop.holds hpop.height 0 0 (.wide .closeOuters base)
    have hactive := hA.leads.sane.sound.active
    refine { (hpop.seq hclosed).retire _ with code := fun P hP => ?_ }
    obtain ⟨m, hA', hinsn⟩ := ((hpop.seq hclosed).retire _).code P hP
    have hmax := hP.maxLocals
    simp only [Builder.retire, Builder.emitted, Builder.push, Builder.grow, Builder.setHeight,
      popScope] at hmax
    refine ⟨t, base, hA.holds, hhead, ?_⟩
    rw [if_pos hcaptured]
    exact ⟨by omega, m, hA', hinsn⟩
  · rename_i hfree
    refine (hpop.retire _).imp fun P hP => ⟨t, base, hA.holds, hhead, ?_⟩
    rw [if_neg hfree]
    exact hP

theorem expr_scope (pos : Position) (required : Bool) (items : List Node) :
    expr pos required (.scope items) = (do
      build .startScope
      (do nodes items; if items.isEmpty then whenRequired required .null)
      build .endScope) := by
  rw [expr]
  simp only [bind_assoc]
  split
  · rfl
  · simp only [pure_bind]

end Lower
end Refscript
