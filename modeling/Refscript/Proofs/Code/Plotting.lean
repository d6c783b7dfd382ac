import Refscript.Proofs.Code.Context
import Refscript.Proofs.Code.Labels

/-!
# Refscript.Proofs.Code.Plotting

Pieces of finished code that are what a plan says. `Plotted.Charted c r` is the shape of such a
piece: there is one instruction for each entry, it is what the entry says, and control goes through
the piece, from the open blocks that `c` has to those at the end of `r`, as the open blocks of the
entries allow.

The rules follow the shapes of code with jumps. Control may always go forward from one place of a
construct to another, since a construct only declares names; where it goes back, at the end of a
loop, the names in scope must be the same as at the start of the loop.
-/

namespace Refscript

open StackCheck Lower

variable {h h' : Nat} {op : Opcode} {K : List (Nat × String)} {c : Context}

theorem Scope.Flow.trans {S S' S'' : Scope} (h₁ : Scope.Flow K S S') (h₂ : Scope.Flow K S' S'') :
    Scope.Flow K S S'' := by
  induction h₂ with
  | refl => exact h₁
  | leave _ hb ih => exact ih.leave hb
  | declare more _ ih => exact ih.declare more
  | enter b _ ih => exact ih.enter b

/-- What holds of a construct in the context `c`: the context after it, and the entries. -/
structure Plotted.Sound (c : Context) (r : Plotted) : Prop where
  ok : r.context.Ok
  grows : c.Grows r.context
  distinct : ∀ e ∈ r.entries, e.scope.Distinct
  steady : r.steady = true → ∀ D ∈ r.context.inner, D ∈ c.inner ∨ D.2.steady = true

@[simp] theorem Plotted.context_seq (a b : Plotted) : (a.seq b).context = b.context := rfl

theorem Plan.context_emit (use : Use) (c : Context) : (emit use c).context = c := rfl

theorem Plotted.seq_nil (a : Plotted) : a.seq ⟨[], a.context, true⟩ = a := by
  simp only [Plotted.seq, List.append_nil, Bool.and_true]

theorem Plotted.Sound.seq {a b : Plotted} (ha : a.Sound c) (hb : b.Sound a.context) :
    (a.seq b).Sound c := by
  refine ⟨hb.ok, ha.grows.trans hb.grows, fun e he => ?_, fun hsteady D hD => ?_⟩
  · exact (List.mem_append.1 he).elim (ha.distinct e) (hb.distinct e)
  · obtain ⟨hsa, hsb⟩ := Bool.and_eq_true_iff.1 hsteady
    rcases hb.steady hsb D hD with hD | hD
    · exact ha.steady hsa D hD
    · exact .inr hD

theorem Plotted.Sound.quiet {c' : Context} (hgrows : c.Grows c') (hok : c'.Ok)
    (hinner : c'.inner = c.inner) : Plotted.Sound c ⟨[], c', true⟩ :=
  ⟨hok, hgrows, fun _ he => (List.not_mem_nil he).elim,
    fun _ _ hD => .inl (by rw [← hinner]; exact hD)⟩

theorem Plotted.Sound.emit (hok : c.Ok) (use : Use) : (Plan.emit use c).Sound c := by
  refine ⟨hok, .refl hok, fun e he => ?_, fun _ _ hD => .inl hD⟩
  rw [List.mem_singleton.1 he]
  exact hok.scope

namespace Plan

theorem append_assoc (p q r : Plan) : p ++ q ++ r = p ++ (q ++ r) := by
  funext c
  show ((p c).seq (q (p c).context)).seq (r (q (p c).context).context) = (p c).seq ((q _).seq (r _))
  simp only [Plotted.seq, List.append_assoc, Bool.and_assoc]

theorem skip_append (p : Plan) : skip ++ p = p := by
  funext c
  show Plotted.seq ⟨[], c, true⟩ (p c) = p c
  simp only [Plotted.seq, List.nil_append, Bool.true_and]

theorem append_skip (p : Plan) : p ++ skip = p := by
  funext c
  exact (p c).seq_nil

end Plan

namespace Prototype

variable {P : Prototype} {k target : Nat} {i : Insn}

theorem nexts_eq (hi : P.Carries k i) :
    P.nexts k = ((successors? P i.op i.pack k 0).getD []).map Prod.fst := by
  unfold nexts
  simp only [hi.word, i.op?_pack]

theorem nexts_straight (hi : P.Carries k i) (hop : straight i.op = true) : P.nexts k = [k + 1] := by
  rw [nexts_eq hi, successors_straight hop]
  rfl

theorem nexts_jump (hi : P.Carries k (.wide .jump target)) : P.nexts k = [target] := by
  rw [nexts_eq hi]
  show [(Insn.wide .jump target).pack.c] = _
  rw [Insn.c_pack rfl hi.fits]
  rfl

theorem nexts_branch (hop : (landing h op).isSome = true) (hi : P.Carries k (.wide op target)) :
    P.nexts k = [target, k + 1] := by
  have hc : (Insn.wide op target).pack.c = target := by
    cases op <;> first | exact Insn.c_pack rfl hi.fits | cases hop
  rw [nexts_eq hi]
  cases op <;> first | (show [_, _] = _; rw [hc]) | cases hop

theorem nexts_ret (hi : P.Carries k (.simple .ret)) : P.nexts k = [] :=
  nexts_eq hi

theorem nexts_match {index : Nat} {table : JumpTable} (hi : P.Carries k (.wide .matchOn index))
    (htable : P.tables[index]? = some table) : P.nexts k = table.cases.entries.map Prod.snd := by
  have hc : (Insn.wide .matchOn index).pack.c = index := Insn.c_pack rfl hi.fits
  rw [nexts_eq hi]
  have hop : (Insn.wide .matchOn index).op = .matchOn := rfl
  simp only [hop, successors?, hc, htable, Option.getD_some, List.map_map]
  rfl

end Prototype

/-- Blocks that are over by now have no captured variables in `K` but those that they have
already. -/
def Context.Settles (c : Context) (K : List (Nat × String)) : Prop :=
  ∀ p ∈ K, p ∈ c.captured ∨ p.1 ∈ c.ids ∨ c.fresh ≤ p.1

theorem Context.Settles.of_grows {c' : Context} (h : c'.Settles K) (hgrows : c.Grows c') :
    c.Settles K := by
  intro p hp
  rcases h p hp with hp | hp | hp
  · exact hgrows.old p hp
  · rw [hgrows.ids_eq] at hp
    exact .inr (.inl hp)
  · exact .inr (.inr (Nat.le_trans hgrows.fresh hp))

/-- The labels from `i` on are the entries. -/
def Covers (label : Nat → Option Entry) (i : Nat) (es : List Entry) : Prop :=
  ∀ (n : Nat) (e : Entry), es[n]? = some e → label (i + n) = some e

theorem Covers.append {label : Nat → Option Entry} {i : Nat} {es es' : List Entry}
    (h : Covers label i (es ++ es')) : Covers label i es ∧ Covers label (i + es.length) es' := by
  refine ⟨fun n e he => h n e ?_, fun n e he => ?_⟩
  · exact getElem?_of_isPrefix (List.prefix_append _ _) he
  · rw [Nat.add_assoc]
    refine h (es.length + n) e ?_
    rw [List.getElem?_append_right (Nat.le_add_right _ _), Nat.add_sub_cancel_left]
    exact he

/-- The instruction at `k` has a label with the open blocks `S`, and leads to `targets`. -/
def Path (P : Prototype) (label : Nat → Option Entry) (k : Nat) (S : Scope)
    (targets : List (Nat × Scope)) : Prop :=
  ∃ e, label k = some e ∧ e.scope = S ∧ targets = (P.nexts k).map fun next => (next, e.after)

namespace Plotted

/-- The instructions are what the entries say. -/
def Placed (c : Context) (r : Plotted) : Shape := fun P i j =>
  j = i + r.entries.length ∧ ∀ (n : Nat) (e : Entry), r.entries[n]? = some e →
    e.Fits (c.around.map Scope.names) r.context.inner P (i + n) ∧ e.Notes r.context.captured P

/-- Control goes through the piece as the open blocks allow. -/
def Routed (X Y : List (Nat × Scope)) (r : Plotted) : Shape := fun P i j =>
  r.steady = true → ∀ (K : List (Nat × String)) (label : Nat → Option Entry), r.context.Settles K →
    Covers label i r.entries → Labelled (Scope.Flow K) (Path P label) X Y i j r.context.scope

/-- The piece is what the plan says. -/
def Charted (c : Context) (r : Plotted) : Shape := fun P i j =>
  r.Placed c P i j ∧ r.Routed [] [(i, c.scope)] P i j

end Plotted

theorem Entry.Fits.mono {e : Entry} {around : List (List String)}
    {inner inner' : List (Scope × Chart)} {P : Prototype} {k : Nat} (h : e.Fits around inner P k)
    (hinner : inner <+: inner') : e.Fits around inner' P k := by
  obtain ⟨S, use⟩ := e
  cases use with
  | create places =>
    refine ⟨fun i hi => ?_, h.2⟩
    obtain ⟨D, hD, heq⟩ := Option.map_eq_some_iff.1 (h.1 i hi)
    rw [getElem?_of_isPrefix hinner hD, Option.map_some, heq]
  | _ => exact h

theorem Entry.Notes.mono {e : Entry} {K' : List (Nat × String)} {P : Prototype} (h : e.Notes K P)
    (hK : ∀ p ∈ K, p ∈ K') : e.Notes K' P := by
  obtain ⟨S, use⟩ := e
  cases use with
  | create places => exact fun i hi q hq o ho hkind => (h i hi q hq o ho hkind).mono hK
  | access a x =>
    cases a with
    | refer => exact fun hx => (h hx).mono hK
    | _ => trivial
  | _ => trivial

namespace Plotted

variable {c c' : Context} {a b d r : Plotted} {P : Prototype} {i j m n k target : Nat}
  {X Y X' Y' : List (Nat × Scope)}

theorem Placed.size (h : r.Placed c P i j) : j = i + r.entries.length :=
  h.1

theorem Placed.seq (h₁ : a.Placed c P i m) (ha : a.Sound c) (hb : b.Sound a.context)
    (h₂ : b.Placed a.context P m j) : (a.seq b).Placed c P i j := by
  obtain ⟨rfl, h₁⟩ := h₁
  obtain ⟨rfl, h₂⟩ := h₂
  refine ⟨by rw [Plotted.seq, List.length_append, Nat.add_assoc], fun n e he => ?_⟩
  rcases Nat.lt_or_ge n a.entries.length with hn | hn
  · rw [Plotted.seq, List.getElem?_append_left hn] at he
    obtain ⟨hfits, hnotes⟩ := h₁ n e he
    exact ⟨hfits.mono hb.grows.inner, hnotes.mono hb.grows.captured⟩
  · rw [Plotted.seq, List.getElem?_append_right hn] at he
    obtain ⟨hfits, hnotes⟩ := h₂ _ e he
    rw [ha.grows.around, Nat.add_assoc, Nat.add_sub_cancel' hn] at hfits
    exact ⟨hfits, hnotes⟩

theorem Routed.join (h₁ : a.Routed X Y P i m) (hb : b.Sound a.context)
    (hm : m = i + a.entries.length) (h₂ : b.Routed X' Y' P m j)
    (hmeet : (m, a.context.scope) ∈ Y') : (a.seq b).Routed (X ++ X') (Y ++ Y') P i j := by
  intro hsteady K label hK hcovers
  obtain ⟨hsa, hsb⟩ := Bool.and_eq_true_iff.1 hsteady
  obtain ⟨hca, hcb⟩ := hcovers.append
  rw [← hm] at hcb
  exact (h₁ hsa K label (hK.of_grows hb.grows) hca).join .trans (h₂ hsb K label hK hcb) hmeet

theorem Routed.close (h : r.Routed X Y P i j)
    (hX : ∀ K, ∀ x ∈ X, Labelled.Welcome (Scope.Flow K) Y j r.context.scope x ∨
      ∃ x' ∈ X', x'.1 = x.1 ∧ Scope.Flow K x.2 x'.2)
    (hY : ∀ K, ∀ y ∈ Y', Labelled.Welcome (Scope.Flow K) Y j r.context.scope y) :
      r.Routed X' Y' P i j :=
  fun hsteady K label hK hcovers => (h hsteady K label hK hcovers).close .trans (hX K) (hY K)

theorem welcome_of_mem {S : Scope} {y : Nat × Scope} (hy : y ∈ Y) :
    Labelled.Welcome (Scope.Flow K) Y j S y :=
  .inl ⟨y, hy, rfl, .refl⟩

theorem Charted.quiet {steady : Bool} (hgrows : c.Grows c') (h : Shape.none P i j) :
    Charted c ⟨[], c', steady⟩ P i j := by
  obtain rfl : i = j := h
  refine ⟨⟨rfl, fun n e he => by simp at he⟩, fun _ K label _ _ => ?_⟩
  exact .empty (hgrows.flow K) i

theorem Charted.seq (ha : a.Sound c) (hb : b.Sound a.context)
    (hs : Shape.seq (a.Charted c) (b.Charted a.context) P i j) : (a.seq b).Charted c P i j := by
  obtain ⟨m, ⟨hpa, hra⟩, hpb, hrb⟩ := hs
  refine ⟨hpa.seq ha hb hpb, ?_⟩
  exact (hra.join hb hpa.size hrb (List.mem_singleton_self _)).close (by simp) fun K y hy => by
    rw [List.mem_singleton.1 hy]
    exact welcome_of_mem List.mem_cons_self

theorem Charted.seq_nil (h : a.Charted c P i j) :
    (a.seq ⟨[], a.context, true⟩).Charted c P i j := by
  rw [Plotted.seq_nil]
  exact h

theorem routed_emit {use : Use} (huse : use ≠ .close)
    (hnext : ∀ next ∈ P.nexts i, (next, c.scope) ∈ X ∨ next = i + 1) :
    (Plan.emit use c).Routed X [(i, c.scope)] P i (i + 1) := by
  intro _ K label _ hcovers
  have hafter : Entry.after ⟨c.scope, use⟩ = c.scope := by
    cases use <;> first | rfl | exact absurd rfl huse
  refine .single ⟨⟨c.scope, use⟩, hcovers 0 _ rfl, rfl, rfl⟩ .refl fun t ht => ?_
  obtain ⟨next, hmem, rfl⟩ := List.mem_map.1 ht
  rw [hafter]
  refine (hnext next hmem).imp (fun hX => ⟨_, hX, rfl, .refl⟩) fun heq => ⟨heq, .refl⟩

theorem placed_emit {use : Use}
    (hfits : Entry.Fits ⟨c.scope, use⟩ (c.around.map Scope.names) c.inner P i)
    (hnotes : Entry.Notes ⟨c.scope, use⟩ c.captured P) :
    (Plan.emit use c).Placed c P i (i + 1) := by
  refine ⟨rfl, fun n e he => ?_⟩
  cases n with
  | zero =>
    cases he
    exact ⟨hfits, hnotes⟩
  | succ n => cases he

theorem placed_step {insn : Insn} (hi : Shape.insn h h' insn P i j) (hname : insn.nameless = true) :
    (Plan.step c).Placed c P i j := by
  obtain ⟨rfl, hcarries, _⟩ := hi
  exact placed_emit ⟨insn, hcarries, hname⟩ trivial

theorem routed_jump (hi : Shape.insn h h' (.wide .jump target) P i j) :
    (Plan.step c).Routed [(target, c.scope)] [(i, c.scope)] P i j := by
  obtain ⟨rfl, hcarries, _⟩ := hi
  refine routed_emit (by simp) fun next hnext => .inl ?_
  rw [Prototype.nexts_jump hcarries, List.mem_singleton] at hnext
  rw [hnext]
  exact List.mem_singleton_self _

theorem routed_branch (hop : (landing k op).isSome = true)
    (hi : Shape.insn h h' (.wide op target) P i j) :
    (Plan.step c).Routed [(target, c.scope)] [(i, c.scope)] P i j := by
  obtain ⟨rfl, hcarries, _⟩ := hi
  refine routed_emit (by simp) fun next hnext => ?_
  rw [Prototype.nexts_branch hop hcarries] at hnext
  simpa using hnext

theorem nameless_branch (hop : (landing k op).isSome = true) :
    (Insn.wide op target).nameless = true := by
  cases op <;> first | rfl | cases hop

theorem Charted.step {insn : Insn} (hj : j = i + 1) (hcarries : P.Carries i insn)
    (hname : insn.nameless = true) (hop : straight insn.op = true) :
    (Plan.step c).Charted c P i j := by
  subst hj
  refine ⟨placed_emit ⟨insn, hcarries, hname⟩ trivial,
    routed_emit (by simp) fun next hnext => .inr ?_⟩
  rw [Prototype.nexts_straight hcarries hop] at hnext
  exact List.mem_singleton.1 hnext

theorem Charted.junction (hop : (landing k op).isSome = true) (ha : a.Sound c)
    (hb : b.Sound a.context) (hs : Shape.junction h (a.Charted c) op (b.Charted a.context) P i j) :
    ((a.seq (Plan.step a.context)).seq b).Charted c P i j := by
  obtain ⟨m, ⟨hpa, hra⟩, hjump, hpb, hrb⟩ := hs
  have hstep := Sound.emit ha.ok .plain
  have htest := hpa.seq ha hstep (placed_step hjump (nameless_branch hop))
  refine ⟨htest.seq (ha.seq hstep) hb hpb, ?_⟩
  refine ((hra.join hstep hpa.size (routed_branch hop hjump) (by simp)).join hb htest.size hrb
    (by simp [Plan.context_emit])).close ?_ ?_
  · intro K x hx
    obtain rfl : x = (j, a.context.scope) := by simpa using hx
    exact .inl (.inr ⟨rfl, hb.grows.flow K⟩)
  · intro K y hy
    exact welcome_of_mem (by simp_all)

theorem Charted.either (hop : (landing k op).isSome = true) (ha : a.Sound c)
    (hb : b.Sound a.context) (hd : d.Sound b.context)
    (hs : Shape.either h h' (a.Charted c) op (b.Charted a.context) (d.Charted b.context) P i j) :
    ((((a.seq (Plan.step a.context)).seq b).seq (Plan.step b.context)).seq d).Charted c P i j := by
  obtain ⟨m, n, ⟨hpa, hra⟩, hskip, ⟨hpb, hrb⟩, hstop, hpd, hrd⟩ := hs
  have hstep := Sound.emit ha.ok .plain
  have hstep' := Sound.emit hb.ok .plain
  have htest := hpa.seq ha hstep (placed_step hskip (nameless_branch hop))
  have hpass := htest.seq (ha.seq hstep) hb hpb
  have hfirst := hpass.seq ((ha.seq hstep).seq hb) hstep' (placed_step hstop rfl)
  refine ⟨hfirst.seq (((ha.seq hstep).seq hb).seq hstep') hd hpd, ?_⟩
  refine ((((hra.join hstep hpa.size (routed_branch hop hskip) (by simp)).join hb htest.size hrb
    (by simp [Plan.context_emit])).join hstep'
    hpass.size (routed_jump hstop) (by simp)).join hd hfirst.size hrd
    (by simp [Plan.context_emit])).close ?_ ?_
  · intro K x hx
    obtain rfl | rfl : x = (n + 1, a.context.scope) ∨ x = (j, b.context.scope) := by simpa using hx
    · exact .inl (.inl ⟨(n + 1, b.context.scope), by simp, rfl, hb.grows.flow K⟩)
    · exact .inl (.inr ⟨rfl, hd.grows.flow K⟩)
  · intro K y hy
    exact welcome_of_mem (by simp_all)

theorem Sound.loop (hr : r.Sound c) : (r.loop c).Sound c :=
  { hr with steady := fun hsteady => hr.steady (Bool.and_eq_true_iff.1 hsteady).1 }

theorem Routed.loop (h : r.Routed X Y P i j) (hY : (i, c.scope) ∈ Y)
    (hX : ∀ K, ∀ x ∈ X, Labelled.Welcome (Scope.Flow K) Y j r.context.scope x ∨
      x = (i, r.context.scope)) :
    (r.loop c).Routed [] Y P i j := by
  intro hsteady K label hK hcovers
  obtain ⟨hsteady, hscope⟩ := Bool.and_eq_true_iff.1 hsteady
  refine (h hsteady K label hK hcovers).close .trans (fun x hx => .inl ?_) fun y hy =>
    welcome_of_mem hy
  rcases hX K x hx with hx | rfl
  · exact hx
  · rw [of_decide_eq_true hscope]
    exact welcome_of_mem hY

theorem turn (ha : a.Sound c) (hb : b.Sound a.context) (hA : a.Charted c P i m)
    (hexit : Shape.insn (h + 1) h (.wide .jumpFalse (n + 1)) P m (m + 1))
    (hB : b.Charted a.context P (m + 1) n) (hback : Shape.insn h h (.wide .jump i) P n (n + 1)) :
    let r := (((a.seq (Plan.step a.context)).seq b).seq (Plan.step b.context)).loop c
    r.Sound c ∧ r.Placed c P i (n + 1) ∧
      r.Routed [] [(i, c.scope), (m + 1, a.context.scope)] P i (n + 1) := by
  obtain ⟨hpa, hra⟩ := hA
  obtain ⟨hpb, hrb⟩ := hB
  have hstep := Sound.emit ha.ok .plain
  have hstep' := Sound.emit hb.ok .plain
  have htest := hpa.seq ha hstep (placed_step hexit rfl)
  have hbody := htest.seq (ha.seq hstep) hb hpb
  refine ⟨(((ha.seq hstep).seq hb).seq hstep').loop,
    hbody.seq ((ha.seq hstep).seq hb) hstep' (placed_step hback rfl), ?_⟩
  have hturn :=
    ((hra.join hstep hpa.size (routed_branch (k := 0) rfl hexit) (by simp)).join hb htest.size hrb
    (by simp [Plan.context_emit])).join hstep' hbody.size (routed_jump hback) (by simp)
  refine (hturn.loop (c := c) (by simp) fun K x hx => ?_).close
    (fun _ _ hx => (List.not_mem_nil hx).elim) fun K y hy => ?_
  · obtain rfl | rfl : x = (n + 1, a.context.scope) ∨ x = (i, b.context.scope) := by simpa using hx
    · exact .inl (.inr ⟨rfl, hb.grows.flow K⟩)
    · exact .inr rfl
  · exact welcome_of_mem (by simp at hy; rcases hy with rfl | rfl <;> simp)

theorem Charted.looping (ha : a.Sound c) (hb : b.Sound a.context)
    (hs : Shape.looping h (a.Charted c) (b.Charted a.context) P i j) :
    ((((a.seq (Plan.step a.context)).seq b).seq (Plan.step b.context)).loop c).Charted c P i j := by
  obtain ⟨m, n, hA, hexit, hB, hback, rfl⟩ := hs
  obtain ⟨_, hplaced, hrouted⟩ := turn ha hb hA hexit hB hback
  exact ⟨hplaced, hrouted.close (fun _ _ hx => (List.not_mem_nil hx).elim) fun K y hy =>
    welcome_of_mem (by simp_all)⟩

theorem Charted.loopingElse {a' w : Plotted} (ha : a.Sound c) (hw : w.Sound a.context)
    (ha' : a'.Sound w.context) (hb : b.Sound a'.context) (hd : d.Sound b.context)
    (hs : Shape.loopingElse h k (a.Charted c) (w.Charted a.context) (a'.Charted w.context)
      (b.Charted a'.context) (d.Charted b.context) P i j) :
    ((((((a.seq (Plan.step a.context)).seq w).seq (Plan.step w.context)).seq
      ((((a'.seq (Plan.step a'.context)).seq b).seq (Plan.step b.context)).loop w.context)).seq
      (Plan.step b.context)).seq d).Charted c P i j := by
  obtain ⟨m, u, v, n, ⟨hpa, hra⟩, hskip, ⟨hpw, hrw⟩, hinto, hA', hexit, hB, hback, hstop,
    hpd, hrd⟩ := hs
  obtain ⟨hloop, hpl, hrl⟩ := turn ha' hb hA' hexit hB hback
  have hstep := Sound.emit ha.ok .plain
  have hstep' := Sound.emit hw.ok .plain
  have hstep'' := Sound.emit hb.ok .plain
  have htest := hpa.seq ha hstep (placed_step hskip rfl)
  have hlist := htest.seq (ha.seq hstep) hw hpw
  have hentry := hlist.seq ((ha.seq hstep).seq hw) hstep' (placed_step hinto rfl)
  have hturns := hentry.seq (((ha.seq hstep).seq hw).seq hstep') hloop hpl
  have hend :=
    hturns.seq ((((ha.seq hstep).seq hw).seq hstep').seq hloop) hstep'' (placed_step hstop rfl)
  refine ⟨hend.seq (((((ha.seq hstep).seq hw).seq hstep').seq hloop).seq hstep'') hd hpd, ?_⟩
  have hinit :=
    (((hra.join hstep hpa.size (routed_branch (k := 0) rfl hskip) (by simp)).join hw htest.size hrw
    (by simp [Plan.context_emit])).join hstep' hlist.size (routed_jump hinto) (by simp))
  refine (((hinit.join hloop hentry.size hrl (List.mem_cons_self)).join hstep'' hturns.size
    (routed_jump hstop)
    (List.mem_singleton_self _)).join hd hend.size hrd (List.mem_singleton_self _)).close ?_ ?_
  · intro K x hx
    obtain rfl | rfl | rfl : x = (n + 2, a.context.scope) ∨ x = (v + 1, w.context.scope) ∨
        x = (j, b.context.scope) := by
      simpa using hx
    · refine .inl (.inl ⟨(n + 2, b.context.scope), by simp, rfl, ?_⟩)
      exact ((hw.grows.trans ha'.grows).trans hb.grows).flow K
    · exact .inl (.inl ⟨(v + 1, a'.context.scope), by simp, rfl, ha'.grows.flow K⟩)
    · exact .inl (.inr ⟨rfl, hd.grows.flow K⟩)
  · intro K y hy
    exact welcome_of_mem (by simp_all)

theorem Charted.ret (ha : a.Sound c)
    (hs : Shape.seq (a.Charted c) (.insn h h' (.simple .ret)) P i j) :
    (a.seq (Plan.step a.context)).Charted c P i j := by
  obtain ⟨m, ⟨hpa, hra⟩, hret⟩ := hs
  have hstep := Sound.emit ha.ok .plain
  have hnone : (Plan.step a.context).Routed [] [(m, a.context.scope)] P m j := by
    obtain ⟨rfl, hcarries, _⟩ := hret
    refine routed_emit (by simp) fun next hnext => ?_
    rw [Prototype.nexts_ret hcarries] at hnext
    cases hnext
  refine ⟨hpa.seq ha hstep (placed_step hret rfl), ?_⟩
  exact (hra.join hstep hpa.size hnone (by simp)).close (by simp) fun K y hy =>
    welcome_of_mem (by simp_all)

theorem Sound.closeBlock (hc : c.Ok) (hr : r.Sound c.openBlock) : (r.closeBlock c).Sound c := by
  refine ⟨hc.closeBlock hr.grows hr.ok, hr.grows.closeBlock hc, fun e he => ?_, hr.steady⟩
  unfold Plotted.closeBlock at he
  dsimp only at he
  split at he
  · rcases List.mem_append.1 he with he | he
    · exact hr.distinct e he
    · rw [List.mem_singleton.1 he]
      exact hr.ok.scope
  · exact hr.distinct e he

/-- The end of a block: one of its locals is marked as captured exactly if the block has a captured
variable. -/
theorem mirrors_closeBlock {s : State} (hc : c.Ok) (hr : r.Sound c.openBlock)
    (hs : r.context.Holds s) : ∃ scopes, s.builder.scopes = c.scope.names.length :: scopes ∧
      Builder.Mirrors (popScope s.builder c.scope.names.length scopes) r.context.captured c.scope ∧
      ((s.builder.active.drop c.scope.names.length).any LocalInfo.captured = true ↔
        r.context.captures c.fresh = true) := by
  obtain ⟨more, hscope⟩ := hr.grows.openBlock
  have hmirrors := hs.tied.mirrors
  rw [hscope] at hmirrors
  have hdeclared : ∀ x, (c.fresh, x) ∈ r.context.captured → x ∈ more := by
    intro x hx
    refine hr.ok.declared ⟨c.fresh, more⟩ ?_ x hx
    rw [hscope]
    exact List.mem_cons_self
  obtain ⟨scopes, hscopes, hpop, hcaptured⟩ := hmirrors.pop hc.rooted hdeclared
  exact ⟨scopes, hscopes, hpop, hcaptured.trans (by simp [Context.captures])⟩

theorem Charted.closeBlock (hc : c.Ok) (hr : r.Sound c.openBlock)
    (hs : Shape.scope r.context.invariant h (r.Charted c.openBlock) P i j) :
    (r.closeBlock c).Charted c P i j := by
  obtain ⟨s, base, hholds, hbase, hs⟩ := hs
  obtain ⟨scopes, hscopes, _, hiff⟩ := mirrors_closeBlock hc hr hholds
  rw [hscopes, List.head?_cons] at hbase
  obtain rfl := Option.some.inj hbase
  obtain ⟨more, hscope⟩ := hr.grows.openBlock
  have hopen : ∀ K, Scope.Flow K c.scope c.openBlock.scope := fun K => .enter _ .refl
  -- variables of the block are captured while it is open
  have hsettled : ∀ K, Context.Settles { r.context with scope := c.scope } K → r.context.Settles K ∧
      (r.context.captures c.fresh = false → ∀ x, (c.fresh, x) ∉ K) := by
    intro K hK
    have hids : Context.ids { r.context with scope := c.scope } = c.ids := by
      show Scope.ids (c.scope :: r.context.around) = _
      rw [hr.grows.around]
      rfl
    refine ⟨fun p hp => ?_, fun hnone x hx => ?_⟩
    · refine (hK p hp).imp id (Or.imp (fun hid => ?_) id)
      rw [hr.grows.ids_eq]
      rw [hids] at hid
      exact List.mem_cons_of_mem _ hid
    · rcases hK _ hx with hx | hx | hx
      · rw [Context.captures, List.any_eq_false] at hnone
        exact hnone _ hx (beq_self_eq_true _)
      · rw [hids] at hx
        exact hc.fresh_not_open hx
      · exact Nat.not_succ_le_self _ (Nat.le_trans hr.grows.fresh hx)
  unfold Plotted.closeBlock
  cases hcaptures : r.context.captures c.fresh with
  | true =>
    rw [if_pos (hiff.2 hcaptures)] at hs
    obtain ⟨_, m, ⟨⟨rfl, hplaced⟩, hrouted⟩, rfl, hclose, _⟩ := hs
    rw [if_pos rfl]
    refine ⟨⟨by rw [List.length_append]; rfl, fun n e he => ?_⟩,
      fun hsteady K label hK hcovers => ?_⟩
    · rcases Nat.lt_or_ge n r.entries.length with hn | hn
      · rw [List.getElem?_append_left hn] at he
        exact hplaced n e he
      · rw [List.getElem?_append_right hn, List.getElem?_singleton] at he
        split at he
        · rename_i hlast
          cases he
          obtain rfl : n = r.entries.length := by omega
          refine ⟨?_, trivial⟩
          show P.Carries _ (.wide .closeOuters (Scope.names r.context.scope.tail).length)
          rw [hscope]
          exact hclose
        · cases he
    · obtain ⟨hcovers, hend⟩ := hcovers.append
      have hitems := hrouted hsteady K label (hsettled K hK).1 hcovers
      have hafter : Entry.after ⟨r.context.scope, .close⟩ = c.scope := by
        show r.context.scope.tail = _
        rw [hscope]
        rfl
      have hleave :
        Labelled (Scope.Flow K) (Path P label) [] [(i + r.entries.length, r.context.scope)]
          (i + r.entries.length) (i + r.entries.length + 1) c.scope := by
        refine .single ⟨⟨r.context.scope, .close⟩, hend 0 _ rfl, rfl, rfl⟩ .refl fun t ht => .inr ?_
        rw [Prototype.nexts_straight hclose rfl, hafter] at ht
        rw [List.mem_singleton.1 ht]
        exact ⟨rfl, .refl⟩
      refine (hitems.join .trans hleave (List.mem_singleton_self _)).close .trans (by simp)
        fun y hy => ?_
      rw [List.mem_singleton.1 hy]
      exact .inl ⟨(i, c.openBlock.scope), by simp, rfl, hopen K⟩
  | false =>
    rw [if_neg (fun h => by rw [hiff.1 h] at hcaptures; cases hcaptures)] at hs
    obtain ⟨⟨rfl, hplaced⟩, hrouted⟩ := hs
    rw [if_neg Bool.false_ne_true]
    refine ⟨⟨rfl, hplaced⟩, fun hsteady K label hK hcovers => ?_⟩
    obtain ⟨hK, hfree⟩ := hsettled K hK
    have hleave : Scope.Flow K r.context.scope c.scope := by
      rw [hscope]
      exact .leave .refl (hfree hcaptures)
    refine ((hrouted hsteady K label hK hcovers).relabel .trans hleave).close .trans (by simp)
      fun y hy => ?_
    rw [List.mem_singleton.1 hy]
    exact .inl ⟨(i, c.openBlock.scope), by simp, rfl, hopen K⟩

end Plotted

section Arms

variable {keys : List MatchKey} {key : MatchKey} {arm : Arm Node} {as : List (Arm Node)}

theorem Plan.arms_skip (hkey : ∀ key, matchKey? arm.pattern = some key → key ∈ keys) :
    Plan.arms keys (arm :: as) = Plan.arms keys as := by
  obtain ⟨pos, pattern, body⟩ := arm
  rw [Plan.arms]
  split
  · rfl
  · rename_i key heq
    rw [if_pos (hkey key heq)]

theorem Plan.arms_take (hkey : matchKey? arm.pattern = some key) (hnew : key ∉ keys) :
    Plan.arms keys (arm :: as) = Plan.node arm.body ++ Plan.step ++ Plan.arms (key :: keys) as := by
  obtain ⟨pos, pattern, body⟩ := arm
  rw [Plan.arms, hkey]
  exact if_neg hnew

theorem Plan.armKeys_skip (hkey : ∀ key, matchKey? arm.pattern = some key → key ∈ keys) :
    Plan.armKeys keys (arm :: as) = Plan.armKeys keys as := by
  rw [Plan.armKeys]
  split
  · rfl
  · rename_i key heq
    rw [if_pos (hkey key heq)]

theorem Plan.armKeys_take (hkey : matchKey? arm.pattern = some key) (hnew : key ∉ keys) :
    Plan.armKeys keys (arm :: as) = Plan.armKeys (key :: keys) as := by
  rw [Plan.armKeys, hkey]
  show Plan.armKeys (if key ∈ keys then keys else key :: keys) as = _
  rw [if_neg hnew]

/-- The bodies of cases as pieces of code; cases that are left out have none. -/
def armShapes (c : Context) (keys : List MatchKey) : List (Arm Node) → List Shape
  | [] => []
  | arm :: as =>
    match matchKey? arm.pattern with
    | none => .none :: armShapes c keys as
    | some key =>
      if key ∈ keys then .none :: armShapes c keys as
      else (Plan.node arm.body c).Charted c :: armShapes (Plan.node arm.body c).context
        (key :: keys) as

theorem armShapes_skip (c : Context) (hkey : ∀ key, matchKey? arm.pattern = some key → key ∈ keys) :
    armShapes c keys (arm :: as) = .none :: armShapes c keys as := by
  rw [armShapes]
  split
  · rfl
  · rename_i key heq
    rw [if_pos (hkey key heq)]

theorem armShapes_take (c : Context) (hkey : matchKey? arm.pattern = some key) (hnew : key ∉ keys) :
    armShapes c keys (arm :: as) =
      (Plan.node arm.body c).Charted c :: armShapes (Plan.node arm.body c).context
        (key :: keys) as := by
  rw [armShapes, hkey]
  exact if_neg hnew

namespace Plotted

variable {c : Context} {a : Plotted} {P : Prototype} {i j k stop : Nat}

theorem Sound.arms (hbody : ∀ arm ∈ as, ∀ c : Context, c.Ok → (Plan.node arm.body c).Sound c)
    (keys : List MatchKey) (hc : c.Ok) : (Plan.arms keys as c).Sound c := by
  induction as generalizing keys c with
  | nil => exact .quiet (.refl hc) hc rfl
  | cons arm as ih =>
    have ih := fun keys c => ih (c := c) (fun b hb => hbody b (List.mem_cons_of_mem _ hb)) keys
    by_cases hskip : ∀ key, matchKey? arm.pattern = some key → key ∈ keys
    · rw [Plan.arms_skip hskip]
      exact ih keys c hc
    · obtain ⟨key, hkey, hnew⟩ : ∃ key, matchKey? arm.pattern = some key ∧ key ∉ keys := by
        simpa using hskip
      rw [Plan.arms_take hkey hnew]
      have hfirst := hbody arm List.mem_cons_self c hc
      exact (hfirst.seq (.emit hfirst.ok .plain)).seq (ih _ _ hfirst.ok)

/-- The cases of a `match`: every new entry of the table leads to a place where control may come
with the open blocks before the cases. -/
theorem Charted.arms {table table' : Table MatchKey Nat}
    (hbody : ∀ arm ∈ as, ∀ c : Context, c.Ok → (Plan.node arm.body c).Sound c) (hc : c.Ok)
    (hkeys : ∀ key, table.contains key = true ↔ key ∈ keys)
    (hs : Shape.Arms k stop P table as (armShapes c keys as) table' i j) :
    (Plan.arms keys as c).Placed c P i j ∧
      (∀ key, table'.contains key = true ↔ key ∈ Plan.armKeys keys as) ∧
    ∃ starts : List Nat, (∀ entry ∈ table'.entries, entry ∈ table.entries ∨ entry.2 ∈ starts) ∧
      (Plan.arms keys as c).Routed [(stop, (Plan.arms keys as c).context.scope)]
        ((i, c.scope) :: starts.map fun start => (start, c.scope)) P i j := by
  induction as generalizing c keys table i with
  | nil =>
    cases hs
    refine ⟨⟨rfl, fun n e he => by cases he⟩, hkeys, [], fun entry hentry => .inl hentry,
      fun _ K label _ _ => ?_⟩
    refine (Labelled.empty (R := Scope.Flow K) .refl j).close .trans
      (fun x hx => (List.not_mem_nil hx).elim) fun y hy => ?_
    exact welcome_of_mem hy
  | cons arm as ih =>
    have hrest : ∀ b ∈ as, ∀ c : Context, c.Ok → (Plan.node b.body c).Sound c :=
      fun b hb => hbody b (List.mem_cons_of_mem _ hb)
    by_cases hskip : ∀ key, matchKey? arm.pattern = some key → key ∈ keys
    · rw [armShapes_skip c hskip] at hs
      rw [Plan.arms_skip hskip, Plan.armKeys_skip hskip]
      cases hs with
      | skip _ hs => exact ih hrest hc hkeys hs
      | take hkey hnew =>
        rw [(hkeys _).2 (hskip _ hkey)] at hnew
        cases hnew
    · obtain ⟨key, hkey, hnew⟩ : ∃ key, matchKey? arm.pattern = some key ∧ key ∉ keys := by
        simpa using hskip
      rw [armShapes_take c hkey hnew] at hs
      rw [Plan.arms_take hkey hnew, Plan.armKeys_take hkey hnew]
      cases hs with
      | skip hfault => exact absurd ((hkeys key).1 (hfault key hkey)) hnew
      | take hkey' _ hB hjump hs =>
        obtain rfl := Option.some.inj (hkey.symm.trans hkey')
        obtain ⟨hpb, hrb⟩ := hB
        have hsound := hbody arm List.mem_cons_self c hc
        have hstep := Sound.emit hsound.ok .plain
        have hmore := Sound.arms hrest (key :: keys) hsound.ok
        obtain ⟨hplaced, hkeys', starts, hentries, hrouted⟩ := ih hrest hsound.ok (fun key' => by
          rw [Table.contains_insert, hkeys, List.mem_cons]) hs
        have hfirst := hpb.seq hsound hstep (placed_step hjump rfl)
        refine ⟨hfirst.seq (hsound.seq hstep) hmore hplaced, hkeys', i :: starts,
          fun entry hentry => ?_, ?_⟩
        · rcases hentries entry hentry with hold | hnew
          · exact (Table.mem_insert hold).imp id fun heq => by rw [heq]; exact List.mem_cons_self
          · exact .inr (List.mem_cons_of_mem _ hnew)
        · refine ((hrb.join hstep hpb.size (routed_jump hjump) (by simp)).join hmore
            hfirst.size hrouted List.mem_cons_self).close ?_ ?_
          · intro K x hx
            refine .inr ⟨_, List.mem_singleton_self _, ?_⟩
            obtain rfl | rfl : x = (stop, (Plan.node arm.body c).context.scope) ∨
                x = (stop, (Plan.arms (key :: keys) as
                  (Plan.node arm.body c).context).context.scope) := by simpa using hx
            · exact ⟨rfl, hmore.grows.flow K⟩
            · exact ⟨rfl, .refl⟩
          · intro K y hy
            -- the other cases start with more names in scope
            have hflow := hsound.grows.flow K
            simp only [List.map_cons, List.mem_cons, List.mem_map] at hy
            obtain rfl | rfl | ⟨start, hstart, rfl⟩ := hy
            · exact welcome_of_mem (by simp)
            · exact welcome_of_mem (by simp)
            · refine .inl ⟨(start, (Plan.node arm.body c).context.scope), ?_, rfl, hflow⟩
              simp [hstart]

/-- A scrutinee and the cases, and null for the case that none of them is meant but a value is
wanted. -/
theorem Charted.matching {required : Bool} (ha : a.Sound c)
    (hbody : ∀ arm ∈ as, ∀ c : Context, c.Ok → (Plan.node arm.body c).Sound c)
    (hs : Shape.matching h required (a.Charted c) (armShapes a.context [] as) as P i j) :
    (((a.seq (Plan.step a.context)).seq (Plan.arms [] as a.context)).seq
      (Plan.when (!(Plan.armKeys [] as).contains .default && required) Plan.step
        (Plan.arms [] as a.context).context)).Charted c P i j := by
  obtain ⟨m, index, table, n, ⟨hpa, hra⟩, hmatch, harms, hrest⟩ := hs
  have hstep := Sound.emit ha.ok .plain
  have hcases := Sound.arms hbody [] ha.ok
  obtain ⟨hplaced, hkeys, starts, hentries, hrouted⟩ :=
    Charted.arms hbody ha.ok (by simp [Table.contains, Table.empty, Table.get?, Table.get?.go])
    harms
  have hpm := hpa.seq ha hstep (placed_step hmatch rfl)
  have hpc := hpm.seq (ha.seq hstep) hcases hplaced
  have hcontains : (Plan.armKeys [] as).contains .default = table.contains .default := by
    rw [Bool.eq_iff_iff, hkeys, List.contains_iff_mem]
  -- the jump by the table
  have hjump : ∀ table' : Table MatchKey Nat, P.tables[index]? = some ⟨table'⟩ →
      (Plan.step a.context).Routed (table'.entries.map fun entry => (entry.2, a.context.scope))
        [(m, a.context.scope)] P m (m + 1) := by
    intro table' htable
    obtain ⟨_, hcarries, _⟩ := hmatch
    refine routed_emit (by simp) fun next hnext => .inl ?_
    rw [Prototype.nexts_match hcarries htable] at hnext
    obtain ⟨entry, hentry, rfl⟩ := List.mem_map.1 hnext
    exact List.mem_map_of_mem hentry
  have hflow := fun K => hcases.grows.flow K
  have hstart : ∀ entry ∈ table.entries, entry.2 ∈ starts :=
    fun entry hentry => (hentries entry hentry).resolve_left List.not_mem_nil
  rw [hcontains]
  split at hrest
  · rename_i hdefault
    obtain ⟨rfl, htable⟩ := hrest
    have hnone : (!table.contains .default && required) = false := by
      cases hd : table.contains .default <;> cases required <;> simp_all
    rw [hnone]
    refine Charted.seq_nil
      ⟨hpc, ((hra.join hstep hpa.size (hjump _ htable) (by simp)).join hcases hpm.size hrouted
      List.mem_cons_self).close (fun K x hx => .inl ?_) fun K y hy => welcome_of_mem (by simp_all)⟩
    simp only [List.nil_append, List.mem_append, List.mem_map, List.mem_singleton] at hx
    obtain ⟨entry, hentry, rfl⟩ | rfl := hx
    · rcases mem_orStop hentry with hentry | ⟨_, heq⟩
      · exact welcome_of_mem (by simp [hstart entry hentry])
      · exact .inr ⟨heq, hflow K⟩
    · exact .inr ⟨rfl, .refl⟩
  · rename_i hdefault
    obtain ⟨hnull, htable⟩ := hrest
    have hwanted : (!table.contains .default && required) = true := by
      cases hd : table.contains .default <;> cases required <;> simp_all
    rw [hwanted]
    show (Plotted.seq _ (Plan.step _)).Charted c P i j
    have hpush : (Plan.step (Plan.arms [] as a.context).context).Charted _ P n j :=
      .step hnull.1 hnull.2.1 rfl rfl
    have hstep' := Sound.emit hcases.ok .plain
    refine ⟨hpc.seq ((ha.seq hstep).seq hcases) hstep' hpush.1,
      (((hra.join hstep hpa.size (hjump _ htable)
      (by simp)).join hcases hpm.size hrouted List.mem_cons_self).join hstep' hpc.size hpush.2
      (by simp)).close (fun K x hx => .inl ?_) fun K y hy => welcome_of_mem (by simp_all)⟩
    simp only [List.nil_append, List.append_nil, List.mem_append, List.mem_map,
      List.mem_singleton] at hx
    obtain ⟨entry, hentry, rfl⟩ | rfl := hx
    · rcases Table.mem_insert hentry with hentry | heq
      · exact welcome_of_mem (by simp [hstart entry hentry])
      · exact .inl ⟨(n, (Plan.arms [] as a.context).context.scope), by simp, heq.symm, hflow K⟩
    · exact .inr ⟨rfl, .refl⟩

end Plotted
end Arms
end Refscript
