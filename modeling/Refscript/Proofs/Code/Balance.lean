import Refscript.Proofs.Code.Control
import Refscript.Proofs.Code.Segment

/-!
# Refscript.Proofs.Code.Balance

Lowering keeps count of the stack. Each construct of a marked program is lowered to a piece of code
that goes from the height before it to the height after it on every path, `Balanced`, and whose
operands denote something. The heights are those above what the construct finds on the stack: its
code never comes below that.

The first part gives that for every shape of code, from the same for its parts; the second part is
about the steps of lowering that add such code.
-/

namespace Refscript
namespace Lower

open StackCheck

variable {op : Opcode} {Ss : List Shape} {as : List (Arm Node)} {popped pushed : Nat}

/-- A piece of code that goes from height `h` to height `h'` on every path through it. -/
def Balanced (h h' : Nat) : Shape := fun P i j => Segment P [] [(i, h), (j, h')] i j

variable {P : Prototype} {h h' k e i j m : Nat} {insn : Insn}

theorem Shape.insn.lower (base : Nat) (hi : Shape.insn (base + h) (base + h') insn P i j) :
    Shape.insn h h' insn P i j := by
  obtain ⟨hj, hcarries, hbefore, hafter⟩ := hi
  exact ⟨hj, hcarries, Nat.le_trans (Nat.le_add_left h base) hbefore,
    Nat.le_trans (Nat.le_add_left h' base) hafter⟩

/-- Whether control always goes to the next instruction. -/
def straight : Opcode → Bool
  | .jump | .jumpTrue | .jumpFalse | .and | .or | .matchOn | .ret => false
  | _ => true

theorem successors_straight (hop : straight op = true) (w : Word) (after : Nat) :
    successors? P op w i after = some [(i + 1, after)] := by
  cases op <;> first | rfl | cases hop

theorem balanced_insn (base popped pushed : Nat)
    (hi : Shape.insn (base + (h + popped)) (base + (h + pushed)) insn P i j)
    (hop : straight insn.op = true) (hadmits : P.Admits insn)
    (heff : insn.fits = true → effect? insn.op insn.pack = some (popped, pushed)) :
    Balanced (h + popped) (h + pushed) P i j := by
  obtain ⟨rfl, hcarries, _, hmax⟩ := hi.lower base
  refine Segment.single ⟨hcarries, hadmits⟩ (heff hcarries.fits) (Nat.le_add_left popped h) ?_
    (successors_straight hop _ _) fun t ht => .inr ?_
  · rwa [Nat.add_sub_cancel]
  · rw [List.mem_singleton.1 ht, Nat.add_sub_cancel]

/-- A jump without a test; nothing is known of the height after it. -/
theorem segment_jump (hi : Shape.insn h h (.wide .jump k) P i j) (e : Nat) :
    Segment P [(k, h)] [(i, h), (j, e)] i j := by
  obtain ⟨rfl, hcarries, _, hmax⟩ := hi
  have hnext : successors? P .jump (Insn.wide .jump k).pack i h = some [(k, h)] := by
    rw [successors?, Insn.c_pack rfl hcarries.fits]
    rfl
  exact Segment.single ⟨hcarries, trivial⟩ rfl (Nat.zero_le _) hmax hnext fun t ht => .inl ht

/-- The height that a conditional jump brings to its target when `h` is the height at the next
instruction: `and` and `or` keep the value that they test if they jump. -/
def landing (h : Nat) : Opcode → Option Nat
  | .jumpTrue | .jumpFalse => some h
  | .and | .or => some (h + 1)
  | _ => none

theorem segment_branch (hop : landing h op = some e)
    (hi : Shape.insn (h + 1) h (.wide op k) P i j) :
    Segment P [(k, e)] [(i, h + 1), (j, h)] i j := by
  obtain ⟨rfl, hcarries, hbefore, hafter⟩ := hi
  have hnext : successors? P op (Insn.wide op k).pack i e = some [(k, e), (i + 1, h)] := by
    cases op <;> cases hop <;> (rw [successors?, Insn.c_pack rfl hcarries.fits]; rfl)
  have heff : ∃ pushed, effect? op (Insn.wide op k).pack = some (1, pushed) ∧ h + pushed = e := by
    cases op <;> cases hop <;> exact ⟨_, rfl, rfl⟩
  have hmax : e ≤ P.maxStack := by
    cases op <;> cases hop <;> assumption
  have hadmits : P.Admits (.wide op k) := by
    cases op <;> cases hop <;> trivial
  obtain ⟨pushed, heff, rfl⟩ := heff
  exact Segment.single ⟨hcarries, hadmits⟩ heff (Nat.le_add_left 1 h) hmax hnext (by simp)

theorem segment_ret (hi : Shape.insn (h + 1) h (.simple .ret) P i j) (e : Nat) :
    Segment P [] [(i, h + 1), (j, e)] i j := by
  obtain ⟨rfl, hcarries, _, hmax⟩ := hi
  exact Segment.single ⟨hcarries, trivial⟩ rfl (Nat.le_add_left 1 h) hmax rfl fun t ht =>
    (List.not_mem_nil ht).elim

theorem segment_match {table : JumpTable} (hi : Shape.insn (h + 1) h (.wide .matchOn k) P i j)
    (htable : P.tables[k]? = some table) (e : Nat) :
    Segment P (table.cases.entries.map fun entry => (entry.2, h)) [(i, h + 1), (j, e)] i j := by
  obtain ⟨rfl, hcarries, _, hmax⟩ := hi
  obtain ⟨hlt, _⟩ := List.getElem?_eq_some_iff.1 htable
  have hnext : successors? P .matchOn (Insn.wide .matchOn k).pack i h =
      some (table.cases.entries.map fun entry => (entry.2, h)) := by
    rw [successors?, Insn.c_pack rfl hcarries.fits]
    simp only [Insn.wide, htable]
  exact Segment.single ⟨hcarries, hlt⟩ rfl (Nat.le_add_left 1 h) hmax hnext fun t ht => .inl ht

namespace Balanced

variable {base : Nat}

theorem none (hs : Shape.none P i j) : Balanced h h P i j := by
  unfold Shape.none at hs
  subst hs
  exact (Segment.empty P i h).close (by simp) (by simp)

theorem seq (hs : Shape.seq (Balanced h k) (Balanced k h') P i j) : Balanced h h' P i j := by
  obtain ⟨m, hA, hB⟩ := hs
  exact (hA.join (h := k) hB (by simp) (by simp)).close (by simp) (by simp)

theorem junction (hop : landing h op = some k)
    (hs : Shape.junction (base + h) (Balanced h (h + 1)) op (Balanced h k) P i j) :
    Balanced h k P i j := by
  obtain ⟨m, hA, hjump, hB⟩ := hs
  have htest := segment_branch hop (hjump.lower base)
  exact ((hA.join (h := h + 1) htest (by simp) (by simp)).join (h := h) hB (by simp)
    (by simp)).close (by simp) (by simp)

theorem either (hop : landing h op = some h)
    (hs : Shape.either (base + h) (base + k) (Balanced h (h + 1)) op (Balanced h k)
      (Balanced h k) P i j) :
    Balanced h k P i j := by
  obtain ⟨m, n, hA, hskip, hB, hstop, hC⟩ := hs
  have htest := segment_branch hop (hskip.lower base)
  have hjump := segment_jump (hstop.lower base) h
  exact ((((hA.join (h := h + 1) htest (by simp) (by simp)).join (h := h) hB (by simp)
    (by simp)).join (h := k) hjump
    (by simp) (by simp)).join (h := h) hC (by simp) (by simp)).close (by simp) (by simp)

theorem looping (hs : Shape.looping (base + h) (Balanced h (h + 1)) (Balanced h h) P i j) :
    Balanced h h P i j := by
  obtain ⟨m, n, hA, hexit, hB, hback, rfl⟩ := hs
  have htest := segment_branch (h := h) rfl (hexit.lower base)
  have hjump := segment_jump (hback.lower base) h
  exact (((hA.join (h := h + 1) htest (by simp) (by simp)).join (h := h) hB (by simp)
    (by simp)).join (h := h) hjump (by simp) (by simp)).close (by simp) (by simp)

theorem loopingElse
    (hs : Shape.loopingElse (base + h) (base + k) (Balanced h (h + 1)) (Balanced h k)
    (Balanced k (k + 1)) (Balanced k k) (Balanced h k) P i j) : Balanced h k P i j := by
  obtain ⟨m, a, c, d, hA, hskip, hB, hinto, hA', hexit, hC, hback, hstop, hD⟩ := hs
  have hfirst := segment_branch (h := h) rfl (hskip.lower base)
  have hentry := segment_jump (hinto.lower base) k
  have htest := segment_branch (h := k) rfl (hexit.lower base)
  have hjump := segment_jump (hback.lower base) k
  have hend := segment_jump (hstop.lower base) h
  have hinit :=
    ((hA.join (h := h + 1) hfirst (by simp) (by simp)).join (h := h) hB (by simp) (by simp)).join
    (h := k) hentry (by simp) (by simp)
  have hloop :=
    ((hA'.join (h := k + 1) htest (by simp) (by simp)).join (h := k) hC (by simp) (by simp)).join
    (h := k) hjump (by simp) (by simp)
  exact (((hinit.join (h := k) hloop (by simp) (by simp)).join (h := k) hend (by simp)
    (by simp)).join (h := h) hD (by simp) (by simp)).close (by simp) (by simp)

/-- The cases of a `match`: every new entry of the table leads to a place with the height before the
cases. -/
theorem arms {stop : Nat} {table table' : Table MatchKey Nat}
    (hs : Shape.Arms (base + k) stop P table as Ss table' i j) (hSs : ∀ S ∈ Ss, S = Balanced h k)
    (e : Nat) : ∃ (starts : List Nat) (h₀ : Nat),
      Segment P [(stop, k)] ((i, h₀) :: (j, e) :: starts.map fun start => (start, h)) i j ∧
      ∀ entry ∈ table'.entries, entry ∈ table.entries ∨ entry.2 ∈ starts := by
  induction hs with
  | @nil table i =>
    exact ⟨[], e, (Segment.empty P i e).close (by simp) (by simp), fun entry hentry => .inl hentry⟩
  | skip _ _ ih => exact ih fun S hS => hSs S (List.mem_cons_of_mem _ hS)
  | @take table table' a as S Ss key i m j _ _ hbody hjump _ ih =>
    obtain ⟨starts, h₁, hrest, hentries⟩ := ih fun S hS => hSs S (List.mem_cons_of_mem _ hS)
    obtain rfl := hSs S List.mem_cons_self
    refine ⟨i :: starts, h, ?_, ?_⟩
    · have hend := segment_jump (hjump.lower base) h₁
      refine ((hbody.join (h := k) hend (by simp) (by simp)).join (h := h₁) hrest (by simp)
        (by simp)).close (by simp) ?_
      intro y hy
      simp only [List.map_cons, List.mem_cons, List.mem_append] at hy ⊢
      grind
    · intro entry hentry
      rcases hentries entry hentry with hold | hnew
      · exact (Table.mem_insert hold).imp id fun heq => by rw [heq]; exact List.mem_cons_self
      · exact .inr (List.mem_cons_of_mem _ hnew)

/-- A scrutinee and the cases, when every entry of the table leads to one of them or past them. -/
theorem cases {stop index : Nat} {table table' : Table MatchKey Nat} (hA : Balanced h (h + 1) P i m)
    (hmatch : Shape.insn (h + 1) h (.wide .matchOn index) P m (m + 1))
    (htable : P.tables[index]? = some ⟨table'⟩)
    (harms : Shape.Arms (base + k) stop P .empty as Ss table (m + 1) j)
    (hSs : ∀ S ∈ Ss, S = Balanced h k)
    (hpast : ∀ entry ∈ table'.entries, entry ∈ table.entries ∨ (entry.2 = j ∧ e = h)) :
    Segment P [(stop, k)] [(i, h), (j, e)] i j := by
  obtain ⟨starts, h₀, hcases, hentries⟩ := arms harms hSs e
  have hjump := segment_match hmatch htable h₀
  refine ((hA.join (h := h + 1) hjump (by simp) (by simp)).join (h := h₀) hcases (by simp)
    (by simp)).close ?_ (by simp)
  intro x hx
  rcases List.mem_append.1 hx with hx | hx
  · obtain ⟨entry, hentry, rfl⟩ := List.mem_map.1 hx
    refine .inl (List.mem_append_right _ (List.mem_cons_of_mem _ ?_))
    rcases hpast entry hentry with hentry | ⟨rfl, rfl⟩
    · have hstart := (hentries entry hentry).resolve_left List.not_mem_nil
      exact List.mem_cons_of_mem _ (List.mem_map_of_mem hstart)
    · exact List.mem_cons_self
  · exact .inr hx

theorem matching {required : Bool}
    (hs : Shape.matching (base + h) required (Balanced h (h + 1)) Ss as P i j)
    (hSs : ∀ S ∈ Ss, S = Balanced h (h + required.toNat)) :
    Balanced h (h + required.toNat) P i j := by
  obtain ⟨m, index, table, a, hA, hmatch, harms, hrest⟩ := hs
  have hmatch : Shape.insn (h + 1) h _ P m (m + 1) := hmatch.lower base
  rw [Nat.add_assoc] at harms
  split at hrest
  · rename_i hdefault
    obtain ⟨rfl, htable⟩ := hrest
    refine (cases (e := h + required.toNat) hA hmatch htable harms hSs ?_).close (by simp) (by simp)
    intro entry hentry
    refine (mem_orStop hentry).imp id fun hstop => ?_
    obtain ⟨hnone, heq⟩ := hstop
    refine ⟨heq, ?_⟩
    have hrequired : required = false := by simpa [hnone] using hdefault
    rw [hrequired, Bool.toNat_false, Nat.add_zero]
  · rename_i hdefault
    obtain ⟨hnull, htable⟩ := hrest
    have hrequired : required = true := by simp_all
    subst hrequired
    have hpush : Balanced h (h + 1) P a j := balanced_insn base 0 1 hnull rfl trivial fun _ => rfl
    have hcases := cases (e := h) hA hmatch htable harms hSs fun entry hentry =>
      (Table.mem_insert hentry).imp id fun heq => ⟨heq, rfl⟩
    exact (hcases.join (h := h) hpush (by simp) (by simp)).close (by simp) (by simp)

theorem scope {I : Invariant} (hs : Shape.scope I (base + k) (Balanced h k) P i j) :
    Balanced h k P i j := by
  obtain ⟨_, first, _, _, hs⟩ := hs
  split at hs
  · obtain ⟨hbase, m, hA, hclose⟩ := hs
    exact seq ⟨m, hA, balanced_insn base 0 0 hclose rfl hbase fun _ => rfl⟩
  · exact hs

theorem ret (e : Nat)
    (hs : Shape.seq (Balanced h (h + 1)) (.insn (base + h + 1) (base + h) (.simple .ret)) P i j) :
    Balanced h e P i j := by
  obtain ⟨m, hA, hret⟩ := hs
  have hleave := segment_ret (h := h) (hret.lower base) e
  exact (hA.join (h := h + 1) hleave (by simp) (by simp)).close (by simp) (by simp)

end Balanced

def anything : Invariant :=
  ⟨fun _ => True, fun _ _ _ _ => trivial⟩

/-- The step `x` adds code that goes from height `h` to height `h'`, whatever is on the stack
below. -/
def Balances (x : LowerM Unit) (h h' : Nat) : Prop :=
  ∀ base, Emits anything x (base + h) (base + h') (Balanced h h')

section

variable {x y z : LowerM Unit}

theorem Balances.emits (hx : Balances x h h') : Emits anything x h h' (Balanced h h') := by
  have hemits := hx 0
  rwa [Nat.zero_add, Nat.zero_add] at hemits

theorem Balances.seq (hx : Balances x h k) (hy : Balances y k h') :
    Balances (x >>= fun _ => y) h h' :=
  fun base => (Threads.seq (hx base) (hy base)).imp fun _ _ _ => Balanced.seq

theorem balances_pure : Balances (pure ()) h h :=
  fun _ => emits_pure.imp fun _ _ _ => Balanced.none

theorem balances_setLine (line : Nat) : Balances (build (.setLine line)) h h :=
  fun _ => (emits_setLine line).imp fun _ _ _ => Balanced.none

theorem balances_report (pos : Position) (p : Problem) : Balances (report pos p) h h :=
  fun _ => (emits_report pos p).imp fun _ _ _ => Balanced.none

theorem balances_insn {insn : Insn} (hop : straight insn.op = true)
    (hadmits : ∀ P : Prototype, P.Admits insn)
    (heff : insn.fits = true → effect? insn.op insn.pack = some (popped, pushed)) :
    Balances (build (.emitUnit popped pushed insn)) (h + popped) (h + pushed) := by
  intro base
  have hemit := emits_insn (I := anything) (Nat.le_add_left popped (base + h)) pushed insn
  rw [Nat.add_sub_cancel, Nat.add_assoc, Nat.add_assoc] at hemit
  exact hemit.imp fun P _ _ hs => balanced_insn base popped pushed hs hop (hadmits P) heff

theorem balances_pooled {f : Nat → Insn} (c : Constant) (hop : ∀ n, straight (f n).op = true)
    (hadmits : ∀ (P : Prototype) (n : Nat), P.constants[n]? = some c → P.Admits (f n))
    (heff : ∀ n, (f n).fits = true → effect? (f n).op (f n).pack = some (popped, pushed)) :
    Balances (build (do Build.emitUnit popped pushed (f (← Build.constant c)))) (h + popped)
      (h + pushed) := by
  intro base
  have hemit := emits_pooled (I := anything) c f (Nat.le_add_left popped (base + h)) pushed
  simp only [Nat.add_sub_cancel] at hemit
  simp only [Nat.add_assoc] at hemit
  exact hemit.imp fun P _ _ ⟨n, hn, hs⟩ =>
    balanced_insn base popped pushed hs (hop n) (hadmits P n hn) (heff n)

theorem stringConstant?_isSome {n : Nat} {name : String} (hn : P.constants[n]? = some (.str name)) :
    (P.stringConstant? n).isSome := by
  rw [Prototype.stringConstant?, hn]
  rfl

theorem balances_named (op : Opcode) (name : String) (hop : straight op = true)
    (hadmits : ∀ (P : Prototype) (n : Nat), (P.stringConstant? n).isSome → P.Admits (.wide op n))
    (heff : ∀ w, effect? op w = some (popped, pushed)) :
    Balances (build (.named popped pushed op name)) (h + popped) (h + pushed) := by
  refine balances_pooled (.str name) (fun _ => hop) (fun P n hn => ?_) fun _ _ => heff _
  exact hadmits P n (stringConstant?_isSome hn)

end

end Lower
end Refscript
