import Refscript.Proofs.Code.Compiled

/-!
# Refscript.Proofs.Code.Paths

What the check of stack heights decides. A `Path` lists the offsets that control may go through with
the height at each of them; `Disciplined` code keeps to the rules on all of its paths. Neither
mentions the search.

* `disciplined_iff`: in terms of the places that are reached.
* `Search.Ends`: a search that takes up its pending offsets, and the targets of an instruction, in
  any order.
* `checkHeights_exact`: the check passes exactly the disciplined functions, whatever the order.
-/

namespace Refscript
namespace StackCheck

/-- The instruction at `i`, met with height `h`, may hand control to `j` with height `k`. -/
def Leads (p : Prototype) (i h j k : Nat) : Prop :=
  ∃ w op popped pushed targets, p.code[i]? = some w ∧ w.op? = some op ∧
    effect? op w = some (popped, pushed) ∧
    successors? p op w i (h - popped + pushed) = some targets ∧ (j, k) ∈ targets

/-- A way that control may go from the start, as the offsets with their heights, last one first. -/
inductive Path (p : Prototype) : List (Nat × Nat) → Prop where
  | start : Path p [(0, 0)]
  | step {i h j k : Nat} {before : List (Nat × Nat)} :
      Path p ((i, h) :: before) → Leads p i h j k → Path p ((j, k) :: (i, h) :: before)

/-- The instruction at `i` can be read, its jump table exists, it finds its operands on a stack of
height `h`, and what it leaves is not above the recorded maximum. -/
def Permits (p : Prototype) (i h : Nat) : Prop :=
  ∃ w op popped pushed, p.code[i]? = some w ∧ w.op? = some op ∧
    effect? op w = some (popped, pushed) ∧
    (op = .matchOn → w.c < p.tables.length) ∧ popped ≤ h ∧ h - popped + pushed ≤ p.maxStack

/-- All paths through the code keep to the rules. -/
structure Disciplined (p : Prototype) : Prop where
  permits : ∀ {i h before}, Path p ((i, h) :: before) → i < p.code.size → Permits p i h
  inside : ∀ {i h before}, Path p ((i, h) :: before) → i ≤ p.code.size
  joins : ∀ {i h k before before'}, Path p ((i, h) :: before) → Path p ((i, k) :: before') → h = k
  exits : ∀ {h before}, Path p ((p.code.size, h) :: before) → h ≤ 1

variable {p : Prototype} {h i : Nat}

theorem successors?_isSome_iff {op : Opcode} {w : Word} {after : Nat} :
    (successors? p op w i after).isSome ↔ (op = .matchOn → w.c < p.tables.length) := by
  cases op with
  | matchOn =>
    simp only [successors?, forall_const]
    cases htable : p.tables[w.c]? with
    | none =>
      rw [List.getElem?_eq_none_iff] at htable
      simp only [Option.isSome_none, Bool.false_eq_true, false_iff]
      omega
    | some t =>
      obtain ⟨hlt, _⟩ := List.getElem?_eq_some_iff.1 htable
      simp [hlt]
  | _ => simp [successors?]

theorem permits_iff (hlt : i < p.code.size) :
    Permits p i h ↔ ∃ targets, follow p i h = .ok targets := by
  have hw := Array.getElem?_eq_getElem hlt
  constructor
  · rintro ⟨w, op, popped, pushed, hw', hop, heff, htable, hpop, hmax⟩
    have hsome : (successors? p op w i (h - popped + pushed)).isSome :=
      successors?_isSome_iff.2 htable
    obtain ⟨targets, hs⟩ := Option.isSome_iff_exists.1 hsome
    exact ⟨targets, (follow_ok_iff hw').2 ⟨op, popped, pushed, hop, heff, hpop, hmax, hs⟩⟩
  · rintro ⟨targets, hfol⟩
    obtain ⟨op, popped, pushed, hop, heff, hpop, hmax, hs⟩ := (follow_ok_iff hw).1 hfol
    exact ⟨_, op, popped, pushed, hw, hop, heff,
      successors?_isSome_iff.1 (by rw [hs]; rfl), hpop, hmax⟩

theorem leads_iff {targets : List (Nat × Nat)} (hlt : i < p.code.size)
    (hfol : follow p i h = .ok targets) (j k : Nat) : Leads p i h j k ↔ (j, k) ∈ targets := by
  have hw := Array.getElem?_eq_getElem hlt
  obtain ⟨op, popped, pushed, hop, heff, _, _, hs⟩ := (follow_ok_iff hw).1 hfol
  constructor
  · rintro ⟨w, op', popped', pushed', targets', hw', hop', heff', hs', hmem⟩
    rw [hw] at hw'
    cases hw'
    rw [hop] at hop'
    cases hop'
    rw [heff] at heff'
    cases heff'
    rw [hs] at hs'
    cases hs'
    exact hmem
  · exact fun hmem => ⟨_, op, popped, pushed, targets, hw, hop, heff, hs, hmem⟩

theorem Leads.lt {j k : Nat} (hl : Leads p i h j k) : i < p.code.size := by
  obtain ⟨w, _, _, _, _, hw, _⟩ := hl
  exact (Array.getElem?_eq_some_iff.1 hw).1

theorem Reached.path (hr : Reached p i h) : ∃ before, Path p ((i, h) :: before) := by
  induction hr with
  | start => exact ⟨[], .start⟩
  | next _ hlt hfol hmem ih =>
    obtain ⟨before, hpath⟩ := ih
    exact ⟨_, hpath.step ((leads_iff hlt hfol _ _).2 hmem)⟩

theorem Path.reached
    (hfollows : ∀ {i h}, Reached p i h → i < p.code.size → ∃ targets, follow p i h = .ok targets)
    {path : List (Nat × Nat)} (hpath : Path p path) : ∀ q ∈ path, Reached p q.1 q.2 := by
  induction hpath with
  | start =>
    rintro q hq
    cases List.mem_singleton.1 hq
    exact .start
  | step _ hleads ih =>
    refine List.forall_mem_cons.2 ⟨?_, ih⟩
    have hfrom := ih _ List.mem_cons_self
    obtain ⟨targets, hfol⟩ := hfollows hfrom hleads.lt
    exact hfrom.next hleads.lt hfol ((leads_iff hleads.lt hfol _ _).1 hleads)

theorem disciplined_iff : Disciplined p ↔ Consistent p ∧ ∀ h, Reached p p.code.size h → h ≤ 1 := by
  constructor
  · intro hd
    refine ⟨⟨fun hr => ?_, fun hr hlt => ?_, fun hr hr' => ?_⟩, fun h hr => ?_⟩
    · obtain ⟨_, hpath⟩ := hr.path
      exact hd.inside hpath
    · obtain ⟨_, hpath⟩ := hr.path
      exact (permits_iff hlt).1 (hd.permits hpath hlt)
    · obtain ⟨_, hpath⟩ := hr.path
      obtain ⟨_, hpath'⟩ := hr'.path
      exact hd.joins hpath hpath'
    · obtain ⟨_, hpath⟩ := hr.path
      exact hd.exits hpath
  · rintro ⟨hc, hend⟩
    have hreached : ∀ {i h before}, Path p ((i, h) :: before) → Reached p i h :=
      fun hpath => hpath.reached hc.follows _ List.mem_cons_self
    exact ⟨fun hpath hlt => (permits_iff hlt).2 (hc.follows (hreached hpath) hlt),
      fun hpath => hc.inside (hreached hpath),
      fun hpath hpath' => hc.unique (hreached hpath) (hreached hpath'), fun hpath =>
      hend _ (hreached hpath)⟩

theorem sizeOf_nested {q : Prototype} (hq : q ∈ p.nested) : sizeOf q < sizeOf p := by
  have hlt := List.sizeOf_lt_of_mem hq
  cases p
  simp only [Prototype.mk.sizeOf_spec] at hlt ⊢
  omega

theorem checkHeights_ok_iff (p : Prototype) :
    p.checkHeights = .ok () ↔ ∀ q : Prototype, q.Inside p → checkOne q = .ok () := by
  constructor
  · intro h q hq
    induction hq with
    | self => exact ((check_ok_iff q).1 h).1
    | @nested p p' hmem _ ih => exact ih (((check_ok_iff p).1 h).2 p' hmem)
  · intro h
    induction hsize : sizeOf p using Nat.strongRecOn generalizing p with
    | ind n ih =>
      subst hsize
      refine (check_ok_iff p).2 ⟨h p .self, fun q hq => ?_⟩
      exact ih _ (sizeOf_nested hq) q (fun r hr => h r (.nested hq hr)) rfl

namespace Search

/-- One turn of a search that may take up any of its pending offsets and then the targets of the
instruction in any order. -/
inductive Turn (p : Prototype) (s : Search) : Except Violation Search → Prop where
  | refused {i : Nat} {e : Violation} :
      i ∈ s.pending → follow p i ((s.heights.getD i none).getD 0) = .error e → Turn p s (.error e)
  | followed {i : Nat} {targets next : List (Nat × Nat)} :
      i ∈ s.pending → follow p i ((s.heights.getD i none).getD 0) = .ok targets →
        next.Perm targets →
      Turn p s ({ s with pending := s.pending.erase i : Search }.reachAll p i next)

/-- Turns until nothing is pending or a rule is violated, with what comes out. -/
inductive Ends (p : Prototype) : Search → Except Violation Search → Prop where
  | done {s : Search} : s.pending = [] → Ends p s (.ok s)
  | violated {s : Search} {e : Violation} : Turn p s (.error e) → Ends p s (.error e)
  | turn {s t : Search} {r : Except Violation Search} : Turn p s (.ok t) → Ends p t r → Ends p s r

/-- What comes out of a search lets the function pass. -/
def Passes (p : Prototype) (r : Except Violation Search) : Prop :=
  ∃ t, r = .ok t ∧ ∀ h, t.Records p.code.size h → h ≤ 1

variable {s t : Search} {r : Except Violation Search}

theorem mem_erase_iff {i : Nat} {pending : List Nat} (hi : i ∈ pending) (j : Nat) :
    j ∈ pending ↔ j = i ∨ j ∈ pending.erase i := by
  constructor
  · intro hj
    by_cases hij : j = i
    · exact .inl hij
    · exact .inr ((List.mem_erase_of_ne hij).2 hj)
  · rintro (rfl | hj)
    · exact hi
    · exact List.mem_of_mem_erase hj

theorem Turn.measure_lt (h : Turn p s (.ok t)) : t.measure < s.measure := by
  generalize hr : Except.ok t = r at h
  cases h with
  | refused => cases hr
  | @followed i targets next hi _ _ =>
    have hle := measure_reachAll next hr.symm
    have hlen := List.length_erase_of_mem hi
    have hpos := List.length_pos_of_mem hi
    simp only [measure, hlen] at hle ⊢
    omega

theorem wellFounded_turn (p : Prototype) : WellFounded fun t s => Turn p s (.ok t) :=
  Subrelation.wf Turn.measure_lt (InvImage.wf Search.measure Nat.lt_wfRel.wf)

theorem Sound.height_eq (hs : Sound p s) {i : Nat} (hi : i ∈ s.pending) :
    s.Records i ((s.heights.getD i none).getD 0) := by
  obtain ⟨_, k, hk⟩ := hs.pending i hi
  rw [Array.getD_eq_getD_getElem?, hk]
  exact hk

theorem Turn.sound (hs : Sound p s) (h : Turn p s (.ok t)) :
    Sound p t ∧ ∀ i k, s.Records i k → t.Records i k := by
  generalize hr : Except.ok t = r at h
  cases h with
  | refused => cases hr
  | @followed i targets next hi hfol hperm =>
    obtain ⟨_, _, hkeep, _⟩ := reachAll_ok next hr.symm
    exact ⟨follow_sound hs (mem_erase_iff hi) (hs.height_eq hi) hfol (fun _ => hperm.mem_iff)
      hr.symm, hkeep⟩

theorem Turn.ok (hc : Consistent p) (hs : Sound p s) (h : Turn p s r) : ∃ t, r = .ok t := by
  have hfrom : ∀ {i}, i ∈ s.pending → Reached p i ((s.heights.getD i none).getD 0) ∧
    i < p.code.size :=
    fun hi => ⟨hs.reached (hs.height_eq hi), (hs.pending _ hi).1⟩
  cases h with
  | refused hi hfol =>
    obtain ⟨hreached, hlt⟩ := hfrom hi
    obtain ⟨targets, hok⟩ := hc.follows hreached hlt
    rw [hfol] at hok
    cases hok
  | @followed i targets next hi hfol hperm =>
    obtain ⟨hreached, hlt⟩ := hfrom hi
    exact reachAll_total hc next hs.size hs.reached fun q hq =>
      hreached.next hlt hfol (hperm.mem_iff.1 hq)

theorem Ends.sound (h : Ends p s (.ok t)) (hs : Sound p s) :
    Sound p t ∧ t.pending = [] ∧ ∀ i k, s.Records i k → t.Records i k := by
  generalize hr : Except.ok t = r at h
  induction h with
  | done hp =>
    cases hr
    exact ⟨hs, hp, fun _ _ hk => hk⟩
  | violated => cases hr
  | turn hturn _ ih =>
    obtain ⟨hsound, hkeep⟩ := hturn.sound hs
    obtain ⟨hfinal, hp, hkeep'⟩ := ih hsound hr
    exact ⟨hfinal, hp, fun i k hk => hkeep' i k (hkeep i k hk)⟩

theorem Ends.ok (h : Ends p s r) (hc : Consistent p) (hs : Sound p s) : ∃ t, r = .ok t := by
  induction h with
  | done => exact ⟨_, rfl⟩
  | violated hturn => exact hturn.ok hc hs
  | turn hturn _ ih => exact ih (hturn.sound hs).1

theorem ends_run (p : Prototype) (s : Search) : Ends p s (s.run p) := by
  have hturn : ∀ {s : Search} {i : Nat} {rest : List Nat}, s.pending = i :: rest →
      Turn p s ({ s with pending := rest : Search }.visit p i) := by
    intro s i rest hp
    have hi : i ∈ s.pending := hp ▸ List.mem_cons_self
    have herase : s.pending.erase i = rest := by rw [hp, List.erase_cons_head]
    unfold visit
    split
    · rename_i hfol
      exact .refused hi hfol
    · rename_i hfol
      exact herase ▸ .followed hi hfol (.refl _)
  fun_induction run p s with
  | case1 s hp => exact .done hp
  | case2 s i rest hp e hv => exact .violated (hv ▸ hturn hp)
  | case3 s i rest hp u hv ih => exact .turn (hv ▸ hturn hp) ih

/-- Whatever the order, the same functions pass. -/
theorem Ends.passes_iff (hstart : (Search.start p).reach p 0 0 0 = .ok s) (h : Ends p s r) :
    Passes p r ↔ checkOne p = .ok () := by
  obtain ⟨s', hstart', hs⟩ := start_reach (p := p)
  rw [hstart] at hstart'
  cases hstart'
  obtain ⟨_, hzero, _⟩ := reach_ok hstart
  rw [checkOne_ok_iff]
  constructor
  · rintro ⟨t, rfl, hend⟩
    obtain ⟨ht, hdone, hkeep⟩ := h.sound hs
    have hrecorded := hkeep 0 0 hzero
    exact ⟨ht.consistent hdone hrecorded,
      fun k hr => hend k ((ht.records_iff hdone hrecorded _ k).2 hr)⟩
  · rintro ⟨hc, hend⟩
    obtain ⟨t, rfl⟩ := h.ok hc hs
    obtain ⟨ht, _, _⟩ := h.sound hs
    exact ⟨t, rfl, fun k hk => hend k (ht.reached hk)⟩

end Search

/-- The check of stack heights passes a function exactly when all paths through it and through the
functions inside it keep to the rules. It ends, and it gives the same answer in whatever order
pending offsets, and the targets of an instruction, are taken up. -/
theorem checkHeights_exact (p : Prototype) :
    (p.checkHeights = .ok () ↔ ∀ q : Prototype, q.Inside p → Disciplined q) ∧
    ∀ q : Prototype, q.Inside p → (WellFounded fun t s => Search.Turn q s (.ok t)) ∧
      ∃ s, (Search.start q).reach q 0 0 0 = .ok s ∧ Search.Ends q s (s.run q) ∧
        ∀ r, Search.Ends q s r → (Search.Passes q r ↔ checkOne q = .ok ()) := by
  refine ⟨?_, fun q _ => ⟨Search.wellFounded_turn q, ?_⟩⟩
  · rw [checkHeights_ok_iff]
    refine forall_congr' fun q => forall_congr' fun _ => ?_
    rw [checkOne_ok_iff, disciplined_iff]
  · obtain ⟨s, hstart, _⟩ := Search.start_reach (p := q)
    exact ⟨s, hstart, Search.ends_run q s, fun r h => h.passes_iff hstart⟩

end StackCheck
end Refscript
