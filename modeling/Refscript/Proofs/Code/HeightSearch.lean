import Refscript.Code.StackCheck

/-!
# Refscript.Proofs.Code.HeightSearch

What the search of `StackCheck` computes. `Reached p i h` says that some path through the code of
`p`, started at offset 0 with an empty stack, comes to offset `i` with height `h`; it does not
mention the search.

* `heights_ok_iff`: the search succeeds exactly when the code is `Consistent`, that is, every path
  keeps to the rules and all paths to an offset agree on the height.
* `getElem?_heights_iff`: the heights it then records are those of the paths, no more and no fewer.
* `Consistent.of_labelling`: a height for every offset that each instruction respects makes the code
  consistent.
-/

namespace Refscript
namespace StackCheck

variable {h i : Nat} {rest : List Nat} {targets : List (Nat × Nat)} {p : Prototype}

/-- Following an instruction succeeds if it can be read, finds its operands on the stack, stays
below the recorded maximum and, for a `match`, has its table. -/
theorem follow_ok_iff {w : Word} (hw : p.code[i]? = some w) :
    follow p i h = .ok targets ↔ ∃ op popped pushed, w.op? = some op ∧
      effect? op w = some (popped, pushed) ∧
      popped ≤ h ∧ h - popped + pushed ≤ p.maxStack ∧ successors? p op w i (h - popped + pushed) =
        some targets := by
  have hget : p.code.getD i default = w := by rw [Array.getD_eq_getD_getElem?, hw, Option.getD_some]
  unfold follow
  simp only [hget]
  constructor
  · intro hok
    split at hok
    · cases hok
    · rename_i op hop
      split at hok
      · cases hok
      · rename_i popped pushed heff
        split at hok
        · cases hok
        · split at hok
          · cases hok
          · split at hok
            · cases hok
            · rename_i hs
              cases hok
              exact ⟨op, popped, pushed, hop, heff, by omega, by omega, hs⟩
  · rintro ⟨op, popped, pushed, hop, heff, hpop, hmax, hs⟩
    simp only [hop, heff, hs]
    rw [if_neg (by omega), if_neg (by omega)]

/-- No instruction leads anywhere with more values than it leaves. -/
theorem le_of_mem_successors? {op : Opcode} {w : Word} {after j k : Nat}
    (h : successors? p op w i after = some targets) (hmem : (j, k) ∈ targets) : k ≤ after := by
  unfold successors? at h
  split at h
  case h_6 =>
    split at h
    · cases h
      obtain ⟨e, _, he⟩ := List.mem_map.1 hmem
      cases he
      exact Nat.le_refl _
    · cases h
  case h_7 =>
    cases h
    cases hmem
  all_goals
    cases h
    simp only [List.mem_cons, Prod.mk.injEq, List.not_mem_nil, or_false] at hmem
    omega

/-- Some path from the start comes to the offset with the height. -/
inductive Reached (p : Prototype) : Nat → Nat → Prop where
  | start : Reached p 0 0
  | next {i h j k : Nat} {targets : List (Nat × Nat)} :
      Reached p i h → i < p.code.size → follow p i h = .ok targets →
        (j, k) ∈ targets → Reached p j k

/-- Every path keeps to the rules, and paths that meet have the same height. -/
structure Consistent (p : Prototype) : Prop where
  inside : ∀ {i h}, Reached p i h → i ≤ p.code.size
  follows : ∀ {i h}, Reached p i h → i < p.code.size → ∃ targets, follow p i h = .ok targets
  unique : ∀ {i h k}, Reached p i h → Reached p i k → h = k

theorem Reached.le_maxStack (hr : Reached p i h) : h ≤ p.maxStack := by
  induction hr with
  | start => exact Nat.zero_le _
  | next _ hlt hfol hmem =>
    obtain ⟨op, popped, pushed, _, _, _, hmax, hs⟩ :=
      (follow_ok_iff (Array.getElem?_eq_getElem hlt)).1 hfol
    exact Nat.le_trans (le_of_mem_successors? hs hmem) hmax

/-- A height for every offset that each instruction respects settles what every path does. -/
theorem Consistent.of_labelling {label : Nat → Nat} (h0 : label 0 = 0)
    (hf : ∀ i, i < p.code.size → ∃ targets, follow p i (label i) = .ok targets ∧
      ∀ t ∈ targets, t.1 ≤ p.code.size ∧ label t.1 = t.2) :
    Consistent p ∧ ∀ i h, Reached p i h → label i = h := by
  have key : ∀ i h, Reached p i h → i ≤ p.code.size ∧ label i = h := by
    intro i h hr
    induction hr with
    | start => exact ⟨Nat.zero_le _, h0⟩
    | next _ hlt hfol hmem ih =>
      obtain ⟨targets, ht, hall⟩ := hf _ hlt
      rw [ih.2, hfol] at ht
      cases ht
      exact hall _ hmem
  refine ⟨⟨fun hr => (key _ _ hr).1, ?_, ?_⟩, fun i h hr => (key i h hr).2⟩
  · intro i h hr hlt
    obtain ⟨targets, ht, _⟩ := hf i hlt
    rw [(key i h hr).2] at ht
    exact ⟨targets, ht⟩
  · intro i h k hr hk
    rw [← (key i h hr).2, (key i k hk).2]

namespace Search

/-- The offset is recorded with the height. -/
def Records (s : Search) (i h : Nat) : Prop :=
  s.heights[i]? = some (some h)

theorem Records.unique {s : Search} {k : Nat} (hh : s.Records i h) (hk : s.Records i k) :
    h = k := by
  unfold Records at hh hk
  rw [hh] at hk
  cases hk
  rfl

/-- What holds between two visits: only reached places are recorded, and the instruction of a
recorded offset is pending or has been followed. -/
structure Sound (p : Prototype) (s : Search) : Prop where
  size : s.heights.size = p.code.size + 1
  reached : ∀ {i h}, s.Records i h → Reached p i h
  pending : ∀ i ∈ s.pending, i < p.code.size ∧ ∃ h, s.Records i h
  followed : ∀ {i h}, s.Records i h → i < p.code.size → i ∈ s.pending ∨
    ∃ targets, follow p i h = .ok targets ∧ ∀ t ∈ targets, s.Records t.1 t.2

section Reach

variable {p : Prototype} {source j k : Nat} {s t : Search}

/-- Recording a place keeps what is recorded and adds at most that place, which is then pending if
it has an instruction. -/
theorem reach_ok (h : s.reach p source j k = .ok t) :
    t.heights.size = s.heights.size ∧ t.Records j k ∧
    (∀ i h, s.Records i h → t.Records i h) ∧
    (∀ i h, t.Records i h → s.Records i h ∨ (i = j ∧ h = k ∧ (j < p.code.size → j ∈ t.pending))) ∧
    (∀ i, i ∈ s.pending → i ∈ t.pending) ∧
    (∀ i, i ∈ t.pending → i ∈ s.pending ∨ (i = j ∧ j < p.code.size)) := by
  unfold reach at h
  split at h
  · cases h
  · rename_i expected hs
    split at h
    · rename_i he
      cases h
      subst he
      exact ⟨rfl, hs, fun _ _ hr => hr, fun _ _ hr => .inl hr, fun _ hi => hi, fun _ hi => .inl hi⟩
    · cases h
  · rename_i hs
    cases h
    obtain ⟨hlt, hnone⟩ := Array.getElem?_eq_some_iff.1 hs
    refine ⟨by simp, by simp [Records, hlt], ?_, ?_, ?_, ?_⟩
    · intro i h hr
      have hne : j ≠ i := by
        rintro rfl
        unfold Records at hr
        rw [hs] at hr
        cases hr
      simp only [Records, Array.getElem?_setIfInBounds_ne hne]
      exact hr
    · intro i h hr
      by_cases hij : j = i
      · subst hij
        simp only [Records, Array.getElem?_setIfInBounds_self_of_lt hlt] at hr
        cases hr
        exact .inr ⟨rfl, rfl, fun hj => by simp [hj]⟩
      · simp only [Records, Array.getElem?_setIfInBounds_ne hij] at hr
        exact .inl hr
    · intro i hi
      dsimp only
      split
      · exact List.mem_cons_of_mem _ hi
      · exact hi
    · intro i hi
      dsimp only at hi
      split at hi
      · rename_i hj
        rcases List.mem_cons.1 hi with rfl | hi
        · exact .inr ⟨rfl, hj⟩
        · exact .inl hi
      · exact .inl hi

theorem reach_total (source : Nat) (hc : Consistent p) (hsize : s.heights.size = p.code.size + 1)
    (hrec : ∀ {i h}, s.Records i h → Reached p i h) (hjk : Reached p j k) :
    ∃ t, s.reach p source j k = .ok t := by
  have hlt : j < s.heights.size := by
    have := hc.inside hjk
    omega
  unfold reach
  split
  · rename_i hs
    rw [Array.getElem?_eq_none_iff] at hs
    omega
  · rename_i expected hs
    rw [if_pos (hc.unique (hrec hs) hjk)]
    exact ⟨s, rfl⟩
  · exact ⟨_, rfl⟩

end Reach

section ReachAll

variable {p : Prototype} {source : Nat}

theorem reachAll_ok (targets : List (Nat × Nat)) {s t : Search}
    (h : s.reachAll p source targets = .ok t) :
    t.heights.size = s.heights.size ∧ (∀ q ∈ targets, t.Records q.1 q.2) ∧
    (∀ i h, s.Records i h → t.Records i h) ∧
    (∀ i h, t.Records i h → s.Records i h ∨
      ((i, h) ∈ targets ∧ (i < p.code.size → i ∈ t.pending))) ∧
    (∀ i, i ∈ s.pending → i ∈ t.pending) ∧
    (∀ i, i ∈ t.pending → i ∈ s.pending ∨ (i < p.code.size ∧ ∃ h, t.Records i h)) := by
  induction targets generalizing s with
  | nil =>
    cases h
    exact ⟨rfl, by simp, fun _ _ hr => hr, fun _ _ hr => .inl hr, fun _ hi => hi,
      fun _ hi => .inl hi⟩
  | cons q rest ih =>
    obtain ⟨j, k⟩ := q
    simp only [reachAll] at h
    split at h
    · cases h
    · rename_i u hu
      obtain ⟨hsz, hjk, hkeep, hnew, hpk, hpn⟩ := reach_ok hu
      obtain ⟨hsz', hall, hkeep', hnew', hpk', hpn'⟩ := ih h
      refine ⟨hsz'.trans hsz, ?_, fun i h hr => hkeep' i h (hkeep i h hr), ?_,
        fun i hi => hpk' i (hpk i hi), ?_⟩
      · intro q hq
        rcases List.mem_cons.1 hq with rfl | hq
        · exact hkeep' _ _ hjk
        · exact hall q hq
      · intro i h hr
        rcases hnew' i h hr with hr | ⟨hm, hp⟩
        · rcases hnew i h hr with hr | ⟨rfl, rfl, hp⟩
          · exact .inl hr
          · exact .inr ⟨List.mem_cons_self, fun hlt => hpk' _ (hp hlt)⟩
        · exact .inr ⟨List.mem_cons_of_mem _ hm, hp⟩
      · intro i hi
        rcases hpn' i hi with hi | hi
        · rcases hpn i hi with hi | ⟨rfl, hlt⟩
          · exact .inl hi
          · exact .inr ⟨hlt, k, hkeep' _ _ hjk⟩
        · exact .inr hi

theorem reachAll_total (hc : Consistent p) (targets : List (Nat × Nat)) {s : Search}
    (hsize : s.heights.size = p.code.size + 1) (hrec : ∀ {i h}, s.Records i h → Reached p i h)
    (ht : ∀ q ∈ targets, Reached p q.1 q.2) : ∃ t, s.reachAll p source targets = .ok t := by
  induction targets generalizing s with
  | nil => exact ⟨s, rfl⟩
  | cons q rest ih =>
    obtain ⟨j, k⟩ := q
    have hjk : Reached p j k := ht _ List.mem_cons_self
    obtain ⟨u, hu⟩ := reach_total source hc hsize hrec hjk
    obtain ⟨hsz, _, _, hnew, _, _⟩ := reach_ok hu
    simp only [reachAll, hu]
    refine ih (hsz.trans hsize) ?_ fun q hq => ht q (List.mem_cons_of_mem _ hq)
    intro i h hr
    rcases hnew i h hr with hr | ⟨rfl, rfl, _⟩
    · exact hrec hr
    · exact hjk

end ReachAll

section Run

variable {p : Prototype} {s t : Search}

theorem visit_eq (hr : s.Records i h) :
    s.visit p i =
      match follow p i h with
      | .error e => .error e
      | .ok next => s.reachAll p i next := by
  unfold visit
  rw [Array.getD_eq_getD_getElem?, hr]
  rfl

/-- Following a pending offset, whichever it is, and recording the places it leads to, in whatever
order, keeps the search sound. -/
theorem follow_sound {k : Nat} {next : List (Nat × Nat)} (hs : Sound p s)
    (hp : ∀ j, j ∈ s.pending ↔ j = i ∨ j ∈ rest) (hrec : s.Records i k)
    (hfol : follow p i k = .ok targets) (hnext : ∀ q, q ∈ next ↔ q ∈ targets)
    (h : { s with pending := rest : Search }.reachAll p i next = .ok t) : Sound p t := by
  obtain ⟨hlt, _⟩ := hs.pending i ((hp i).2 (.inl rfl))
  obtain ⟨hsz, hall, hkeep, hnew, hpk, hpn⟩ := reachAll_ok next h
  refine ⟨hsz.trans hs.size, ?_, ?_, ?_⟩
  · intro j m hr
    rcases hnew j m hr with hr | ⟨hm, _⟩
    · exact hs.reached hr
    · exact .next (hs.reached hrec) hlt hfol ((hnext _).1 hm)
  · intro j hj
    rcases hpn j hj with hj | hj
    · obtain ⟨hjlt, m, hm⟩ := hs.pending j ((hp j).2 (.inr hj))
      exact ⟨hjlt, m, hkeep j m hm⟩
    · exact hj
  · intro j m hr hjlt
    rcases hnew j m hr with hold | ⟨_, hpend⟩
    · rcases hs.followed hold hjlt with hmem | ⟨ts, hts, hrecs⟩
      · rcases (hp j).1 hmem with rfl | hmem
        · -- the offset just visited: its instruction has been followed now
          have hmk : m = k := Records.unique hold hrec
          subst hmk
          exact .inr ⟨targets, hfol, fun q hq => hall q ((hnext q).2 hq)⟩
        · exact .inl (hpk j hmem)
      · exact .inr ⟨ts, hts, fun q hq => hkeep _ _ (hrecs q hq)⟩
    · exact .inl (hpend hjlt)

theorem visit_sound (hs : Sound p s) (hp : s.pending = i :: rest)
    (h : { s with pending := rest : Search }.visit p i = .ok t) : Sound p t := by
  obtain ⟨_, k, hrec⟩ := hs.pending i (by simp [hp])
  rw [visit_eq (s := { s with pending := rest }) (h := k) hrec] at h
  split at h
  · cases h
  · rename_i targets hfol
    exact follow_sound hs (by simp [hp]) hrec hfol (fun _ => .rfl) h

theorem visit_total (hc : Consistent p) (hs : Sound p s) (hp : s.pending = i :: rest) :
    ∃ t, { s with pending := rest : Search }.visit p i = .ok t := by
  obtain ⟨hlt, k, hrec⟩ := hs.pending i (by simp [hp])
  obtain ⟨targets, hfol⟩ := hc.follows (hs.reached hrec) hlt
  rw [visit_eq (s := { s with pending := rest }) (h := k) hrec, hfol]
  exact reachAll_total hc targets hs.size hs.reached fun q hq => .next (hs.reached hrec) hlt hfol hq

theorem visit_keeps (h : s.visit p i = .ok t) {j k : Nat} (hr : s.Records j k) : t.Records j k := by
  unfold visit at h
  split at h
  · cases h
  · obtain ⟨_, _, hkeep, _⟩ := reachAll_ok _ h
    exact hkeep j k hr

theorem run_sound (hs : Sound p s) (h : s.run p = .ok t) :
    Sound p t ∧ t.pending = [] ∧ ∀ {i k}, s.Records i k → t.Records i k := by
  fun_induction run p s with
  | case1 s hp =>
    cases h
    exact ⟨hs, hp, fun hr => hr⟩
  | case2 s i rest hp e hv => cases h
  | case3 s i rest hp u hv ih =>
    obtain ⟨hsound, hdone, hkeep⟩ := ih (visit_sound hs hp hv) h
    exact ⟨hsound, hdone, fun hr => hkeep (visit_keeps hv hr)⟩

theorem run_total (hc : Consistent p) (hs : Sound p s) : ∃ t, s.run p = .ok t := by
  fun_induction run p s with
  | case1 s hp => exact ⟨s, rfl⟩
  | case2 s i rest hp e hv =>
    obtain ⟨t, ht⟩ := visit_total hc hs hp
    rw [hv] at ht
    cases ht
  | case3 s i rest hp u hv ih => exact ih (visit_sound hs hp hv)

theorem start_reach : ∃ s, (Search.start p).reach p 0 0 0 = .ok s ∧ Sound p s := by
  have h0 : (Array.replicate (p.code.size + 1) (none : Option Nat))[0]? = some none := by simp
  obtain ⟨s, hs⟩ : ∃ s, (Search.start p).reach p 0 0 0 = .ok s := by
    simp only [reach, Search.start, h0]
    exact ⟨_, rfl⟩
  obtain ⟨hsz, hrec, _, hnew, _, hpn⟩ := reach_ok hs
  have hblank : ∀ i h, ¬(Search.start p).Records i h := by
    intro i h hr
    simp only [Records, Search.start, Array.getElem?_replicate] at hr
    split at hr <;> cases hr
  refine ⟨s, hs, ?_, ?_, ?_, ?_⟩
  · rw [hsz]
    simp [Search.start]
  · intro i h hr
    rcases hnew i h hr with hr | ⟨rfl, rfl, _⟩
    · exact absurd hr (hblank i h)
    · exact .start
  · intro i hi
    rcases hpn i hi with hi | ⟨rfl, hlt⟩
    · cases hi
    · exact ⟨hlt, 0, hrec⟩
  · intro i h hr hlt
    rcases hnew i h hr with hr | ⟨rfl, rfl, hp⟩
    · exact absurd hr (hblank i h)
    · exact .inl (hp hlt)

end Run

end Search

namespace Search

variable {p : Prototype} {s : Search}

/-- A finished search has recorded what the paths reach, no more and no less. -/
theorem Sound.records_iff (hs : Sound p s) (hdone : s.pending = []) (hzero : s.Records 0 0)
    (i k : Nat) : s.Records i k ↔ Reached p i k := by
  refine ⟨fun hk => hs.reached hk, fun hr => ?_⟩
  induction hr with
  | start => exact hzero
  | next _ hlt hfol hmem ih =>
    rcases hs.followed ih hlt with hpending | ⟨targets, ht, hall⟩
    · rw [hdone] at hpending
      cases hpending
    · rw [hfol] at ht
      cases ht
      exact hall _ hmem

theorem Sound.consistent (hs : Sound p s) (hdone : s.pending = []) (hzero : s.Records 0 0) :
    Consistent p := by
  have hiff := hs.records_iff hdone hzero
  refine ⟨?_, ?_, ?_⟩
  · intro i k hr
    obtain ⟨hlt, _⟩ := Array.getElem?_eq_some_iff.1 ((hiff i k).2 hr)
    have := hs.size
    omega
  · intro i k hr hlt
    rcases hs.followed ((hiff i k).2 hr) hlt with hpending | ⟨targets, ht, _⟩
    · rw [hdone] at hpending
      cases hpending
    · exact ⟨targets, ht⟩
  · intro i k m hk hm
    exact Records.unique ((hiff i k).2 hk) ((hiff i m).2 hm)

end Search

theorem finished_of_heights {hs : Array (Option Nat)} (h : heights p = .ok hs) :
    ∃ t : Search, t.Sound p ∧ t.pending = [] ∧ t.Records 0 0 ∧ t.heights = hs := by
  obtain ⟨s, hs0, hsound⟩ := Search.start_reach (p := p)
  obtain ⟨_, hrec, _⟩ := Search.reach_ok hs0
  simp only [heights, hs0] at h
  cases hrun : s.run p with
  | error e => simp [hrun, Except.map] at h
  | ok t =>
    simp only [hrun, Except.map, Except.ok.injEq] at h
    obtain ⟨ht, hdone, hkeep⟩ := Search.run_sound hsound hrun
    exact ⟨t, ht, hdone, hkeep hrec, h⟩

theorem getElem?_heights_iff {hs : Array (Option Nat)} (h : heights p = .ok hs) (i k : Nat) :
    hs[i]? = some (some k) ↔ Reached p i k := by
  obtain ⟨t, ht, hdone, hzero, rfl⟩ := finished_of_heights h
  exact ht.records_iff hdone hzero i k

theorem heights_ok_iff : (∃ hs, heights p = .ok hs) ↔ Consistent p := by
  constructor
  · rintro ⟨hs, h⟩
    obtain ⟨t, ht, hdone, hzero, _⟩ := finished_of_heights h
    exact ht.consistent hdone hzero
  · intro hc
    obtain ⟨s, hs0, hsound⟩ := Search.start_reach (p := p)
    obtain ⟨t, ht⟩ := Search.run_total hc hsound
    exact ⟨t.heights, by simp [heights, hs0, ht, Except.map]⟩

/-- One function passes exactly when its code is consistent and every path to its end leaves at most
one value. -/
theorem checkOne_ok_iff :
    checkOne p = .ok () ↔ Consistent p ∧ ∀ h, Reached p p.code.size h → h ≤ 1 := by
  unfold checkOne
  constructor
  · intro h
    split at h
    · cases h
    · rename_i hs hhs
      refine ⟨heights_ok_iff.1 ⟨hs, hhs⟩, fun k hr => ?_⟩
      have hk := (getElem?_heights_iff hhs _ _).2 hr
      rw [Array.getD_eq_getD_getElem?, hk] at h
      simp only [Option.getD_some] at h
      split at h
      · cases h
      · omega
  · rintro ⟨hc, hend⟩
    obtain ⟨hs, hhs⟩ := heights_ok_iff.2 hc
    simp only [hhs]
    split
    · rename_i k hk
      have hrec : hs[p.code.size]? = some (some k) := by
        rw [Array.getD_eq_getD_getElem?] at hk
        cases hg : hs[p.code.size]? with
        | none => rw [hg] at hk; cases hk
        | some o => rw [hg] at hk; exact congrArg some hk
      have hle := hend k ((getElem?_heights_iff hhs _ _).1 hrec)
      rw [if_neg (by omega)]
    · rfl

theorem checkAll_ok_iff (ps : List Prototype) :
    checkAll ps = .ok () ↔ ∀ q ∈ ps, check q = .ok () := by
  induction ps with
  | nil => simp [checkAll]
  | cons q qs ih =>
    simp only [checkAll, List.forall_mem_cons, ← ih]
    cases hq : check q with
    | error e => simp
    | ok u => simp

/-- A function passes exactly when it passes by itself and those inside it pass. -/
theorem check_ok_iff (p : Prototype) :
    check p = .ok () ↔ checkOne p = .ok () ∧ ∀ q ∈ p.nested, check q = .ok () := by
  cases p
  rw [check, ← checkAll_ok_iff]
  cases checkOne _ with
  | error e => simp
  | ok u => simp

end StackCheck
end Refscript
