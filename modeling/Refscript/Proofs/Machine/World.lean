import Refscript.Proofs.Machine.Run
import Refscript.Terminal

/-!
# Refscript.Proofs.Machine.World

A machine against a world: the answers to its requests come from a terminal whose state is part of
the configuration, so a run is determined by where it starts.

* `Outcome.after`: the configuration after a number of moves. It stays as it is once the run has
  ended.
* `Outcome.exists_drive_iff`: the loop that runs machines reaches the same ends.
* `Outcome.atop_after`: a call goes the same way whether or not another call is waiting for its
  result.
-/

namespace Refscript

variable {ω : Type}

namespace Outcome

/-- The run is over. -/
def ended : Outcome → Bool
  | running _ | waiting _ _ => false
  | returned _ _ | failed _ _ | stuck _ => true

/-- One move: a step of the machine, or the world's answer to its request. -/
def move (t : Terminal (StateM ω)) (host : Host) : Outcome × ω → Outcome × ω
  | (running m, w) => (m.step host, w)
  | (waiting r m, w) => ((m.resume ((t.answer r).run w).1), ((t.answer r).run w).2)
  | c => c

/-- The configuration after a number of moves. -/
def after (t : Terminal (StateM ω)) (host : Host) : Nat → Outcome × ω → Outcome × ω
  | 0, c => c
  | n + 1, c => after t host n (move t host c)

variable {t : Terminal (StateM ω)} {host : Host} {k n : Nat}

theorem after_add (k n : Nat) (c : Outcome × ω) :
    after t host (k + n) c = after t host n (after t host k c) := by
  induction k generalizing c with
  | zero => rw [Nat.zero_add, after]
  | succ k ih =>
    rw [Nat.succ_add, after, after]
    exact ih (move t host c)

theorem move_of_ended {c : Outcome × ω} (h : c.1.ended = true) : move t host c = c := by
  obtain ⟨o, w⟩ := c
  cases o with
  | running | waiting => cases h
  | returned | failed | stuck => rfl

theorem after_of_ended {c : Outcome × ω} (h : c.1.ended = true) (n : Nat) :
    after t host n c = c := by
  induction n with
  | zero => rfl
  | succ n ih => rw [after, move_of_ended h, ih]

theorem after_eq_of_le {c : Outcome × ω} (hk : (after t host k c).1.ended = true) (hle : k ≤ n) :
    after t host n c = after t host k c := by
  obtain ⟨d, rfl⟩ := Nat.exists_eq_add_of_le hle
  rw [after_add, after_of_ended hk]

theorem after_unique {c : Outcome × ω} (hk : (after t host k c).1.ended = true)
    (hn : (after t host n c).1.ended = true) : after t host k c = after t host n c := by
  rcases Nat.le_total k n with h | h
  · exact (after_eq_of_le hk h).symm
  · exact after_eq_of_le hn h

theorem ended_anti {c : Outcome × ω} (hle : k ≤ n) (h : (after t host n c).1.ended = false) :
    (after t host k c).1.ended = false := by
  cases hk : (after t host k c).1.ended with
  | false => rfl
  | true =>
    rw [after_eq_of_le hk hle, hk] at h
    cases h

variable (t host) in
theorem run_eq_after (m : Machine) (w : ω) (n : Nat) :
    ∃ k, (m.run host (n + 1), w) = after t host (k + 1) (running m, w) := by
  induction n generalizing m with
  | zero =>
    refine ⟨0, ?_⟩
    simp only [Machine.run, after, move]
    split
    · rename_i m' hm
      rw [hm]
    · rfl
  | succ n ih =>
    rw [Machine.run]
    split
    · rename_i m' hm
      obtain ⟨k, hk⟩ := ih m'
      have hmove : move t host (running m, w) = (running m', w) := by rw [move, hm]
      refine ⟨k + 1, ?_⟩
      rw [hk, ← hmove]
      rfl
    · exact ⟨0, rfl⟩

variable (t host) in
theorem drive_eq_after (n : Nat) (o : Outcome) (w : ω) :
    ∃ k, (Machine.drive t host false n o).run w = after t host k (o, w) ∧
      (n ≤ k ∨ (after t host k (o, w)).1.ended = true) := by
  induction n generalizing o w with
  | zero => exact ⟨0, rfl, .inl (Nat.le_refl 0)⟩
  | succ n ih =>
    -- one round makes at least one move, and the others follow
    have hround : ∀ k o' w', (o', w') = after t host (k + 1) (o, w) →
        (Machine.drive t host false (n + 1) o).run w = (Machine.drive t host false n o').run w' →
        ∃ k, (Machine.drive t host false (n + 1) o).run w = after t host k (o, w) ∧
          (n + 1 ≤ k ∨ (after t host k (o, w)).1.ended = true) := by
      intro k o' w' hk hdrive
      obtain ⟨k', hk', hle⟩ := ih o' w'
      have htotal : after t host (k + 1 + k') (o, w) = after t host k' (o', w') := by
        rw [after_add, ← hk]
      refine ⟨k + 1 + k', ?_, ?_⟩
      · rw [hdrive, hk', htotal]
      · rw [htotal]
        exact hle.imp_left fun h => by omega
    cases o with
    | running m =>
      obtain ⟨k, hk⟩ := run_eq_after t host m w 4095
      exact hround k _ _ hk rfl
    | waiting r m => exact hround 0 _ _ rfl rfl
    | returned | failed | stuck => exact ⟨0, rfl, .inr rfl⟩

/-- The loop comes to an end exactly if the moves do, and to the same. -/
theorem exists_drive_iff (o : Outcome) (w : ω) {c : Outcome × ω} (hc : c.1.ended = true) :
    (∃ n, (Machine.drive t host false n o).run w = c) ↔ ∃ k, after t host k (o, w) = c := by
  constructor
  · rintro ⟨n, rfl⟩
    obtain ⟨k, hk, _⟩ := drive_eq_after t host n o w
    exact ⟨k, hk.symm⟩
  · rintro ⟨k, rfl⟩
    obtain ⟨k', hk', hle | hend⟩ := drive_eq_after t host k o w
    · exact ⟨k, hk'.trans (after_eq_of_le hc hle)⟩
    · exact ⟨k, hk'.trans (after_unique hend hc)⟩

end Outcome

theorem Kept.after {P : Store → List Frame → Prop} (hP : Kept P) (t : Terminal (StateM ω))
    (host : Host) {o : Outcome} (h : P o.machine.store o.machine.frames) (w : ω) (n : Nat) :
    P (Outcome.after t host n (o, w)).1.machine.store
      (Outcome.after t host n (o, w)).1.machine.frames := by
  have hmove : ∀ {o : Outcome} (w : ω), P o.machine.store o.machine.frames →
      P (Outcome.move t host (o, w)).1.machine.store
        (Outcome.move t host (o, w)).1.machine.frames := by
    intro o w h
    cases o with
    | running m =>
      have hm : Outcome.Move host (.running m) (m.step host) := .step m
      exact hP.move h hm
    | waiting r m =>
      exact hP.resume h _
    | returned | failed | stuck => exact h
  induction n generalizing o w with
  | zero => exact h
  | succ n ih => exact ih (hmove w h) _

/-- The machine with one more call, which waits for the outermost of the others. -/
def Machine.atop (m : Machine) (f : Frame) : Machine :=
  { m with frames := m.frames ++ [f] }

theorem Machine.store_atop (m : Machine) (f : Frame) : (m.atop f).store = m.store :=
  rfl

/-- The number of calls is counted from the given depth on. -/
structure Machine.Counts (depth limit : Nat) (m : Machine) : Prop where
  depth : m.depth = depth + m.frames.length
  limit : m.limit = limit

namespace Outcome

/-- The two are the same, but for the call `f` that in the second one waits for the result. -/
inductive Atop (f : Frame) (depth limit : Nat) : Outcome → Outcome → Prop where
  | running {m : Machine} : m.Counts depth limit → (m.pending = none → m.frames ≠ []) →
      Atop f depth limit (running m) (running (m.atop f))
  | waiting {r : Request} {m : Machine} : m.Counts depth limit → m.pending = none →
      Atop f depth limit (waiting r m) (waiting r (m.atop f))
  | returned {v : Value} {s : Store} :
      Atop f depth limit (returned v ⟨s, [], none, depth, limit⟩)
        (running ⟨s, [f.push v], none, depth, limit⟩)
  | failed {e e' : RuntimeError} {m m' : Machine} : e'.fault = e.fault → m'.store = m.store →
      Atop f depth limit (failed e m) (failed e' m')
  | stuck {m m' : Machine} : m'.store = m.store → Atop f depth limit (stuck m) (stuck m')

variable {f : Frame} {depth limit : Nat} {m : Machine}

theorem unwind_atop (hcells : f.openCells = []) (m : Machine) :
    (m.atop f).unwind.store = m.unwind.store := by
  obtain ⟨s, frames, pending, d, l⟩ := m
  induction frames generalizing s d with
  | nil =>
    show (f.closeFrom 0 s).2 = s
    rw [Frame.closeFrom, hcells]
    rfl
  | cons g gs ih => exact ih (g.closeFrom 0 s).2 (d - 1)

theorem atop_raise (hcells : f.openCells = []) (m : Machine) (e : Fault) :
    Atop f depth limit (m.raise e) ((m.atop f).raise e) := by
  cases e with
  | capacityOverflow => exact .stuck (unwind_atop hcells m)
  | _ => exact .failed rfl (unwind_atop hcells m)

theorem atop_deliver (hm : m.Counts depth limit) (hp : m.pending = none) (v : Value) :
    Atop f depth limit (m.deliver v) ((m.atop f).deliver v) := by
  obtain ⟨s, frames, pending, d, l⟩ := m
  obtain ⟨hdepth, rfl⟩ := hm
  cases hp
  cases frames with
  | nil =>
    cases hdepth
    exact .returned
  | cons g gs => exact .running ⟨hdepth, rfl⟩ fun _ => List.cons_ne_nil _ _

theorem atop_start (hcells : f.openCells = []) (hm : m.Counts depth limit) (c : Closure)
    (this : Option Value) (args : List Value) (result : Option Value) :
    Atop f depth limit (m.start c this args result) ((m.atop f).start c this args result) := by
  obtain ⟨s, frames, pending, d, l⟩ := m
  obtain ⟨hdepth, rfl⟩ := hm
  unfold Machine.start Machine.atop
  dsimp only
  split
  · exact atop_raise hcells _ _
  · split
    · exact atop_raise hcells _ _
    · split
      · exact .stuck rfl
      · refine .running ⟨?_, rfl⟩ fun _ => List.cons_ne_nil _ _
        show d + 1 = depth + (frames.length + 1)
        rw [← Nat.add_assoc]
        exact congrArg (· + 1) hdepth

theorem atop_callMember (hcells : f.openCells = []) (hm : m.Counts depth limit) (v : Value)
    (c : Call) : Atop f depth limit (m.callMember v c) ((m.atop f).callMember v c) := by
  unfold Machine.callMember
  split
  · exact atop_start hcells hm _ _ _ _
  · exact .running (m := { m with pending := _ }) ⟨hm.depth, hm.limit⟩ fun h => nomatch h

theorem atop_instantiate (hcells : f.openCells = []) (hm : m.Counts depth limit)
    (hp : m.pending = none) (id : TypeId) (c : Call) :
    Atop f depth limit (m.instantiate id c) ((m.atop f).instantiate id c) := by
  obtain ⟨s, frames, pending, d, l⟩ := m
  have hnew : Machine.Counts depth limit ⟨(s.addObject ⟨id, .empty⟩).2, frames, pending, d, l⟩ :=
    ⟨hm.depth, hm.limit⟩
  unfold Machine.instantiate Machine.atop
  dsimp only
  split
  · exact atop_raise hcells _ _
  · split
    · exact atop_callMember hcells hnew _ _
    · split
      · exact atop_deliver hnew hp _
      · exact atop_raise hcells _ _

theorem atop_callNative (hcells : f.openCells = []) (hm : m.Counts depth limit) (id : CallbackId)
    (c : Call) : Atop f depth limit (m.callNative host id c) ((m.atop f).callNative host id c) := by
  obtain ⟨s, frames, pending, d, l⟩ := m
  have hnew : ∀ (s' : Store) (c : Option Call), Machine.Counts depth limit ⟨s', frames, c, d, l⟩ :=
    fun _ _ => ⟨hm.depth, hm.limit⟩
  unfold Machine.callNative Machine.atop
  dsimp only
  split
  · exact atop_deliver (hnew _ none) rfl _
  · exact .waiting (hnew _ none) rfl
  · exact .running (hnew _ _) fun h => nomatch h
  · exact atop_raise hcells _ _

theorem atop_enter (hcells : f.openCells = []) (hm : m.Counts depth limit) (hp : m.pending = none)
    (c : Call) : Atop f depth limit (m.enter host c) ((m.atop f).enter host c) := by
  unfold Machine.enter
  simp only [Machine.store_atop]
  split
  · exact atop_raise hcells _ _
  · exact atop_start hcells hm _ _ _ _
  · exact atop_callNative hcells hm _ _
  · exact atop_instantiate hcells hm hp _ _
  · split
    · exact atop_callMember hcells hm _ _
    · exact atop_raise hcells _ _
  · exact atop_raise hcells _ _

theorem atop_execute (hcells : f.openCells = []) {g : Frame} {rest : List Frame} {d : Nat}
    (hd : d = depth + (g :: rest).length) (w : Word) (s : Store) :
    Atop f depth limit (Machine.execute g w rest s d limit)
      (Machine.execute g w (rest ++ [f]) s d limit) := by
  unfold Machine.execute
  dsimp only
  split
  · exact .running ⟨hd, rfl⟩ fun _ => List.cons_ne_nil _ _
  · exact .running ⟨hd, rfl⟩ fun _ => List.cons_ne_nil _ _
  · exact atop_raise hcells _ _

theorem atop_step (hcells : f.openCells = []) (hm : m.Counts depth limit)
    (hbusy : m.pending = none → m.frames ≠ []) :
    Atop f depth limit (m.step host) ((m.atop f).step host) := by
  obtain ⟨s, frames, pending, d, l⟩ := m
  cases pending with
  | some c => exact atop_enter hcells (m := ⟨s, frames, none, d, l⟩) ⟨hm.depth, hm.limit⟩ rfl c
  | none =>
    obtain ⟨hdepth, rfl⟩ := hm
    cases frames with
    | nil => exact absurd rfl (hbusy rfl)
    | cons g rest =>
      simp only [Machine.atop, List.cons_append, Machine.step]
      split
      · exact atop_execute hcells hdepth _ _
      · refine atop_deliver (m := ⟨(g.closeFrom 0 s).2, rest, none, d - 1, l⟩) ⟨?_, rfl⟩ rfl _
        simp only [List.length_cons] at hdepth ⊢
        omega

variable (t host) in
theorem atop_move (hcells : f.openCells = []) {c c' : Outcome × ω} (h : Atop f depth limit c.1 c'.1)
    (hworld : c.2 = c'.2) (hend : c.1.ended = false) :
    Atop f depth limit (move t host c).1 (move t host c').1 ∧
      (move t host c).2 = (move t host c').2 := by
  obtain ⟨o, w⟩ := c
  obtain ⟨o', w'⟩ := c'
  cases hworld
  cases h with
  | running hm hbusy => exact ⟨atop_step hcells hm hbusy, rfl⟩
  | waiting hm hp =>
    refine ⟨?_, rfl⟩
    simp only [move, Machine.resume]
    split
    · exact atop_deliver hm hp _
    · exact atop_raise hcells _ _
  | returned | failed | stuck => cases hend

variable (t host) in
/-- A call goes the same way with another one below, up to its end. -/
theorem atop_after (hcells : f.openCells = []) {c c' : Outcome × ω}
    (h : Atop f depth limit c.1 c'.1) (hworld : c.2 = c'.2) (n : Nat) :
    ∃ k, Atop f depth limit (after t host n c).1 (after t host k c').1 ∧
      (after t host n c).2 = (after t host k c').2 ∧
        ((after t host n c).1.ended = false → k = n) := by
  induction n generalizing c c' with
  | zero => exact ⟨0, h, hworld, fun _ => rfl⟩
  | succ n ih =>
    cases hend : c.1.ended with
    | false =>
      obtain ⟨hmove, hworld⟩ := atop_move t host hcells h hworld hend
      obtain ⟨k, hatop, hsame, hk⟩ := ih hmove hworld
      exact ⟨k + 1, hatop, hsame, fun hnot => congrArg (· + 1) (hk hnot)⟩
    | true =>
      refine ⟨0, ?_⟩
      rw [after_of_ended hend]
      exact ⟨h, hworld, fun hnot => by rw [hend] at hnot; cases hnot⟩

end Outcome
end Refscript
