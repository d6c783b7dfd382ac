import Refscript.Proofs.Store.Ensures

/-!
# Refscript.Proofs.Store.Chain

Following references. The chain from a value is read link by link, each time through the reference
that the link before it gave; it goes on until a value is reached that is no reference, or a read
fails, or for ever.

* `Store.Chain`: a number of reads, all of them successful, lead from one value to another. It knows
  of no limit.
* `Store.Ends`: how following at most `n` references ends, in terms of chains. `derefWithin_iff`: so
  it does.
* `deref_exact`: which values are found, which faults are raised, and that no cycle is followed to
  an end.
-/

namespace Refscript

/-- The value is not a reference. -/
def Value.Plain (v : Value) : Prop :=
  ∀ id place, v ≠ .ref id place

theorem Value.plain_or_ref (v : Value) : v.Plain ∨ ∃ id place, v = .ref id place := by
  cases v with
  | ref id place => exact .inr ⟨id, place, rfl⟩
  | _ => exact .inl (by simp [Plain])

namespace Store

/-- `n` reads through references, all of them successful, lead from a value to another. -/
inductive Chain (s : Store) : Nat → Value → Value → Prop where
  | nil (v : Value) : Chain s 0 v v
  | link {n id : Nat} {place : Place} {v w : Value} : s.read place = .ok v → Chain s n v w →
      Chain s (n + 1) (.ref id place) w

namespace Chain

variable {s : Store} {n m : Nat} {u v w : Value}

theorem trans (h : s.Chain n u v) (h' : s.Chain m v w) : s.Chain (n + m) u w := by
  induction h with
  | nil => rwa [Nat.zero_add]
  | link hread _ ih =>
    rw [Nat.add_right_comm]
    exact .link hread (ih h')

theorem front (h : s.Chain (n + m + 1) u w) : ∃ id place, s.Chain n u (.ref id place) := by
  induction n generalizing u with
  | zero =>
    cases h with
    | link => exact ⟨_, _, .nil _⟩
  | succ n ih =>
    rw [Nat.add_right_comm n 1 m] at h
    cases h with
    | link hread h =>
      obtain ⟨id, place, h⟩ := ih h
      exact ⟨id, place, .link hread h⟩

theorem round (h : s.Chain (m + 1) v v) (n : Nat) : ∃ k, s.Chain (n + k) v v := by
  induction n with
  | zero => exact ⟨0, .nil v⟩
  | succ n ih =>
    obtain ⟨k, hk⟩ := ih
    have hround := hk.trans h
    rw [show n + k + (m + 1) = n + 1 + (k + m) by omega] at hround
    exact ⟨k + m, hround⟩

/-- Following references goes along the chain, and each link takes one of those that may be
followed. -/
theorem derefWithin (h : s.Chain n v w) (m : Nat) :
    s.derefWithin (n + m) v = s.derefWithin m w := by
  induction h with
  | nil => rw [Nat.zero_add]
  | link hread _ ih => simp only [Nat.add_right_comm _ 1 m, Store.derefWithin, hread, ih]

end Chain

/-- How following at most `n` references ends. -/
inductive Ends (s : Store) (n : Nat) (v : Value) : Except Fault Value → Prop where
  | plain {k : Nat} {p : Value} : k ≤ n → s.Chain k v p → p.Plain → Ends s n v (.ok p)
  | failed {k id : Nat} {place : Place} {f : Fault} : k < n → s.Chain k v (.ref id place) →
      s.read place = .error f → Ends s n v (.error f)
  | tooLong {id : Nat} {place : Place} : s.Chain n v (.ref id place) →
      Ends s n v (.error (.invalidReferenceTarget (.chainTooLong maxChain)))

variable {s : Store} {n : Nat} {v : Value} {r : Except Fault Value}

theorem derefWithin_ends (s : Store) (n : Nat) (v : Value) : s.Ends n v (s.derefWithin n v) := by
  induction n generalizing v with
  | zero =>
    rcases v.plain_or_ref with hv | ⟨id, place, rfl⟩
    · rw [derefWithin_of_plain s hv]
      exact .plain (Nat.le_refl _) (.nil v) hv
    · exact .tooLong (.nil _)
  | succ n ih =>
    rcases v.plain_or_ref with hv | ⟨id, place, rfl⟩
    · rw [derefWithin_of_plain s hv]
      exact .plain (Nat.zero_le _) (.nil v) hv
    · cases hread : s.read place with
      | error f =>
        simp only [derefWithin, hread]
        exact .failed (Nat.succ_pos n) (.nil _) hread
      | ok w =>
        simp only [derefWithin, hread]
        have hends := ih w
        generalize s.derefWithin n w = r at hends ⊢
        -- one link more than from what was read
        cases hends with
        | plain hk hchain hp => exact .plain (Nat.succ_le_succ hk) (.link hread hchain) hp
        | failed hk hchain hf => exact .failed (Nat.succ_lt_succ hk) (.link hread hchain) hf
        | tooLong hchain => exact .tooLong (.link hread hchain)

theorem derefWithin_iff : s.derefWithin n v = r ↔ s.Ends n v r := by
  constructor
  · rintro rfl
    exact s.derefWithin_ends n v
  · rintro (⟨hk, hchain, hp⟩ | ⟨hk, hchain, hf⟩ | hchain)
    · obtain ⟨m, rfl⟩ := Nat.exists_eq_add_of_le hk
      rw [hchain.derefWithin, derefWithin_of_plain s hp]
    · obtain ⟨m, rfl⟩ := Nat.exists_eq_add_of_lt hk
      rw [Nat.add_assoc, hchain.derefWithin]
      simp only [derefWithin, hf]
    · exact hchain.derefWithin 0

/-- A value is found exactly if at most 64 reads lead to it and it is no reference. A fault is the
one that one of the first 64 reads raises, or says that the chain is too long, and then the 64th
read has given a reference again; so it says of every chain that comes to a cycle. -/
theorem deref_exact (s : Store) (v : Value) :
    (∀ p, s.deref v = .ok p ↔ p.Plain ∧ ∃ n ≤ 64, s.Chain n v p) ∧
    (∀ f, s.deref v = .error f ↔
      (∃ n < 64, ∃ id place, s.Chain n v (.ref id place) ∧ s.read place = .error f) ∨
      (f = .invalidReferenceTarget (.chainTooLong 64) ∧ ∃ id place, s.Chain 64 v (.ref id place))) ∧
    (∀ n m w, s.Chain n v w → s.Chain (m + 1) w w →
      s.deref v = .error (.invalidReferenceTarget (.chainTooLong 64))) := by
  refine ⟨fun p => ?_, fun f => ?_, fun n m w hchain hcycle => ?_⟩
  · rw [deref, derefWithin_iff]
    constructor
    · rintro ⟨hk, hchain, hp⟩
      exact ⟨hp, _, hk, hchain⟩
    · rintro ⟨hp, k, hk, hchain⟩
      exact .plain hk hchain hp
  · rw [deref, derefWithin_iff]
    constructor
    · rintro (_ | ⟨hk, hchain, hf⟩ | hchain)
      · exact .inl ⟨_, hk, _, _, hchain, hf⟩
      · exact .inr ⟨rfl, _, _, hchain⟩
    · rintro (⟨k, hk, id, place, hchain, hf⟩ | ⟨rfl, id, place, hchain⟩)
      · exact .failed hk hchain hf
      · exact .tooLong hchain
  · obtain ⟨k, hround⟩ := hcycle.round (64 + 1)
    have hlong := hchain.trans hround
    rw [show n + (64 + 1 + k) = 64 + (n + k) + 1 by omega] at hlong
    obtain ⟨id, place, hfront⟩ := hlong.front
    exact derefWithin_iff.2 (.tooLong hfront)

/-- A store in which references lead round in a circle: a local variable, a captured one, a global,
an element of a list and a field of an object hold a reference each, and another global one to the
local variable. -/
def circular : Store :=
  { empty with
    activations := #[#[.ref 1 (.outer 1)]]
    cells := #[.opened 0 0, .closed (.ref 2 (.global "x"))]
    globals := .ofList [("x", .ref 3 (.element (.list 0) (.int 0))), ("y", .ref 0 (.loc 0))]
    lists := #[#[.ref 4 (.field (.object 0) "f")]]
    objects := #[⟨0, .ofList [("f", .ref 0 (.loc 0))]⟩] }

/-- The other global is one link away from a circle of five, through references of every kind. -/
theorem deref_exact_circular :
    circular.Chain 1 (.ref 5 (.global "y")) (.ref 0 (.loc 0)) ∧
    circular.Chain 5 (.ref 0 (.loc 0)) (.ref 0 (.loc 0)) ∧
    circular.deref (.ref 5 (.global "y")) =
      .error (.invalidReferenceTarget (.chainTooLong 64)) := by
  have hlead : circular.Chain 1 (.ref 5 (.global "y")) (.ref 0 (.loc 0)) := .link rfl (.nil _)
  have hcycle : circular.Chain (4 + 1) (.ref 0 (.loc 0)) (.ref 0 (.loc 0)) :=
    .link rfl (.link rfl (.link rfl (.link rfl (.link rfl (.nil _)))))
  exact ⟨hlead, hcycle, (deref_exact circular _).2.2 1 4 _ hlead hcycle⟩

end Store
end Refscript
