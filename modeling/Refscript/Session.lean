import Refscript.Shell

/-!
# Refscript.Session

Several machines over one store. Each has its own count of calls in progress and its own limit on
them.
-/

namespace Refscript

/-- What a machine does not share with the others of a session. -/
structure Engine where
  depth : Nat
  limit : Nat
deriving DecidableEq, Inhabited, Repr

structure Session where
  store : Store
  engines : Array Engine

namespace Session

/-- A session with one machine. -/
def new (store : Store) (limit : Nat) : Session :=
  ⟨store, #[⟨0, limit⟩]⟩

/-- A machine of the session, at rest. -/
def machine (s : Session) (i : Nat) : Machine :=
  let e := s.engines.getD i default
  ⟨s.store, [], none, e.depth, e.limit⟩

/-- Takes over what a machine leaves behind. -/
def keep (s : Session) (i : Nat) (m : Machine) : Session :=
  { s with store := m.store, engines := s.engines.setIfInBounds i ⟨m.depth, m.limit⟩ }

/-- Adds a machine with the limit of another one. -/
def spawn (s : Session) (i : Nat) : Nat × Session :=
  (s.engines.size, { s with engines := s.engines.push ⟨0, (s.engines.getD i default).limit⟩ })

variable {μ : Type → Type} [Monad μ]

/-- Has a machine carry out a task. -/
def perform (s : Session) (sh : Shell μ) (i : Nat) (task : Machine → Outcome) :
    μ (Except Failure Value × Session) := do
  let m := s.machine i
  let (result, m) := (← sh.finish (task m)).settle m
  return (result, s.keep i m)

/-- Has a machine compile and run a program. -/
def interpret (s : Session) (sh : Shell μ) (i : Nat) (source : String) :
    μ (Except Failure Value × Session) := do
  let (result, m) ← sh.interpret source (s.machine i)
  return (result, s.keep i m)

end Session
end Refscript
