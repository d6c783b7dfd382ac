import Refscript.Store.Basic
import Refscript.Value.Fault

/-!
# Refscript.Store.Action

Actions on the store. An action that fails still says which store it leaves behind.
-/

namespace Refscript

abbrev Action := EStateM Fault Store

namespace Action

/-- Looks something up. -/
@[inline] def look {α : Type} (view : Store → α) : Action α := fun s => .ok (view s) s

/-- Looks something up that may be missing. -/
@[inline] def reading {α : Type} (look : Store → Except Fault α) : Action α := fun s =>
  match look s with
  | .ok a => .ok a s
  | .error f => .error f s

/-- Something that needs no store and may fail. -/
@[inline] def ofExcept {α : Type} (x : Except Fault α) : Action α := fun s =>
  match x with
  | .ok a => .ok a s
  | .error f => .error f s

@[inline] def fail {α : Type} (f : Fault) : Action α := fun s => .error f s

/-- Adds an item or draws a number. -/
@[inline] def adding {α : Type} (add : Store → α × Store) : Action α := fun s =>
  let (a, s) := add s
  .ok a s

@[inline] def changing (change : Store → Store) : Action Unit := fun s => .ok () (change s)

end Action
end Refscript
