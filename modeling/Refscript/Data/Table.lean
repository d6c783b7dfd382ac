/-!
# Refscript.Data.Table

Association tables in the order in which keys were first inserted. Inserting under a key that is
present replaces its value and keeps its place.
-/

namespace Refscript

structure Table (κ α : Type) where
  entries : List (κ × α)
deriving Repr

namespace Table

variable {κ α : Type}

def empty : Table κ α := ⟨[]⟩

instance : Inhabited (Table κ α) := ⟨empty⟩

def get? [DecidableEq κ] (t : Table κ α) (k : κ) : Option α :=
  go t.entries
where
  go : List (κ × α) → Option α
    | [] => none
    | (k', a) :: rest => if k' = k then some a else go rest

def contains [DecidableEq κ] (t : Table κ α) (k : κ) : Bool :=
  (t.get? k).isSome

def insert [DecidableEq κ] (t : Table κ α) (k : κ) (a : α) : Table κ α :=
  ⟨go t.entries⟩
where
  go : List (κ × α) → List (κ × α)
    | [] => [(k, a)]
    | (k', b) :: rest => if k' = k then (k', a) :: rest else (k', b) :: go rest

/-- Inserts the given entries one after the other. -/
def insertAll [DecidableEq κ] (t : Table κ α) (entries : List (κ × α)) : Table κ α :=
  entries.foldl (fun t (k, a) => t.insert k a) t

def ofList [DecidableEq κ] (entries : List (κ × α)) : Table κ α :=
  empty.insertAll entries

end Table
end Refscript
