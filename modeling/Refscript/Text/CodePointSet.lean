/-!
# Refscript.Text.CodePointSet

Sets of code points given by their boundaries: an ascending list of the points at which membership
changes. A point belongs to the set when an odd number of boundaries is at or below it. This is how
the character classes of the language are tabulated.
-/

namespace Refscript
namespace Text

/-- A set of code points; `boundaries` is ascending and membership changes at each of its
entries. -/
structure CodePointSet where
  boundaries : Array Nat

namespace CodePointSet

/-- The set whose boundaries have the given distances from one to the next, the first one from
zero. -/
def ofGaps (gaps : Array Nat) : CodePointSet :=
  ⟨(gaps.foldl (fun (last, bounds) gap => (last + gap, bounds.push (last + gap))) (0, #[])).2⟩

/-- The number of entries among positions `lo` to `hi` of an ascending array that are at most `n`,
added to `lo`, by bisection. -/
def rank (xs : Array Nat) (n lo hi : Nat) : Nat :=
  if lo < hi then
    let mid := (lo + hi) / 2
    if xs.getD mid 0 ≤ n then rank xs n (mid + 1) hi else rank xs n lo mid
  else
    lo
termination_by hi - lo

def contains (s : CodePointSet) (c : Char) : Bool :=
  rank s.boundaries c.toNat 0 s.boundaries.size % 2 == 1

end CodePointSet

end Text
end Refscript
