import Refscript.Text.CodePointSet

/-!
# Refscript.Text.Blank

The Unicode property `White_Space` and removal of blanks from both ends of a text.
-/

namespace Refscript
namespace Text

/-- The Unicode property `White_Space`. -/
def blank : CodePointSet := .ofGaps #[
  9,5,18,1,100,1,26,1,5599,1,2431,11,29,2,5,1,47,1,4000,1]

def isBlank (c : Char) : Bool :=
  blank.contains c

/-- The text without the blanks at its start and its end. -/
def trim (cs : List Char) : List Char :=
  ((cs.dropWhile isBlank).reverse.dropWhile isBlank).reverse

end Text
end Refscript
