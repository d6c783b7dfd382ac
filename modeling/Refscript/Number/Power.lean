/-!
# Refscript.Number.Power

Powers of two and of ten.
-/

namespace Refscript

/-- `2 ^ n`. -/
def pow2 (n : Nat) : Nat := Nat.pow 2 n

/-- `10 ^ n`. -/
def pow10 (n : Nat) : Nat := Nat.pow 10 n

end Refscript
