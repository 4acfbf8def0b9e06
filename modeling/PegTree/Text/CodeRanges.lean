/-!
# Ranges of code points

A set of characters is kept as a list of inclusive ranges in ascending order.  Membership walks the
list and stops as soon as a range lies above the character, so the common small code points are
decided after a step or two.
-/

namespace PegTree

/-- Inclusive ranges of code points, in ascending order. -/
abbrev CodeRanges :=
  List (Nat × Nat)

/-- Whether one of the ranges holds the code point. -/
def CodeRanges.holds (n : Nat) : CodeRanges → Bool
  | [] => false
  | (low, high) :: more => if n < low then false else n ≤ high || CodeRanges.holds n more

end PegTree
