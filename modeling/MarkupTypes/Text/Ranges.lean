/-!
# Ranges of code points

A class of characters is written as the inclusive ranges of its code points.
-/

namespace MarkupTypes.Text

/-- Inclusive ranges of code points, ascending. -/
abbrev Ranges := List (Nat × Nat)

/-- A code point is in one of the ranges. -/
def Ranges.has (ranges : Ranges) (code : Nat) : Bool :=
  ranges.any fun (first, last) => first ≤ code && code ≤ last

end MarkupTypes.Text
