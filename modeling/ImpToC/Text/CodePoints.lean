/-!
# Sets of characters

Sets that are too large to list, as ranges of code points.
-/

namespace ImpToC.Text

/-- Closed ranges of code points, ascending and apart. -/
structure CodePoints where
  ranges : List (Nat × Nat)

/-- A character lies in one of the ranges. -/
def CodePoints.contains (s : CodePoints) (c : Char) : Bool :=
  s.ranges.any fun r => r.1 ≤ c.toNat && c.toNat ≤ r.2

end ImpToC.Text
