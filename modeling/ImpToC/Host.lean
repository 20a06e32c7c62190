/-!
# Hosts

What a compiler runs on. A host may limit how many calls can be open inside one another, and how
many digits it converts to a number at once.
-/

namespace ImpToC

/-- The limits of a host. The calls are those that a parser may have open, not counting the ones
that it takes to report that they do not suffice. A limit on digits is never small. -/
class Host where
  calls : Option Nat
  digits : Option Nat
  le_digits : ∀ n ∈ digits, 640 ≤ n

/-- A host without limits. -/
@[reducible] def Host.unlimited : Host := ⟨none, none, nofun⟩

end ImpToC
