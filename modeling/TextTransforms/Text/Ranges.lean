/-!
# Ranges of characters

A property of characters as closed ranges of code points, ascending and apart.
-/

namespace TextTransforms

abbrev CharRanges := List (Nat × Nat)

/-- Whether `c` lies in one of the ranges; the search stops at the first range above it. -/
def CharRanges.contains (c : Char) : CharRanges → Bool
  | [] => false
  | (low, high) :: rest => low ≤ c.toNat && (c.toNat ≤ high || contains c rest)

end TextTransforms
