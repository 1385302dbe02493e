/-! # What can be wrong with a permutation

    The ways in which a request about permutations of `0..n` fails, and the
    sentence that reports each of them. -/

namespace SlotSymmetry

/-- Why a request about a permutation has no answer. -/
inductive PermError where
  /-- Two operands act on different numbers of points. -/
  | degreeMismatch (left right : Nat)
  /-- The point is not one of `0..degree`. -/
  | outOfRange (point degree : Nat)
  /-- The images do not run through `0..degree`, each once. -/
  | notBijective (degree : Nat)
  /-- A point occurs twice in a list of cycles that should be disjoint. -/
  | cyclesOverlap
  /-- A position is looked up past the end of a table or of the data. -/
  | missingEntry
  deriving DecidableEq, Repr

/-- The sentence that reports the failure. -/
def PermError.message : PermError → String
  | .degreeMismatch left right => s!"Degree mismatch: {left} vs {right}"
  | .outOfRange point degree => s!"Point {point} out of range for degree {degree}"
  | .notBijective degree => s!"Map is not a bijection of 0..{degree}"
  | .cyclesOverlap => "Cycles are not disjoint"
  | .missingEntry => "No entry at this position"

end SlotSymmetry
