import SlotSymmetry.Perm.Cycles

/-! # The written form of a permutation

    The sign, the nontrivial cycles and the images: `-(0 2 1) [2 0 1 3]`. -/

namespace SlotSymmetry

namespace SignedPerm

/-- The points with one blank between two of them. -/
def spaced (points : List Nat) : String := " ".intercalate (points.map toString)

/-- The cycles that move a point, each in round brackets; `()` if there is none. -/
def displayCycles (p : SignedPerm) : String :=
  match p.cycles.filter (1 < ·.length) with
  | [] => "()"
  | moving => " ".intercalate (moving.map fun cycle => "(" ++ spaced cycle ++ ")")

/-- The sign if it flips, the cycles, and the images in square brackets. -/
def display (p : SignedPerm) : String :=
  (if p.flips then "-" else "") ++ p.displayCycles ++ " [" ++ spaced p.image.toList ++ "]"

end SignedPerm

end SlotSymmetry
