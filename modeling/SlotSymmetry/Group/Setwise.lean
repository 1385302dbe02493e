import SlotSymmetry.Group.Basic
import SlotSymmetry.Group.LevelSearch

/-! # Stabilizers of sets

    The elements that map a set of points onto itself.  The chain is rebuilt
    with the points of the set leading its base; only the levels of these points
    are searched. -/

namespace SlotSymmetry

namespace SignedGroup

/-- The points of a list in ascending order, each once. -/
def setOfPoints (points : List Nat) : List Nat := (points.mergeSort (· ≤ ·)).eraseDups

/-- The images of the base points from `level` on lie in the set, as far as these base
    points belong to it. -/
def staysInside (set : List Nat) (level : Nat) (images : List Nat) : Bool :=
  images.zipIdx.all fun (image, offset) => set.length ≤ level + offset || set.contains image

/-- Looks for generators of the elements that map the set onto itself, in a chain with the
    set at the start of its base.  Those that fix all of its points are known. -/
def findStable (chain : Chain) (set : List Nat) (budget : Budget) : Chain.Finding :=
  chain.levelSearch ⟨staysInside set, fun _ => true⟩ set.length
    (chain.tail set.length).strongGenerators (.start budget)

/-- The elements that map the points onto themselves as a set.  An incomplete outcome holds
    a subgroup of the stabilizer. -/
def setwiseStabilizer (g : SignedGroup) (points : List Nat) (budget : Budget) :
    Except GroupError (Outcome SignedGroup) := do
  let set := setOfPoints points
  match set.find? (g.degree ≤ ·) with
  | some point => .error (.perm (.outOfRange point g.degree))
  | none =>
      let chain ← Chain.buildWithBase g.degree g.strongGenerators set
      let found := findStable chain set budget
      return found.meter.outcome (← generate g.degree found.known)

end SignedGroup

end SlotSymmetry
