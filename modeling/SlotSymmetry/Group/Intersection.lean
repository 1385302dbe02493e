import SlotSymmetry.Group.Basic
import SlotSymmetry.Group.LevelSearch

/-! # Intersections

    The elements common to two groups.  The chain of the second group is rebuilt
    on the base of the first, so that images of base points can be checked
    against it level by level. -/

namespace SlotSymmetry

namespace Chain

/-- Some element, after `above`, sends the base points of these levels to the images. -/
def followsFrom : List Level → SignedPerm → List Nat → Bool
  | level :: below, above, image :: images =>
      let point := above.actInv image
      level.orbit.contains point && followsFrom below (above * level.carrier point) images
  | _, _, _ => true

/-- Some element fixes the base points before level `first` and sends the ones from there on
    to the images. -/
def follows (c : Chain) (first : Nat) (images : List Nat) : Bool :=
  followsFrom (c.levels.drop first) (.id c.degree) images

end Chain

namespace SignedGroup

/-- Looks for generators of the elements of a group that belong to a chain whose base starts
    with the base of the group. -/
def findCommon (a : SignedGroup) (chain : Chain) (budget : Budget) : Chain.Finding :=
  a.chain.levelSearch ⟨chain.follows, chain.contains⟩ a.base.length [] (.start budget)

/-- The elements common to both groups, signs included.  An incomplete outcome holds a
    subgroup of the intersection. -/
def intersection (a b : SignedGroup) (budget : Budget) :
    Except GroupError (Outcome SignedGroup) := do
  sameDegree a b
  if b.isSubgroupOf a then return .complete b
  if a.isSubgroupOf b then return .complete a
  let chain ← Chain.buildWithBase a.degree b.strongGenerators a.base
  let found := findCommon a chain budget
  return found.meter.outcome (← generate a.degree found.known)

end SignedGroup

end SlotSymmetry
