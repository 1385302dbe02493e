import SlotSymmetry.Search.Walk

/-! # Subgroups found level by level

    A subgroup `K` of a group with a chain is put together from the deepest
    level up.  At level `l` the part found so far fixes the base points before
    it.  For every point of the orbit of this level that `K` does not reach yet,
    one search looks for an element of `K` that fixes the earlier base points
    and sends the base point there.  All searches share one meter. -/

namespace SlotSymmetry

namespace Chain

/-- The generators of the subgroup found so far, and the nodes counted. -/
structure Finding where
  known : List SignedPerm
  meter : Meter

/-- What defines the subgroup: a test on the images of the base points from a level on, and
    a test on elements. -/
structure Wanted where
  keep : Nat → List Nat → Bool
  accept : SignedPerm → Bool

/-- The images start with this point. -/
def startsAt (target : Nat) (images : List Nat) : Bool := images.head?.all (· == target)

/-- Looks for an element that sends the base point of level `depth` to the target.  Does
    nothing once the budget is spent. -/
def seek (c : Chain) (w : Wanted) (depth : Nat) (f : Finding) (target : Nat) : Finding :=
  if f.meter.exhausted then f
  else
    let tests := Tests.plain (fun images => startsAt target images && w.keep depth images)
      w.accept
    let (found, last) :=
      (Search.start c.degree (c.levels.drop depth) f.meter ()).next? tests
    ⟨f.known ++ found.toList, last.meter⟩

/-- Looks for elements for those of the targets that the subgroup does not reach. -/
def seekAll (c : Chain) (w : Wanted) (depth basePoint : Nat) :
    List Nat → Orbit → Finding → Finding
  | [], _, f => f
  | target :: targets, reached, f =>
      if reached.contains target then c.seekAll w depth basePoint targets reached f
      else
        let next := c.seek w depth f target
        let reached :=
          if next.known.length = f.known.length then reached
          else .grow c.degree next.known basePoint
        c.seekAll w depth basePoint targets reached next

/-- Completes the subgroup at one level. -/
def searchLevel (c : Chain) (w : Wanted) (f : Finding) (depth : Nat) : Finding :=
  match c.levels[depth]? with
  | none => f
  | some level =>
      c.seekAll w depth level.basePoint (level.orbit.points.toList.mergeSort (· ≤ ·))
        (.grow c.degree f.known level.basePoint) f

/-- Generators of the subgroup, from generators of its elements that fix the first `upTo`
    base points. -/
def levelSearch (c : Chain) (w : Wanted) (upTo : Nat) (known : List SignedPerm)
    (meter : Meter) : Finding :=
  (List.range upTo).reverse.foldl (c.searchLevel w) ⟨known, meter⟩

end Chain

end SlotSymmetry
