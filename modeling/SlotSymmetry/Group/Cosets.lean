import SlotSymmetry.Group.Basic
import SlotSymmetry.Search.Walk
import Std.Data.HashSet.Lemmas

/-! # Cosets

    One element of every coset of a subgroup, found by searching the group in
    the order of base images.  A coset is recognised by a canonical element, and
    the search stops when there is one representative for each. -/

namespace SlotSymmetry

namespace Chain

/-- The point with the smallest image; of equal ones the first. -/
def pointOfLeastImage (x : SignedPerm) : Nat → List Nat → Nat
  | best, [] => best
  | best, point :: points =>
      pointOfLeastImage x (if x.act point < x.act best then point else best) points

/-- Moves an element within its left coset so that the base points of these levels, one
    after another, get the smallest images. -/
def canonicalFrom : List Level → SignedPerm → SignedPerm
  | [], x => x
  | level :: below, x =>
      let best := pointOfLeastImage x level.basePoint level.orbit.points.toList
      canonicalFrom below (x * level.carrier best)

/-- The element of the left coset `x H` with the smallest images of the base points of `H`,
    taken in base order.  `H` is the group of the chain. -/
def canonicalLeftCosetElement (c : Chain) (x : SignedPerm) : SignedPerm :=
  canonicalFrom c.levels x

end Chain

namespace SignedGroup

/-- For every point, the smallest point of its orbit. -/
def orbitMinima (g : SignedGroup) : Array Nat :=
  g.orbits.foldl
    (fun table orbit =>
      let least := orbit.min?.getD 0
      orbit.foldl (fun table point => table.setIfInBounds point least) table)
    (Array.replicate g.degree 0)

/-- The representatives chosen so far, and the canonical elements of their cosets. -/
structure Representatives where
  chosen : Array SignedPerm
  canonical : Std.HashSet SignedPerm

/-- Chooses an element if no other of its right coset is chosen.  Two elements have the same
    right coset if their inverses have the same left one. -/
def Representatives.offer (h : Chain) (r : Representatives) (g : SignedPerm) :
    Representatives :=
  let c := h.canonicalLeftCosetElement g.inverse
  if r.canonical.contains c then r else ⟨r.chosen.push g, r.canonical.insert c⟩

/-- The first base image is the smallest point of its orbit.  Every right coset has an
    element for which it is. -/
def startsAtMinimum (minima : Array Nat) (images : List Nat) : Bool :=
  images.head?.all fun image => minima.getD image 0 == image

/-- The second group has the degree of the first and lies in it. -/
def requireSubgroup (g h : SignedGroup) : Except GroupError Unit := do
  sameDegree g h
  if h.isSubgroupOf g then .ok () else .error .notASubgroup

/-- Searches the group until every right coset of `H` is represented.  Returns the
    representatives and where the search stopped. -/
def representRightCosets (g h : SignedGroup) (budget : Budget) : Representatives × Search Unit :=
  (g.chain.search budget ()).foldWhile
    (Tests.plain (startsAtMinimum h.orbitMinima) fun _ => true)
    (·.chosen.size < g.order / h.order) (Representatives.offer h.chain) ⟨#[], ∅⟩

/-- One element of every right coset `H x` of `H` in `G`, in the order of base images. -/
def rightCosets (g h : SignedGroup) (budget : Budget) :
    Except GroupError (Outcome (List SignedPerm)) := do
  requireSubgroup g h
  let (found, last) := representRightCosets g h budget
  return last.meter.outcome found.chosen.toList

/-- One element of every left coset `x H` of `H` in `G`: the inverses of representatives of
    the right cosets. -/
def leftCosets (g h : SignedGroup) (budget : Budget) :
    Except GroupError (Outcome (List SignedPerm)) := do
  return (← rightCosets g h budget).map fun found => found.map (·.inverse)

end SignedGroup

end SlotSymmetry
