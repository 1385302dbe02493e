import SlotSymmetry.Orbit.Basic

/-! # Transversals

    Following the links of an orbit backwards leads from any of its points to
    the seed.  The product of the generators met on the way is the element of
    the transversal that takes the seed to the point.

    The generators have to be the list from which the orbit was grown. -/

namespace SlotSymmetry

namespace Orbit

/-- The generators met on the way from `point` back to the seed, each with its index.  At
    most `fuel` links are followed; the length of the orbit is enough, as every link leads
    to a point found earlier. -/
def backward (o : Orbit) (gens : List SignedPerm) : Nat → Nat → List (Nat × SignedPerm)
  | 0, _ => []
  | fuel + 1, point =>
      match o.link point with
      | some (.step i) =>
          match gens[i]? with
          | some g => (i, g) :: o.backward gens fuel (g.actInv point)
          | none => []
      | _ => []

/-- The generators on the way back to the seed, the one that reached the point first. -/
def wayBack (o : Orbit) (gens : List SignedPerm) (point : Nat) : List (Nat × SignedPerm) :=
  o.backward gens o.length point

/-- The indices of the generators that lead from the seed to a point of the orbit, the
    first step first. -/
def path (o : Orbit) (gens : List SignedPerm) (point : Nat) : Option (List Nat) :=
  if o.contains point then some ((o.wayBack gens point).map Prod.fst).reverse else none

/-- The product of the generators that lead from the seed to a point. -/
def carrier (o : Orbit) (gens : List SignedPerm) (point : Nat) : SignedPerm :=
  (o.wayBack gens point).foldl (fun t (_, g) => t * g) (.id o.degree)

/-- The element of the transversal that takes the seed to a point of the orbit. -/
def transversal (o : Orbit) (gens : List SignedPerm) (point : Nat) : Option SignedPerm :=
  if o.contains point then some (o.carrier gens point) else none

/-- First `h`, then back from `point` to the seed, one generator after another. -/
def unwind (o : Orbit) (gens : List SignedPerm) (point : Nat) (h : SignedPerm) : SignedPerm :=
  (o.wayBack gens point).foldl (fun h (_, g) => g.invMul h) h

end Orbit

end SlotSymmetry
