import SlotSymmetry.Orbit.Basic

/-! # The partition into orbits

    The orbits of the points of `0..degree`, each listed in the order of
    discovery from its smallest point. -/

namespace SlotSymmetry

namespace Orbit

/-- The orbits of those of the given points that are not marked yet. -/
def partitionFrom (degree : Nat) (gens : List SignedPerm) :
    List Nat → Array Bool → List (List Nat)
  | [], _ => []
  | point :: rest, marked =>
      if marked.getD point true then partitionFrom degree gens rest marked
      else
        let orbit := (grow degree gens point).points
        orbit.toList :: partitionFrom degree gens rest
          (orbit.foldl (fun marked q => marked.setIfInBounds q true) marked)

/-- All orbits, in the order of their smallest points. -/
def partition (degree : Nat) (gens : List SignedPerm) : List (List Nat) :=
  partitionFrom degree gens (List.range degree) (Array.replicate degree false)

/-- All orbits under generators of this degree. -/
def partition? (degree : Nat) (gens : List SignedPerm) : Except PermError (List (List Nat)) :=
  match gens.find? (·.degree != degree) with
  | some g => .error (.degreeMismatch degree g.degree)
  | none =>
      if gens.all (·.imageInRange) then .ok (partition degree gens) else .error .missingEntry

end Orbit

end SlotSymmetry
