import SlotSymmetry.Orbit.Transversal
import SlotSymmetry.Perm.Compare
import SlotSymmetry.Group.Error

/-! # Schreier generators

    For a point `q` of an orbit and a generator `g`, going from the seed to `q`,
    on by `g`, and back to the seed fixes the seed.  These elements generate the
    whole stabilizer of the seed. -/

namespace SlotSymmetry

namespace Orbit

/-- From the seed to `q` by `t`, on by `g`, and back to the seed. -/
def loop (o : Orbit) (gens : List SignedPerm) (q : Nat) (t g : SignedPerm) : SignedPerm :=
  o.unwind gens (g.act q) (g * t)

/-- The loops through one point of the orbit, in the order of the generators. -/
def loopsThrough (o : Orbit) (gens : List SignedPerm) (q : Nat) : List SignedPerm :=
  let t := o.carrier gens q
  gens.map (o.loop gens q t)

/-- The loops of all points and generators, points first. -/
def loops (o : Orbit) (gens : List SignedPerm) : List SignedPerm :=
  o.points.toList.flatMap (o.loopsThrough gens)

/-- The loops that move a point, each once.  Generators for which a loop is the
    antisymmetric identity are inconsistent. -/
def schreierGenerators (o : Orbit) (gens : List SignedPerm) :
    Except GroupError (List SignedPerm) :=
  let loops := o.loops gens
  if loops.any (·.isInconsistent) then .error .inconsistentGenerators
  else .ok (SignedPerm.distinct (loops.filter (!·.isIdentity)))

/-- Generators of the stabilizer of a point. -/
def stabilizerGenerators (degree : Nat) (gens : List SignedPerm) (point : Nat) :
    Except GroupError (List SignedPerm) := do
  let orbit ← GroupError.lift (ofSeed degree gens point)
  orbit.schreierGenerators gens

end Orbit

end SlotSymmetry
