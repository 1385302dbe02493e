import SlotSymmetry.Orbit.Schreier

/-! # Orbits under generators with unchecked tables

    Walking back from a point of an orbit looks up preimages, and multiplying the
    generators on the way looks up all of their entries.  With tables read from
    a record, either may run past the end.  The functions here refuse such
    generators and are the plain ones on all others. -/

namespace SlotSymmetry

namespace Orbit

/-- Every preimage that is looked up on the way back is there. -/
def canReturn (o : Orbit) (gens : List SignedPerm) : Nat → Nat → Bool
  | 0, _ => true
  | fuel + 1, point =>
      match o.link point with
      | some (.step i) =>
          match gens[i]? with
          | some g => point < g.preimage.size && o.canReturn gens fuel (g.actInv point)
          | none => false
      | _ => true

/-- The generators on the way back can be multiplied. -/
def canCarry (o : Orbit) (gens : List SignedPerm) (point : Nat) : Bool :=
  o.canReturn gens o.length point && (o.wayBack gens point).all (·.2.imageInRange)

/-- After `h`, the generators on the way back can be undone. -/
def canUnwind (o : Orbit) (gens : List SignedPerm) : Nat → Nat → SignedPerm → Bool
  | 0, _, _ => true
  | fuel + 1, point, h =>
      match o.link point with
      | some (.step i) =>
          match gens[i]? with
          | some g =>
              point < g.preimage.size
                && h.image.all (fun x => x < g.preimage.size && g.actInv x < h.degree)
                && o.canUnwind gens fuel (g.actInv point) (g.invMul h)
          | none => false
      | _ => true

/-- From the seed to `q` by `t`, one can go on by `g` and back to the seed. -/
def canLoop (o : Orbit) (gens : List SignedPerm) (q : Nat) (t g : SignedPerm) : Bool :=
  (g * t).imageInRange && o.canUnwind gens o.length (g.act q) (g * t)

/-- What is wrong with the first faulty loop through a point that is left to be looked at. -/
def firstFault (o : Orbit) (gens : List SignedPerm) : List Nat → Option GroupError
  | [] => none
  | q :: points =>
      if o.canCarry gens q then
        let t := o.carrier gens q
        let fault := gens.findSome? fun g =>
          if !o.canLoop gens q t g then some (GroupError.perm .missingEntry)
          else if (o.loop gens q t g).isInconsistent then some .inconsistentGenerators
          else none
        fault <|> o.firstFault gens points
      else some (.perm .missingEntry)

/-- The path to a point, with generators whose tables are unchecked. -/
def storedPath (o : Orbit) (gens : List SignedPerm) (point : Nat) :
    Except PermError (Option (List Nat)) :=
  if o.canReturn gens o.length point then .ok (o.path gens point) else .error .missingEntry

/-- The element of the transversal that takes the seed to a point, with generators whose
    tables are unchecked. -/
def storedTransversal (o : Orbit) (gens : List SignedPerm) (point : Nat) :
    Except PermError (Option SignedPerm) :=
  if o.canCarry gens point then .ok (o.transversal gens point) else .error .missingEntry

/-- The Schreier generators, from generators whose tables are unchecked. -/
def storedSchreierGenerators (o : Orbit) (gens : List SignedPerm) :
    Except GroupError (List SignedPerm) :=
  if gens.all (·.inRange) then o.schreierGenerators gens
  else
    match o.firstFault gens o.points.toList with
    | some fault => .error fault
    | none => o.schreierGenerators gens

/-- Generators of the stabilizer of a point, from generators whose tables are unchecked. -/
def storedStabilizerGenerators (degree : Nat) (gens : List SignedPerm) (point : Nat) :
    Except GroupError (List SignedPerm) := do
  let orbit ← GroupError.lift (ofSeed degree gens point)
  orbit.storedSchreierGenerators gens

end Orbit

end SlotSymmetry
