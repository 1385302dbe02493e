import SlotSymmetry.Chain.Build
import SlotSymmetry.Orbit.Partition
import SlotSymmetry.Perm.Cycles

/-! # Groups of signed permutations

    A group is given by an ordered list of generators and holds a complete
    stabilizer chain.  Equality of two groups compares lists and chains; whether
    they have the same elements is a matter of `isSubgroupOf` both ways. -/

namespace SlotSymmetry

/-- A group of signed permutations of `0..degree`. -/
structure SignedGroup where
  degree : Nat
  generators : List SignedPerm
  chain : Chain
  deriving DecidableEq, Repr

namespace SignedGroup

/-! ## Construction -/

/-- The group on `0..degree` with these generators. -/
def generate (degree : Nat) (gens : List SignedPerm) : Except GroupError SignedGroup := do
  return ⟨degree, gens, ← Chain.build degree gens⟩

/-- The group with these generators, on the points of the first of them. -/
def ofGenerators (gens : List SignedPerm) : Except GroupError SignedGroup :=
  match gens with
  | [] => .error .emptyGenerators
  | g :: _ => generate g.degree gens

/-- The group that holds only the symmetric identity. -/
def trivial (degree : Nat) : SignedGroup := ⟨degree, [], .trivial degree⟩

/-- The permutation that sends every point to the next one and the last one to the first. -/
def rotation (degree : Nat) (flips : Bool) : SignedPerm :=
  .ofImage ((Array.range degree).map fun i => (i + 1) % degree) flips

/-- The permutation that exchanges the first two points. -/
def firstSwap (degree : Nat) (flips : Bool) : SignedPerm :=
  .ofImage ((Array.range degree).swapIfInBounds 0 1) flips

/-- Generators of all permutations.  With signs, each of them has the sign of its parity. -/
def fullGenerators (degree : Nat) (signed : Bool) : List SignedPerm :=
  if degree = 2 then [firstSwap degree signed]
  else
    let odd := (rotation degree false).parity == -1
    [firstSwap degree signed, rotation degree (signed && odd)]

/-- All permutations of `0..degree`, with or without signs. -/
def full (degree : Nat) (signed : Bool) : Except GroupError SignedGroup :=
  if degree < 2 then .ok (trivial degree) else generate degree (fullGenerators degree signed)

/-- All permutations of `0..degree`, each with a symmetric sign. -/
def symmetric (degree : Nat) : Except GroupError SignedGroup := full degree false

/-- All permutations of `0..degree`, the odd ones antisymmetric. -/
def antisymmetric (degree : Nat) : Except GroupError SignedGroup := full degree true

/-- The rotations of `0..degree`. -/
def cyclic (degree : Nat) : Except GroupError SignedGroup :=
  if degree < 2 then .ok (trivial degree) else generate degree [rotation degree false]

/-! ## Queries -/

/-- The base points of the chain. -/
def base (g : SignedGroup) : List Nat := g.chain.base

/-- The generators of all levels of the chain, each once. -/
def strongGenerators (g : SignedGroup) : List SignedPerm := g.chain.strongGenerators

/-- The number of elements. -/
def order (g : SignedGroup) : Nat := g.chain.order

/-- The identity is the only element. -/
def isTrivial (g : SignedGroup) : Bool := g.chain.isTrivial

/-- Membership, sign included. -/
def contains (g : SignedGroup) (p : SignedPerm) : Bool := g.chain.contains p

/-- Every element of `a`, signs included, lies in `b`. -/
def isSubgroupOf (a b : SignedGroup) : Bool :=
  a.degree == b.degree && a.generators.all b.contains

/-- The orbit of a point under the generators. -/
def orbit (g : SignedGroup) (point : Nat) : Except PermError Orbit :=
  Orbit.ofSeed g.degree g.generators point

/-- The partition of `0..degree` into orbits. -/
def orbits (g : SignedGroup) : List (List Nat) := Orbit.partition g.degree g.generators

/-- Any point can be sent to any other. -/
def isTransitive (g : SignedGroup) : Bool :=
  g.degree ≤ 1 || (Orbit.grow g.degree g.generators 0).length == g.degree

/-- Checks the chain, and that every generator belongs to it. -/
def verify (g : SignedGroup) : Bool := g.chain.verify && g.generators.all g.chain.contains

/-! ## Stabilizers and joins -/

/-- The elements that fix each of the points: the part of a chain below them, with its
    strong generators. -/
def stabilizer (g : SignedGroup) (points : List Nat) : Except GroupError SignedGroup := do
  let chain ← Chain.buildWithBase g.degree g.strongGenerators points
  let tail := chain.tail (chain.base.takeWhile (points.contains ·)).length
  return ⟨g.degree, tail.strongGenerators, tail⟩

/-- The operands of an operation on two groups act on the same points. -/
def sameDegree (a b : SignedGroup) : Except GroupError Unit :=
  if a.degree = b.degree then .ok () else .error (.perm (.degreeMismatch a.degree b.degree))

/-- The group generated by the elements of both. -/
def union (a b : SignedGroup) : Except GroupError SignedGroup := do
  sameDegree a b
  generate a.degree (a.generators ++ b.generators)

end SignedGroup

end SlotSymmetry
