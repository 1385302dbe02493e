import SlotSymmetry.Orbit.Schreier

/-! # Stabilizer chains

    A chain describes a group by a base `b₀, b₁, …`, points that only the
    identity fixes all at once.  Level `i` holds generators of the elements that
    fix the base points before `bᵢ`, and the orbit of `bᵢ` under them.  Every
    element is then a product of one transversal element per level, in one way,
    and the order of the group is the product of the lengths of the orbits. -/

namespace SlotSymmetry

/-- One level of a chain: generators that fix the earlier base points, and the orbit of
    the base point of this level. -/
structure Level where
  generators : List SignedPerm
  orbit : Orbit
  deriving DecidableEq, Repr

/-- The levels of a group on `0..degree`, the whole group first. -/
structure Chain where
  degree : Nat
  levels : List Level
  deriving DecidableEq, Repr

namespace Level

/-- The level with these generators at this base point. -/
def ofGenerators (degree : Nat) (gens : List SignedPerm) (basePoint : Nat) : Level :=
  ⟨gens, .grow degree gens basePoint⟩

/-- The point whose orbit the level holds. -/
def basePoint (level : Level) : Nat := level.orbit.seed

/-- The element of the transversal that takes the base point to this point. -/
def transversal (level : Level) (point : Nat) : Option SignedPerm :=
  level.orbit.transversal level.generators point

/-- The product of the generators that take the base point to this point of the orbit. -/
def carrier (level : Level) (point : Nat) : SignedPerm :=
  level.orbit.carrier level.generators point

/-- The level with one more generator, if it is a new one. -/
def adjoin (degree : Nat) (h : SignedPerm) (level : Level) : Level :=
  if h ∈ level.generators then level
  else .ofGenerators degree (level.generators ++ [h]) level.basePoint

/-- Takes the base point back to itself if its image belongs to the orbit. -/
def strip (level : Level) (h : SignedPerm) : Option SignedPerm :=
  let image := h.act level.basePoint
  if level.orbit.contains image then
    some (level.orbit.unwind level.generators image h)
  else none

end Level

/-- Strips off one transversal element per level, from the first level on.  Returns what is
    left and the number of levels that were passed.  The element has to be a permutation of
    the points of the levels. -/
def sift : List Level → SignedPerm → SignedPerm × Nat
  | [], h => (h, 0)
  | level :: below, h =>
      match level.strip h with
      | none => (h, 0)
      | some h =>
          let (residue, passed) := sift below h
          (residue, passed + 1)

/-- Sifting passes all levels and leaves the symmetric identity. -/
def siftsToIdentity (levels : List Level) (h : SignedPerm) : Bool :=
  let (residue, passed) := sift levels h
  passed == levels.length && residue.isIdentity && !residue.flips

namespace Chain

/-- The chain of the group that holds only the symmetric identity. -/
def trivial (degree : Nat) : Chain := ⟨degree, []⟩

/-- The base points, the first level first. -/
def base (c : Chain) : List Nat := c.levels.map (·.basePoint)

/-- The generators of all levels, each once. -/
def strongGenerators (c : Chain) : List SignedPerm :=
  SignedPerm.distinct (c.levels.flatMap (·.generators))

/-- The product of the lengths of the orbits. -/
def order (c : Chain) : Nat := (c.levels.map (·.orbit.length)).foldl (· * ·) 1

/-- Every orbit is a single point. -/
def isTrivial (c : Chain) : Bool := c.levels.all (·.orbit.length == 1)

/-- The chain of the elements that fix the first `depth` base points. -/
def tail (c : Chain) (depth : Nat) : Chain := ⟨c.degree, c.levels.drop depth⟩

/-- Sifts a permutation of the points of the chain through all levels. -/
def sift (c : Chain) (p : SignedPerm) : SignedPerm × Nat := SlotSymmetry.sift c.levels p

/-- Membership, sign included. -/
def contains (c : Chain) (p : SignedPerm) : Bool :=
  p.degree == c.degree && siftsToIdentity c.levels p

/-! ## Checking a chain -/

/-- One step of the check: the generators fix the earlier base points and belong to their
    own level, and everything that fixes the base point belongs to the levels below. -/
def verifyLevel (earlier : List Nat) (level : Level) (below : List Level) : Bool :=
  level.generators.all (fun g => earlier.all fun b => g.act b == b)
    && level.generators.all (siftsToIdentity (level :: below))
    && match level.orbit.schreierGenerators level.generators with
      | .ok loops => loops.all (siftsToIdentity below)
      | .error _ => false

/-- Checks the levels in turn. -/
def verifyLevels : List Nat → List Level → Bool
  | _, [] => true
  | earlier, level :: below =>
      verifyLevel earlier level below && verifyLevels (earlier ++ [level.basePoint]) below

/-- Checks the conditions under which sifting decides membership. -/
def verify (c : Chain) : Bool := verifyLevels [] c.levels

end Chain

end SlotSymmetry
