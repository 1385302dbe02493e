import SlotSymmetry.Perm.Basic

/-! # Orbits

    The orbit of a seed point under an ordered list of generators, found
    breadth first: the points already found are swept in the order of their
    discovery, and from each of them all generators are tried in their order.
    A mark is set for every point that is found, and the point remembers the
    generator by which it was first reached. -/

namespace SlotSymmetry

/-- How a point of an orbit was first reached. -/
inductive Link where
  /-- It is the seed. -/
  | root
  /-- By the generator with this index, from a point found earlier. -/
  | step (generator : Nat)
  deriving DecidableEq, Repr

/-- The orbit of a point: its points in the order of discovery and, for every point of
    `0..degree`, whether it belongs to the orbit and its link if it does. -/
structure Orbit where
  seed : Nat
  points : Array Nat
  members : Array Bool
  links : Array (Option Link)
  deriving DecidableEq, Repr

namespace Orbit

/-- The number of points acted on. -/
def degree (o : Orbit) : Nat := o.members.size

/-- How the point was first reached; nothing for a point outside the orbit. -/
def link (o : Orbit) (point : Nat) : Option Link := o.links.getD point none

/-- The point belongs to the orbit. -/
def contains (o : Orbit) (point : Nat) : Bool := o.members.getD point false

/-- The number of points in the orbit. -/
def length (o : Orbit) : Nat := o.points.size

/-- The orbit as far as it is known before the first sweep: the seed alone. -/
def start (degree seed : Nat) : Orbit :=
  ⟨seed, #[seed], (Array.replicate degree false).setIfInBounds seed true,
    (Array.replicate degree none).setIfInBounds seed (some .root)⟩

/-- Adds a point of `0..degree` that is not there yet. -/
def reach (o : Orbit) (point generator : Nat) : Orbit :=
  if o.members[point]? = some false then
    ⟨o.seed, o.points.push point, o.members.setIfInBounds point true,
      o.links.setIfInBounds point (some (.step generator))⟩
  else o

/-- Tries all generators on one point. -/
def expand (gens : List (SignedPerm × Nat)) (o : Orbit) (point : Nat) : Orbit :=
  gens.foldl (fun o (g, i) => o.reach (g.act point) i) o

/-- Tries all generators on the point found at this place, if there is one. -/
def sweep (gens : List (SignedPerm × Nat)) (o : Orbit) (place : Nat) : Orbit :=
  match o.points[place]? with
  | none => o
  | some point => expand gens o point

/-- The orbit of a point of `0..degree`.  There are at most `degree` points to sweep, as
    none of them is found twice. -/
def grow (degree : Nat) (gens : List SignedPerm) (seed : Nat) : Orbit :=
  (List.range degree).foldl (sweep gens.zipIdx) (start degree seed)

/-- Every generator sends every point of the orbit into `0..degree`. -/
def isClosed (o : Orbit) (gens : List SignedPerm) : Bool :=
  o.points.all fun point => gens.all fun g => g.act point < o.degree

/-- The orbit of a seed under generators of this degree. -/
def ofSeed (degree : Nat) (gens : List SignedPerm) (seed : Nat) : Except PermError Orbit :=
  if degree ≤ seed then .error (.outOfRange seed degree)
  else
    match gens.find? (·.degree != degree) with
    | some g => .error (.degreeMismatch degree g.degree)
    | none =>
        let orbit := grow degree gens seed
        if orbit.isClosed gens then .ok orbit else .error .missingEntry

/-! ## Display -/

/-- `*` for the seed, the index of the generator for a point reached, `-` for the rest. -/
def displayLink : Option Link → String
  | none => "-"
  | some .root => "*"
  | some (.step generator) => toString generator

/-- The links of all points of `0..degree`. -/
def displayLinks (o : Orbit) : String :=
  "[" ++ ", ".intercalate (o.links.toList.map displayLink) ++ "]"

end Orbit

end SlotSymmetry
