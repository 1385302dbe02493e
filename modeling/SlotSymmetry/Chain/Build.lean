import SlotSymmetry.Chain.Basic
import SlotSymmetry.Orbit.Stored

/-! # Building a chain

    The Schreier-Sims construction.  It starts from a base on which every given
    generator moves a point, and completes the levels from the last one up: each
    Schreier generator of a level has to sift to the identity through the levels
    below.  What is left of one that does not is a new generator for all levels
    that it passed and for the one where it stopped, which is a new level if it
    passed all of them.  The work goes on at the deepest level that changed.

    A residue that fixes every point and flips the sign shows that no group has
    these generators. -/

namespace SlotSymmetry

namespace Chain

/-! ## The base to start from -/

/-- The points of a wanted base, each once, if all of them are points of `0..degree`. -/
def startingBase (degree : Nat) (wanted : List Nat) : Except PermError (List Nat) :=
  match wanted.find? (degree ≤ ·) with
  | some point => .error (.outOfRange point degree)
  | none => .ok wanted.eraseDups

/-- Checks one generator: it acts on `0..degree` and is not the antisymmetric identity. -/
def admissible (degree : Nat) (g : SignedPerm) : Except GroupError Unit :=
  if g.degree ≠ degree then .error (.perm (.degreeMismatch degree g.degree))
  else if g.isInconsistent then .error .inconsistentGenerators
  else .ok ()

/-- The generators that move a point, each once. -/
def moving (gens : List SignedPerm) : List SignedPerm :=
  SignedPerm.distinct (gens.filter (!·.isIdentity))

/-- The generator fixes all of these points. -/
def fixesAll (g : SignedPerm) (points : List Nat) : Bool := points.all fun b => g.act b == b

/-- The base with a point that `g` moves, unless it has one. -/
def extendBase (base : List Nat) (g : SignedPerm) : List Nat :=
  if fixesAll g base then base ++ g.firstMoved.toList else base

/-- A base on which every generator moves a point.  Without a wanted base, it starts with
    the smallest point that any of them moves. -/
def movedBase (wanted : List Nat) (gens : List SignedPerm) : List Nat :=
  let start := if wanted.isEmpty then (gens.filterMap (·.firstMoved)).min?.toList else wanted
  gens.foldl extendBase start

/-- The levels at these base points, each with the generators that fix the earlier ones. -/
def startingLevels (degree : Nat) (gens : List SignedPerm) :
    List Nat → List Nat → List Level
  | _, [] => []
  | earlier, point :: points =>
      .ofGenerators degree (gens.filter (fixesAll · earlier)) point
        :: startingLevels degree gens (earlier ++ [point]) points

/-! ## Completing the levels -/

/-- The first of these elements that does not sift to the identity, as its residue and the
    number of levels passed. -/
def firstResidue (below : List Level) :
    List SignedPerm → Except GroupError (Option (SignedPerm × Nat))
  | [] => .ok none
  | s :: rest =>
      let (h, passed) := SlotSymmetry.sift below s
      if passed < below.length || !h.isIdentity then .ok (some (h, passed))
      else if h.flips then .error .inconsistentGenerators
      else firstResidue below rest

/-- The first Schreier generator of the level that does not sift to the identity through
    the levels below. -/
def failingResidue : List Level → Except GroupError (Option (SignedPerm × Nat))
  | [] => .ok none
  | level :: below => do
      firstResidue below (← level.orbit.storedSchreierGenerators level.generators)

/-- A chain under construction.  From level `pending` on, the levels are complete. -/
structure Draft where
  degree : Nat
  levels : List Level
  pending : Nat

namespace Draft

/-- Adds `h` to the levels from `first` to `last`. -/
def adjoin (d : Draft) (h : SignedPerm) (first last : Nat) : List Level :=
  d.levels.mapIdx fun i level =>
    if first ≤ i ∧ i ≤ last then level.adjoin d.degree h else level

/-- Adds a level without generators at the first point that `h` moves. -/
def deepen (d : Draft) (h : SignedPerm) : Except GroupError Draft :=
  match h.firstMoved with
  | none => .error .inconsistentGenerators
  | some point =>
      .ok { d with levels := d.levels ++ [.ofGenerators d.degree [] point] }

/-- Takes in a residue that passed all levels from `first` up to `stop`. -/
def absorb (d : Draft) (h : SignedPerm) (first stop : Nat) : Except GroupError Draft := do
  let d ← if stop = d.levels.length then d.deepen h else .ok d
  return { d with levels := d.adjoin h first stop, pending := stop + 1 }

/-- Looks at the deepest level that may be incomplete. -/
def step (d : Draft) : Except GroupError Draft :=
  match d.pending with
  | 0 => .ok d
  | i + 1 => do
      match ← failingResidue (d.levels.drop i) with
      | none => return { d with pending := i }
      | some (h, passed) => d.absorb h (i + 1) (i + 1 + passed)

/-- Takes up to `rounds` steps, until every level is complete. -/
def complete : Nat → Draft → Except GroupError Draft
  | 0, d => .ok d
  | rounds + 1, d => if d.pending = 0 then .ok d else do complete rounds (← d.step)

end Draft

/-- Enough steps to complete any chain of this degree.  Every residue lengthens an orbit,
    the orbits of a chain have at most `n + (n - 1) + … + 1` points together, and between
    two residues at most `n` levels are looked at. -/
def roundLimit (n : Nat) : Nat := (n + 1) * (n * (n + 1) / 2 + 1)

/-- The chain of the group generated by the list, with the wanted points at the start of
    its base. -/
def buildWithBase (degree : Nat) (gens : List SignedPerm) (wanted : List Nat) :
    Except GroupError Chain := do
  let wanted ← GroupError.lift (startingBase degree wanted)
  gens.forM (admissible degree)
  let gens := moving gens
  if gens.all (·.imageInRange) then
    let levels := startingLevels degree gens [] (movedBase wanted gens)
    let draft ← Draft.complete (roundLimit degree) ⟨degree, levels, levels.length⟩
    return ⟨degree, draft.levels⟩
  else .error (.perm .missingEntry)

/-- The chain of the group generated by the list. -/
def build (degree : Nat) (gens : List SignedPerm) : Except GroupError Chain :=
  buildWithBase degree gens []

end Chain

end SlotSymmetry
