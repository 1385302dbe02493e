import SlotSymmetry.Chain.Basic
import SlotSymmetry.Orbit.Stored

/-! # Sifting any permutation

    A sift looks up the image of every base point that it comes to, and the first
    level that has to move this image passes all images of the permutation
    through its own tables.  A permutation of fewer points than the chain, of
    more, or one that was read from a record and sends a point out of range may
    have no entry there.  The functions here refuse it exactly then and are the
    plain ones otherwise. -/

namespace SlotSymmetry

/-- The level misses no entry: the permutation has an image of the base point, and from there the
    level can go back to it, if it has to. -/
def Level.canStrip (level : Level) (h : SignedPerm) : Bool :=
  let image := h.act level.basePoint
  level.basePoint < h.degree
    && (!level.orbit.contains image
      || level.orbit.canUnwind level.generators level.orbit.length image h)

/-- None of the levels that are passed misses an entry, and neither does the one that stops the
    permutation. -/
def canSiftThrough : List Level → SignedPerm → Bool
  | [], _ => true
  | level :: below, h => level.canStrip h && (level.strip h).all (canSiftThrough below)

namespace Chain

/-- Sifting the permutation misses no entry. -/
def canSift (c : Chain) (p : SignedPerm) : Bool := canSiftThrough c.levels p

/-- Sifts any permutation, of whatever degree and with whatever tables. -/
def storedSift (c : Chain) (p : SignedPerm) : Except PermError (SignedPerm × Nat) :=
  if c.canSift p then .ok (c.sift p) else .error .missingEntry

/-- Membership of a permutation whose tables are unchecked. -/
def storedContains (c : Chain) (p : SignedPerm) : Except PermError Bool :=
  if p.degree != c.degree || c.canSift p then .ok (c.contains p) else .error .missingEntry

end Chain

end SlotSymmetry
