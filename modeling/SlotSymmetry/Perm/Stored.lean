import SlotSymmetry.Perm.Power
import SlotSymmetry.Perm.Display

/-! # Permutations with unchecked tables

    A permutation read from a record may send a point out of range.  What
    follows the images of a point then runs past the end of the table.  The
    functions here refuse such values and are the plain ones on all others. -/

namespace SlotSymmetry

namespace SignedPerm

/-- The value, if every image of the permutation is a point. -/
def ifInRange {α : Type} (p : SignedPerm) (value : Unit → α) : Except PermError α :=
  if p.imageInRange then .ok (value ()) else .error .missingEntry

/-- The cycles of a permutation whose tables are unchecked. -/
def storedCycles (p : SignedPerm) : Except PermError (List (List Nat)) :=
  p.ifInRange fun _ => p.cycles

/-- The transpositions of a permutation whose tables are unchecked. -/
def storedTranspositions (p : SignedPerm) : Except PermError (List (Nat × Nat)) :=
  p.ifInRange fun _ => p.transpositions

/-- The parity of a permutation whose tables are unchecked. -/
def storedParity (p : SignedPerm) : Except PermError Int := p.ifInRange fun _ => p.parity

/-- The order of a permutation whose tables are unchecked. -/
def storedOrder (p : SignedPerm) : Except PermError Nat := p.ifInRange fun _ => p.order

/-- The written form of a permutation whose tables are unchecked. -/
def storedDisplay (p : SignedPerm) : Except PermError String := p.ifInRange fun _ => p.display

/-- A power of a permutation whose tables are unchecked.  The power zero looks at no image. -/
def storedPow (p : SignedPerm) (k : Nat) : Except PermError SignedPerm :=
  if k = 0 then .ok (p.pow 0) else p.ifInRange fun _ => p.pow k

end SignedPerm

end SlotSymmetry
