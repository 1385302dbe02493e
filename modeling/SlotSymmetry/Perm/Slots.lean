import SlotSymmetry.Perm.Cycles

/-! # Moving data between slots

    A permutation moves the entry at place `i` to place `p i`.  The copying
    functions read off the entries through a table, the ones in place exchange
    two entries at a time and keep what lies past the degree. -/

namespace SlotSymmetry

namespace SignedPerm

variable {α : Type}

/-- The entries of the data at these places, if all of them are there. -/
def pick (places : Array Nat) (data : Array α) : Except PermError (Array α) :=
  (places.mapM (data[·]?)).elim (.error .missingEntry) .ok

/-- A copy in which the entry at `i` stands at `p i`. -/
def permuted (p : SignedPerm) (data : Array α) : Except PermError (Array α) :=
  pick p.preimage data

/-- A copy in which the entry at `p i` stands at `i`. -/
def unpermuted (p : SignedPerm) (data : Array α) : Except PermError (Array α) :=
  pick p.image data

/-- Exchanges two entries, which have to be there. -/
def exchange (data : Array α) (pair : Nat × Nat) : Except PermError (Array α) :=
  if h : pair.1 < data.size ∧ pair.2 < data.size then .ok (data.swap pair.1 pair.2 h.1 h.2)
  else .error .missingEntry

/-- The data with the entry at `i` moved to `p i`. -/
def permuteInPlace (p : SignedPerm) (data : Array α) : Except PermError (Array α) :=
  if p.imageInRange then p.transpositions.reverse.foldlM exchange data
  else .error .missingEntry

/-- The data with the entry at `p i` moved to `i`. -/
def unpermuteInPlace (p : SignedPerm) (data : Array α) : Except PermError (Array α) :=
  if p.imageInRange then p.transpositions.foldlM exchange data
  else .error .missingEntry

end SignedPerm

end SlotSymmetry
