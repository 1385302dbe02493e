import SlotSymmetry.Perm.Basic

/-! # The order of signed permutations

    Permutations are ordered by their images, read as words, and the symmetric
    one of a pair comes before the antisymmetric one.  The inverse table plays
    no part. -/

namespace SlotSymmetry

namespace SignedPerm

/-- Images first, signs second. -/
instance : Ord SignedPerm where
  compare p q := (compare p.image q.image).then (compare p.flips q.flips)

/-- The permutations in ascending order; those that compare equal keep their order. -/
def sorted (ps : List SignedPerm) : List SignedPerm :=
  ps.mergeSort fun p q => (compare p q).isLE

/-- The list without repetitions: of equal permutations the first one stays. -/
def distinct (ps : List SignedPerm) : List SignedPerm := ps.eraseDups

end SignedPerm

end SlotSymmetry
