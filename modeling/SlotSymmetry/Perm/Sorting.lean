import SlotSymmetry.Perm.Basic

/-! # The permutation that sorts a list

    Sorting is done once on the positions; the result can then be applied to
    any data of the same length. -/

namespace SlotSymmetry

namespace SignedPerm

variable {α : Type} [LE α] [DecidableLE α]

/-- The positions of the data in ascending order of what stands there; positions of equal
    entries keep their order. -/
def ascending (data : List α) : List Nat :=
  (data.zipIdx.mergeSort fun x y => decide (x.1 ≤ y.1)).map Prod.snd

/-- The symmetric permutation that takes every entry of the data to its place in ascending
    order. -/
def sorting (data : List α) : SignedPerm :=
  (ofImage (ascending data).toArray false).inverse

end SignedPerm

end SlotSymmetry
