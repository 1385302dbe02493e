import SlotSymmetry.Perm.Basic

/-! # The group that a list of permutations generates

    `Generated n gens` is the set of finite products of members of the list,
    the empty product being the symmetric identity of `0..n`.  In a finite group
    this is all of the generated group, as an inverse is a power. -/

namespace SlotSymmetry

namespace SignedPerm

/-- The finite products of members of the list. -/
inductive Generated (n : Nat) (gens : List SignedPerm) : SignedPerm → Prop where
  | one : Generated n gens (id n)
  | mul {g p : SignedPerm} : g ∈ gens → Generated n gens p → Generated n gens (g * p)

end SignedPerm

end SlotSymmetry
