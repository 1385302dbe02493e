import SlotSymmetry.Perm.Error

/-! # What can be wrong with a request about groups

    Besides the failures of single permutations: signs that no group can have,
    a subgroup that is none, and a search that ran out of its budget. -/

namespace SlotSymmetry

/-- Why a request about a group has no answer. -/
inductive GroupError where
  | perm (error : PermError)
  | emptyGenerators
  | inconsistentGenerators
  | notASubgroup
  | searchIncomplete (nodes : Nat)
  deriving DecidableEq, Repr

/-- The sentence that reports the failure. -/
def GroupError.message : GroupError → String
  | .perm error => error.message
  | .emptyGenerators => "No generators given"
  | .inconsistentGenerators => "Generators force an identity permutation to be antisymmetric"
  | .notASubgroup => "Not a subgroup"
  | .searchIncomplete nodes => s!"Search budget exhausted after {nodes} nodes"

/-- A failure of a single permutation, as a failure of a request about a group. -/
def GroupError.lift {α : Type} (result : Except PermError α) : Except GroupError α :=
  result.mapError .perm

end SlotSymmetry
