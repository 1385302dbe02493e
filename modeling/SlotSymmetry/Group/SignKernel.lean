import SlotSymmetry.Group.Basic

/-! # The elements with a symmetric sign

    They form a subgroup, of index two if any element is antisymmetric.  With an
    antisymmetric generator `f`, the identity and `f` represent its two cosets,
    and the Schreier generators for these two generate it. -/

namespace SlotSymmetry

namespace SignedGroup

/-- The element itself if its sign is symmetric, and the element after `f` backwards if it
    is not. -/
def straighten (f x : SignedPerm) : SignedPerm := if x.flips then f.invMul x else x

/-- Generators of the symmetric elements, from an antisymmetric generator `f`. -/
def kernelGenerators (f : SignedPerm) (gens : List SignedPerm) : List SignedPerm :=
  SignedPerm.distinct
    ((gens.flatMap fun g => [straighten f g, straighten f (g * f)]).filter (!·.isIdentity))

/-- The elements with a symmetric sign. -/
def signPreserving (g : SignedGroup) : Except GroupError SignedGroup :=
  match g.generators.find? (·.flips) with
  | none => .ok g
  | some f => generate g.degree (kernelGenerators f g.generators)

end SignedGroup

end SlotSymmetry
