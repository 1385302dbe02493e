import SlotSymmetry.Perm.Basic

/-! # Powers

    Repeated composition by squaring: `k` is read from its lowest binary digit
    up, while the base runs through the squares. -/

namespace SlotSymmetry

namespace SignedPerm

/-- `result` followed inwards by `base` repeated `k` times. -/
def mulPow (result base : SignedPerm) (k : Nat) : SignedPerm :=
  if k = 0 then result
  else mulPow (if k % 2 = 1 then result * base else result) (base * base) (k / 2)
termination_by k

/-- The permutation repeated `k` times, from the symmetric identity on. -/
def pow (p : SignedPerm) (k : Nat) : SignedPerm := mulPow (id p.degree) p k

end SignedPerm

end SlotSymmetry
