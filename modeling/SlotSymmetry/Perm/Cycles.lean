import SlotSymmetry.Perm.Basic

/-! # Cycles and transpositions

    The cycle decomposition of a permutation, what can be read off it (parity,
    order, transpositions), and the permutations given by cycles.  A cycle
    `[a, b, c]` sends `a` to `b`, `b` to `c` and `c` to `a`. -/

namespace SlotSymmetry

namespace SignedPerm

/-! ## From a permutation to its cycles -/

/-- Follows the images of `point` up to the first marked one, marking on the way.  At most
    `fuel` points are visited; the degree is enough, as no point is visited twice. -/
def follow (p : SignedPerm) : Nat → Nat → Array Bool → List Nat × Array Bool
  | 0, _, marked => ([], marked)
  | fuel + 1, point, marked =>
      if marked.getD point true then ([], marked)
      else
        let (rest, marked) := p.follow fuel (p.act point) (marked.setIfInBounds point true)
        (point :: rest, marked)

/-- The cycles through those of the given points that are not marked yet, in order. -/
def cyclesFrom (p : SignedPerm) : List Nat → Array Bool → List (List Nat)
  | [], _ => []
  | point :: points, marked =>
      if marked.getD point true then p.cyclesFrom points marked
      else
        let (cycle, marked) := p.follow p.degree point marked
        cycle :: p.cyclesFrom points marked

/-- The cycle decomposition, fixed points included.  Each cycle starts with its smallest
    point, and the cycles come in the order of these. -/
def cycles (p : SignedPerm) : List (List Nat) :=
  p.cyclesFrom (List.range p.degree) (Array.replicate p.degree false)

/-- `1` if the permutation of the points is even and `-1` if it is odd: a cycle of even
    length is odd.  The sign of the tensor plays no part. -/
def parity (p : SignedPerm) : Int :=
  p.cycles.foldl (fun sign cycle => if cycle.length % 2 = 0 then -sign else sign) 1

/-- One more cycle length in the least common multiple. -/
def lcmStep (order length : Nat) : Nat := order / order.gcd length * length

/-- The least positive number of repetitions that fixes every point: the least common
    multiple of the cycle lengths. -/
def order (p : SignedPerm) : Nat := (p.cycles.map List.length).foldl lcmStep 1

/-- Transpositions whose product, the last one applied first, is the cycle. -/
def transpositionsOfCycle : List Nat → List (Nat × Nat)
  | [] => []
  | first :: rest => rest.reverse.map fun point => (first, point)

/-- Transpositions whose product, the last one applied first, is the permutation. -/
def transpositions (p : SignedPerm) : List (Nat × Nat) :=
  p.cycles.flatMap transpositionsOfCycle

/-! ## From cycles to a permutation -/

/-- Every point of the cycle with the one after it. -/
def successors : List Nat → List (Nat × Nat)
  | [] => []
  | first :: rest => (first :: rest).zip (rest ++ [first])

/-- The images under disjoint cycles of points of `0..n`; the other points are fixed. -/
def imageOfCycles (n : Nat) (cycles : List (List Nat)) : Array Nat :=
  (cycles.flatMap successors).foldl (fun image (point, next) => image.setIfInBounds point next)
    (Array.range n)

/-- What is wrong with the first point that is not in `0..n` or came before. -/
def firstFault (n : Nat) : List Nat → List Nat → Option PermError
  | _, [] => none
  | earlier, point :: points =>
      if n ≤ point then some (.outOfRange point n)
      else if point ∈ earlier then some .cyclesOverlap
      else firstFault n (point :: earlier) points

/-- The symmetric permutation of `0..n` with these cycles, which have to be disjoint.
    Points that are not mentioned are fixed. -/
def ofDisjointCycles (n : Nat) (cycles : List (List Nat)) : Except PermError SignedPerm :=
  match firstFault n [] cycles.flatten with
  | some fault => .error fault
  | none => .ok (ofImage (imageOfCycles n cycles) false)

/-- Which cycle of a product is applied first. -/
inductive CycleOrder where
  | lastFirst
  | firstFirst
  deriving DecidableEq, Repr

/-- The cycles in the order in which they are applied. -/
def CycleOrder.arrange (order : CycleOrder) (cycles : List (List Nat)) : List (List Nat) :=
  match order with
  | .lastFirst => cycles.reverse
  | .firstFirst => cycles

/-- Applies one more cycle of points of `0..n`, none of which may occur twice in it. -/
def followedBy (n : Nat) (p : SignedPerm) (cycle : List Nat) : Except PermError SignedPerm :=
  if cycle.length ≤ 1 then .ok p
  else if cycle.Nodup then .ok (ofImage (imageOfCycles n [cycle]) false * p)
  else .error (.notBijective n)

/-- The symmetric permutation of `0..n` that applies the cycles one after another. -/
def ofCycles (n : Nat) (cycles : List (List Nat)) (order : CycleOrder) :
    Except PermError SignedPerm :=
  match cycles.flatten.find? (n ≤ ·) with
  | some point => .error (.outOfRange point n)
  | none => (order.arrange cycles).foldlM (followedBy n) (id n)

end SignedPerm

end SlotSymmetry
