import SlotSymmetry.Perm.Error

/-! # Signed permutations

    A signed permutation of `0..n` says where each slot of a tensor goes and
    whether going there flips the sign of the tensor.  It is stored with the
    table of its inverse, so that both directions are one look-up.

    The tables are plain data: a value read from a record may hold any two
    arrays.  `Valid` says that they are a bijection and its inverse; every
    constructor and operation of this library keeps it. -/

namespace SlotSymmetry

/-- The images of `0..n`, the preimages of `0..n`, and whether the sign flips. -/
structure SignedPerm where
  image : Array Nat
  preimage : Array Nat
  flips : Bool
  deriving DecidableEq, Hashable, Repr

namespace SignedPerm

/-- The number of points acted on. -/
def degree (p : SignedPerm) : Nat := p.image.size

/-- Where the point goes; a point past the degree stays put. -/
def act (p : SignedPerm) (point : Nat) : Nat := p.image.getD point point

/-- Where the point comes from; a point past the degree stays put. -/
def actInv (p : SignedPerm) (point : Nat) : Nat := p.preimage.getD point point

/-- The two tables are a bijection of `0..degree` and its inverse. -/
structure Valid (p : SignedPerm) : Prop where
  size_preimage : p.preimage.size = p.degree
  act_lt : ∀ i, i < p.degree → p.act i < p.degree
  actInv_lt : ∀ i, i < p.degree → p.actInv i < p.degree
  actInv_act : ∀ i, i < p.degree → p.actInv (p.act i) = i
  act_actInv : ∀ i, i < p.degree → p.act (p.actInv i) = i

/-- Validity is a matter of finitely many look-ups. -/
instance decidableValid (p : SignedPerm) : Decidable p.Valid :=
  decidable_of_iff
    (p.preimage.size = p.degree
      ∧ (∀ i, i < p.degree → p.act i < p.degree) ∧ (∀ i, i < p.degree → p.actInv i < p.degree)
      ∧ (∀ i, i < p.degree → p.actInv (p.act i) = i)
      ∧ ∀ i, i < p.degree → p.act (p.actInv i) = i)
    ⟨fun ⟨a, b, c, d, e⟩ => ⟨a, b, c, d, e⟩, fun ⟨a, b, c, d, e⟩ => ⟨a, b, c, d, e⟩⟩

/-- Every image is a point. -/
def imageInRange (p : SignedPerm) : Bool := p.image.all (· < p.degree)

/-- Both tables have one entry per point, and every entry is a point. -/
def inRange (p : SignedPerm) : Bool :=
  p.imageInRange && p.preimage.size == p.degree && p.preimage.all (· < p.degree)

/-! ## Constructors -/

/-- The table of the places at which the entries of `image` stand.  Of equal entries the
    last one counts; an entry past the end is left out. -/
def positions (image : Array Nat) : Array Nat :=
  image.size.fold (fun place _ table => table.setIfInBounds image[place] place)
    (Array.replicate image.size 0)

/-- The signed permutation with these images, its inverse table worked out from them. -/
def ofImage (image : Array Nat) (flips : Bool) : SignedPerm :=
  ⟨image, positions image, flips⟩

/-- The symmetric identity of `0..n`. -/
def id (n : Nat) : SignedPerm := ⟨Array.range n, Array.range n, false⟩

/-- Every entry is one of `0..size`, and none of them occurs twice. -/
def isBijection (image : Array Nat) : Bool :=
  let table := positions image
  image.zipIdx.all fun (entry, place) => table[entry]? == some place

/-- The symmetric permutation with these images. -/
def ofImage? (image : Array Nat) : Except PermError SignedPerm :=
  if isBijection image then .ok (ofImage image false) else .error (.notBijective image.size)

/-- Exchanges `i` and `j` and fixes the rest of `0..n`. -/
def transposition (n i j : Nat) : Except PermError SignedPerm :=
  if n ≤ i then .error (.outOfRange i n)
  else if n ≤ j then .error (.outOfRange j n)
  else .ok (ofImage ((Array.range n).swapIfInBounds i j) false)

/-! ## Signs -/

/-- The same images with the given sign. -/
def withFlips (p : SignedPerm) (flips : Bool) : SignedPerm := { p with flips }

/-- The same images with the opposite sign. -/
def negated (p : SignedPerm) : SignedPerm := p.withFlips (!p.flips)

/-- The factor that applying the permutation multiplies a tensor by. -/
def sign (p : SignedPerm) : Int := if p.flips then -1 else 1

/-! ## Group operations -/

/-- The opposite direction, with the same sign. -/
def inverse (p : SignedPerm) : SignedPerm := ⟨p.preimage, p.image, p.flips⟩

/-- First `b`, then `a`; two flips cancel. -/
def mul (a b : SignedPerm) : SignedPerm := ofImage (b.image.map a.act) (a.flips != b.flips)

instance : Mul SignedPerm := ⟨mul⟩

/-- First `b`, then `a` backwards. -/
def invMul (a b : SignedPerm) : SignedPerm :=
  ofImage (b.image.map a.actInv) (a.flips != b.flips)

/-- The product of two permutations of the same points.  Tables that send a point out of
    range have no product. -/
def compose (a b : SignedPerm) : Except PermError SignedPerm :=
  if a.degree ≠ b.degree then .error (.degreeMismatch a.degree b.degree)
  else if b.imageInRange && (a * b).imageInRange then .ok (a * b)
  else .error .missingEntry

/-! ## Points -/

/-- The image of a point. -/
def apply (p : SignedPerm) (point : Nat) : Except PermError Nat :=
  (p.image[point]?).elim (.error (.outOfRange point p.degree)) .ok

/-- The preimage of a point. -/
def applyInv (p : SignedPerm) (point : Nat) : Except PermError Nat :=
  (p.preimage[point]?).elim (.error (.outOfRange point p.degree)) .ok

/-- The entry of the image table, which has to be there. -/
def entry (p : SignedPerm) (point : Nat) : Except PermError Nat :=
  (p.image[point]?).elim (.error .missingEntry) .ok

/-- The points that are not fixed, ascending. -/
def support (p : SignedPerm) : List Nat :=
  (List.range p.degree).filter fun i => p.act i != i

/-- The smallest point that is not fixed. -/
def firstMoved (p : SignedPerm) : Option Nat :=
  (List.range p.degree).find? fun i => p.act i != i

/-- Every point is fixed.  The sign is not looked at. -/
def isIdentity (p : SignedPerm) : Bool := (List.range p.degree).all fun i => p.act i == i

/-- Every point is fixed and the sign flips: a tensor equal to minus itself. -/
def isInconsistent (p : SignedPerm) : Bool := p.flips && p.isIdentity

end SignedPerm

end SlotSymmetry
