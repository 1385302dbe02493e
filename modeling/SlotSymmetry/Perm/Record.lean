import SlotSymmetry.Perm.Basic
import SlotSymmetry.Json.Reader
import SlotSymmetry.Json.Writer

/-! # Permutations as JSON records

    A permutation is written as an object with the members `map`, `inv` and
    `antisymmetric`.  It is read from an object that has each of these once,
    in any order and among any others, or from an array of the three values.
    Reading takes the tables as they are: whether they are a bijection and its
    inverse is not looked at. -/

namespace SlotSymmetry

namespace SignedPerm

/-- The member that holds the images. -/
def imageKey : Json.Text := Json.Text.ofString "map"

/-- The member that holds the preimages. -/
def preimageKey : Json.Text := Json.Text.ofString "inv"

/-- The member that holds the sign. -/
def flipsKey : Json.Text := Json.Text.ofString "antisymmetric"

/-- A table of points. -/
def tableToJson (table : Array Nat) : Json := .array (table.toList.map Json.ofNat)

/-- The record of a permutation. -/
def toJson (p : SignedPerm) : Json :=
  .object [(imageKey, tableToJson p.image), (preimageKey, tableToJson p.preimage),
    (flipsKey, .bool p.flips)]

/-- A table of unsigned 64-bit numbers. -/
def tableOfJson? : Json → Option (Array Nat)
  | .array items => (items.mapM Json.word?).map List.toArray
  | _ => none

/-- A truth value. -/
def flipsOfJson? : Json → Option Bool
  | .bool flips => some flips
  | _ => none

/-- The permutation with these three parts. -/
def ofParts? (image preimage flips : Json) : Option SignedPerm := do
  return ⟨← tableOfJson? image, ← tableOfJson? preimage, ← flipsOfJson? flips⟩

/-- The value of the member with this key, if there is exactly one. -/
def member? (members : List (Json.Text × Json)) (key : Json.Text) : Option Json :=
  match members.filter (·.1 = key) with
  | [(_, value)] => some value
  | _ => none

/-- The permutation that a record describes.  The keys of the record have to be well
    formed, also those that are passed over. -/
def ofJson? : Json → Option SignedPerm
  | .array [image, preimage, flips] => ofParts? image preimage flips
  | .object members =>
      if members.all (·.1.wellFormed) then do
        ofParts? (← member? members imageKey) (← member? members preimageKey)
          (← member? members flipsKey)
      else none
  | _ => none

/-- The text of the record of a permutation. -/
def render (p : SignedPerm) : String := p.toJson.render

/-- The permutation whose record is this text. -/
def read? (text : String) : Option SignedPerm := (Json.read? text).bind ofJson?

end SignedPerm

end SlotSymmetry
