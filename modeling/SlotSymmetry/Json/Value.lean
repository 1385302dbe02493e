/-! # JSON values

    A value as it stands in a JSON text.  Numbers keep their digits, objects
    keep the order and the repetitions of their members, and a string is the
    list of its UTF-16 units, which need not be well formed. -/

namespace SlotSymmetry

/-- The UTF-16 units of a string. -/
abbrev Json.Text := List UInt16

/-- A number as written: its sign, the digits before the point, the digits after it, and
    the power of ten. -/
structure Json.Number where
  negative : Bool
  whole : Nat
  fraction : List (Fin 10)
  exponent : Option Int
  deriving DecidableEq, Repr

/-- A JSON value. -/
inductive Json where
  | null
  | bool (value : Bool)
  | number (value : Json.Number)
  | text (units : Json.Text)
  | array (items : List Json)
  | object (members : List (Json.Text × Json))
  deriving Repr

namespace Json

/-- The number without sign, point or exponent. -/
def ofNat (n : Nat) : Json := .number ⟨false, n, [], none⟩

/-- The value of a number that is written as digits only and is below `2 ^ 64`. -/
def word? : Json → Option Nat
  | .number ⟨false, n, [], none⟩ => if n < UInt64.size then some n else none
  | _ => none

/-! ## Text -/

/-- The units of a character: one, or a leading and a trailing surrogate. -/
def Text.ofChar (c : Char) : Text :=
  if c.toNat < 0x10000 then [c.toNat.toUInt16]
  else
    let offset := c.toNat - 0x10000
    [(0xD800 + offset / 0x400).toUInt16, (0xDC00 + offset % 0x400).toUInt16]

/-- The units of a string. -/
def Text.ofString (s : String) : Text := s.toList.flatMap Text.ofChar

/-- The first half of a surrogate pair. -/
def isLeading (unit : UInt16) : Bool := 0xD800 ≤ unit && unit < 0xDC00

/-- The second half of a surrogate pair. -/
def isTrailing (unit : UInt16) : Bool := 0xDC00 ≤ unit && unit < 0xE000

/-- Every surrogate is half of a pair. -/
def Text.wellFormed : Text → Bool
  | [] => true
  | unit :: units =>
      if isTrailing unit then false
      else if isLeading unit then
        match units with
        | next :: rest => isTrailing next && Text.wellFormed rest
        | [] => false
      else Text.wellFormed units

end Json

end SlotSymmetry
