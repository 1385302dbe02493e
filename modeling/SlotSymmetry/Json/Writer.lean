import SlotSymmetry.Json.Value

/-! # Writing JSON

    The text of a value without blanks.  Units outside the printable ASCII
    range are escaped, so that every list of units has a text. -/

namespace SlotSymmetry

namespace Json

/-- The character that shows a decimal digit. -/
def digitChar (d : Fin 10) : Char := Char.ofNat (48 + d)

/-- The decimal digits of a number, most significant digit first. -/
def digitsOf (n : Nat) : List (Fin 10) :=
  if n < 10 then [Fin.ofNat 10 n] else digitsOf (n / 10) ++ [Fin.ofNat 10 n]
termination_by n

/-- The decimal digits of a number as characters. -/
def writeNat (n : Nat) : List Char := (digitsOf n).map digitChar

/-- The digits after the point, with the point, if there are any. -/
def writeFraction : List (Fin 10) → List Char
  | [] => []
  | ds => '.' :: ds.map digitChar

/-- The power of ten, if there is one. -/
def writeExponent : Option Int → List Char
  | none => []
  | some (.ofNat n) => 'e' :: writeNat n
  | some (.negSucc n) => 'e' :: '-' :: writeNat (n + 1)

/-- A number. -/
def writeNumber (n : Number) : List Char :=
  (if n.negative then ['-'] else []) ++ writeNat n.whole ++ writeFraction n.fraction
    ++ writeExponent n.exponent

/-- The character that shows a hexadecimal digit. -/
def hexChar (d : Nat) : Char := if d < 10 then Char.ofNat (48 + d) else Char.ofNat (87 + d)

/-- One unit of a string: itself if it is printable ASCII other than quote and backslash,
    its four hexadecimal digits otherwise. -/
def writeUnit (unit : UInt16) : List Char :=
  let n := unit.toNat
  if 0x20 ≤ n ∧ n < 0x7F ∧ n ≠ 0x22 ∧ n ≠ 0x5C then [Char.ofNat n]
  else ['\\', 'u', hexChar (n / 4096), hexChar (n / 256 % 16), hexChar (n / 16 % 16),
    hexChar (n % 16)]

/-- A string with its quotes. -/
def writeText (units : Text) : List Char := '"' :: (units.flatMap writeUnit ++ ['"'])

mutual

/-- The characters of a value. -/
def write : Json → List Char
  | .null => ['n', 'u', 'l', 'l']
  | .bool true => ['t', 'r', 'u', 'e']
  | .bool false => ['f', 'a', 'l', 's', 'e']
  | .number n => writeNumber n
  | .text units => writeText units
  | .array items => '[' :: writeItems items
  | .object members => '{' :: writeMembers members

/-- The items of an array and the bracket that ends it. -/
def writeItems : List Json → List Char
  | [] => [']']
  | [item] => write item ++ [']']
  | item :: items => write item ++ ',' :: writeItems items

/-- The members of an object and the brace that ends it. -/
def writeMembers : List (Text × Json) → List Char
  | [] => ['}']
  | [(key, value)] => writeText key ++ ':' :: (write value ++ ['}'])
  | (key, value) :: members =>
      writeText key ++ ':' :: (write value ++ ',' :: writeMembers members)

end

/-- The text of a value. -/
def render (value : Json) : String := String.ofList (write value)

end Json

end SlotSymmetry
