import SlotSymmetry.Json.Value

/-! # Reading JSON

    Every reader takes the front of a list of characters and returns what it
    read with the characters that follow, or nothing if the front is malformed.
    Objects and arrays nest to any depth; the fuel bounds the number of nested
    readers and is taken from the length of the text. -/

namespace SlotSymmetry

namespace Json

/-- The four blanks that may stand between two tokens. -/
def isBlank (c : Char) : Bool := c = ' ' || c = '\t' || c = '\n' || c = '\r'

/-- The text from the first character that is no blank. -/
def skipBlanks (cs : List Char) : List Char := cs.dropWhile isBlank

/-! ## Numbers -/

/-- The decimal digit that the character shows. -/
def digit? (c : Char) : Option (Fin 10) :=
  if h : '0' ≤ c ∧ c ≤ '9' then some ⟨(c.toNat - 48) % 10, Nat.mod_lt _ (by decide)⟩ else none

/-- The run of decimal digits at the front. -/
def readDigits : List Char → List (Fin 10) × List Char
  | [] => ([], [])
  | c :: cs =>
      match digit? c with
      | none => ([], c :: cs)
      | some d =>
          let (ds, rest) := readDigits cs
          (d :: ds, rest)

/-- The number that a list of digits shows, most significant digit first. -/
def valueOfDigits (ds : List (Fin 10)) : Nat := ds.foldl (fun n d => 10 * n + d.val) 0

/-- The digits before the point: at least one, and the first is `0` only if it is alone. -/
def readWhole (cs : List Char) : Option (Nat × List Char) :=
  match readDigits cs with
  | ([], _) => none
  | ([d], rest) => some (d, rest)
  | (d :: ds, rest) => if d = 0 then none else some (valueOfDigits (d :: ds), rest)

/-- The digits after the point, of which there is at least one if there is a point. -/
def readFraction : List Char → Option (List (Fin 10) × List Char)
  | '.' :: cs =>
      match readDigits cs with
      | ([], _) => none
      | (ds, rest) => some (ds, rest)
  | cs => some ([], cs)

/-- The sign of an exponent. -/
def readSign : List Char → Bool × List Char
  | '-' :: cs => (true, cs)
  | '+' :: cs => (false, cs)
  | cs => (false, cs)

/-- The power of ten, if one is written. -/
def readExponent : List Char → Option (Option Int × List Char)
  | [] => some (none, [])
  | c :: cs =>
      if c = 'e' || c = 'E' then
        let (negative, cs) := readSign cs
        match readDigits cs with
        | ([], _) => none
        | (ds, rest) =>
            let n : Int := valueOfDigits ds
            some (some (if negative then -n else n), rest)
      else some (none, c :: cs)

/-- A number without its sign. -/
def readUnsigned (negative : Bool) (cs : List Char) : Option (Number × List Char) := do
  let (whole, cs) ← readWhole cs
  let (fraction, cs) ← readFraction cs
  let (exponent, cs) ← readExponent cs
  return (⟨negative, whole, fraction, exponent⟩, cs)

/-- A number. -/
def readNumber : List Char → Option (Number × List Char)
  | '-' :: cs => readUnsigned true cs
  | cs => readUnsigned false cs

/-! ## Strings -/

/-- The value of a hexadecimal digit of either case. -/
def hexDigit? (c : Char) : Option Nat :=
  if '0' ≤ c ∧ c ≤ '9' then some (c.toNat - 48)
  else if 'a' ≤ c ∧ c ≤ 'f' then some (c.toNat - 87)
  else if 'A' ≤ c ∧ c ≤ 'F' then some (c.toNat - 55)
  else none

/-- The unit that four hexadecimal digits show. -/
def hexUnit? (a b c d : Char) : Option UInt16 := do
  let a ← hexDigit? a
  let b ← hexDigit? b
  let c ← hexDigit? c
  let d ← hexDigit? d
  return (((16 * a + b) * 16 + c) * 16 + d).toUInt16

/-- The unit that a backslash and this character stand for. -/
def escapedUnit? : Char → Option UInt16
  | '"' => some 0x22
  | '\\' => some 0x5C
  | '/' => some 0x2F
  | 'b' => some 0x08
  | 'f' => some 0x0C
  | 'n' => some 0x0A
  | 'r' => some 0x0D
  | 't' => some 0x09
  | _ => none

/-- One character of a string, escaped or not.  Control characters have to be escaped. -/
def readUnits : List Char → Option (Text × List Char)
  | '\\' :: 'u' :: a :: b :: c :: d :: cs => (hexUnit? a b c d).map fun unit => ([unit], cs)
  | '\\' :: c :: cs => (escapedUnit? c).map fun unit => ([unit], cs)
  | c :: cs => if c.toNat < 0x20 || c = '\\' then none else some (Text.ofChar c, cs)
  | [] => none

/-- The characters of a string up to the quote that ends it. -/
def readText : Nat → List Char → Option (Text × List Char)
  | 0, _ => none
  | _ + 1, '"' :: cs => some ([], cs)
  | fuel + 1, cs => do
      let (units, cs) ← readUnits cs
      let (more, cs) ← readText fuel cs
      return (units ++ more, cs)

/-! ## Values -/

mutual

/-- A value that starts at the first character. -/
def readValue : Nat → List Char → Option (Json × List Char)
  | 0, _ => none
  | _ + 1, 'n' :: 'u' :: 'l' :: 'l' :: cs => some (.null, cs)
  | _ + 1, 't' :: 'r' :: 'u' :: 'e' :: cs => some (.bool true, cs)
  | _ + 1, 'f' :: 'a' :: 'l' :: 's' :: 'e' :: cs => some (.bool false, cs)
  | _ + 1, '"' :: cs => (readText (cs.length + 1) cs).map fun (units, cs) => (.text units, cs)
  | fuel + 1, '[' :: cs =>
      match skipBlanks cs with
      | ']' :: cs => some (.array [], cs)
      | cs => (readItems fuel cs).map fun (items, cs) => (.array items, cs)
  | fuel + 1, '{' :: cs =>
      match skipBlanks cs with
      | '}' :: cs => some (.object [], cs)
      | cs => (readMembers fuel cs).map fun (members, cs) => (.object members, cs)
  | _ + 1, cs => (readNumber cs).map fun (n, cs) => (.number n, cs)

/-- The items of an array, of which there is at least one, and the bracket that ends it. -/
def readItems : Nat → List Char → Option (List Json × List Char)
  | 0, _ => none
  | fuel + 1, cs =>
      match readValue fuel cs with
      | none => none
      | some (item, cs) =>
          match skipBlanks cs with
          | ']' :: cs => some ([item], cs)
          | ',' :: cs =>
              (readItems fuel (skipBlanks cs)).map fun (items, cs) => (item :: items, cs)
          | _ => none

/-- The members of an object, of which there is at least one, and the brace that ends it. -/
def readMembers : Nat → List Char → Option (List (Text × Json) × List Char)
  | 0, _ => none
  | fuel + 1, '"' :: cs =>
      match readText (cs.length + 1) cs with
      | none => none
      | some (key, cs) =>
          match skipBlanks cs with
          | ':' :: cs =>
              match readValue fuel (skipBlanks cs) with
              | none => none
              | some (value, cs) =>
                  match skipBlanks cs with
                  | '}' :: cs => some ([(key, value)], cs)
                  | ',' :: cs =>
                      (readMembers fuel (skipBlanks cs)).map fun (members, cs) =>
                        ((key, value) :: members, cs)
                  | _ => none
          | _ => none
  | _ + 1, _ => none

end

/-- The value that makes up the whole text, blanks around it aside. -/
def read? (text : String) : Option Json :=
  let cs := text.toList
  match readValue (2 * cs.length + 2) (skipBlanks cs) with
  | some (value, rest) => if (skipBlanks rest).isEmpty then some value else none
  | none => none

end Json

end SlotSymmetry
