import SlotSymmetry.Json.Reader
import SlotSymmetry.Json.Writer

/-! # The texts of a JSON value

    A value has many texts.  Blanks may stand around every token, a unit of a
    string may be escaped or not, and a power of ten may have a sign and leading
    zeros.  The relations here say which characters spell a value, with nothing
    left over, and they do not say how to find the value. -/

namespace SlotSymmetry

namespace Json

/-- Nothing but blanks. -/
def Blank (cs : List Char) : Prop := ∀ c ∈ cs, isBlank c = true

/-! ## Numbers -/

/-- The digits before the point.  A zero is not followed by another digit. -/
inductive SpellsWhole : Nat → List Char → Prop where
  | one (d : Fin 10) : SpellsWhole d [digitChar d]
  | many {d : Fin 10} {ds : List (Fin 10)} (first : d ≠ 0) :
      SpellsWhole (valueOfDigits (d :: ds)) ((d :: ds).map digitChar)

/-- The digits after the point, with the point. -/
inductive SpellsFraction : List (Fin 10) → List Char → Prop where
  | absent : SpellsFraction [] []
  | digits {ds : List (Fin 10)} (present : ds ≠ []) : SpellsFraction ds ('.' :: ds.map digitChar)

/-- The sign of an exponent. -/
inductive SpellsSign : Bool → List Char → Prop where
  | absent : SpellsSign false []
  | plus : SpellsSign false ['+']
  | minus : SpellsSign true ['-']

/-- The power of ten. -/
inductive SpellsExponent : Option Int → List Char → Prop where
  | absent : SpellsExponent none []
  | power {e : Char} {negative : Bool} {sign : List Char} {ds : List (Fin 10)}
      (letter : e = 'e' ∨ e = 'E') (signed : SpellsSign negative sign) (present : ds ≠ []) :
      SpellsExponent
        (some (if negative then -(valueOfDigits ds : Int) else (valueOfDigits ds : Int)))
        (e :: (sign ++ ds.map digitChar))

/-- A number without its sign. -/
inductive SpellsUnsigned : Number → List Char → Prop where
  | parts {n : Number} {whole fraction exponent : List Char} (before : SpellsWhole n.whole whole)
      (after : SpellsFraction n.fraction fraction) (power : SpellsExponent n.exponent exponent) :
      SpellsUnsigned n (whole ++ (fraction ++ exponent))

/-- A number. -/
inductive SpellsNumber : Number → List Char → Prop where
  | plain {n : Number} {cs : List Char} (sign : n.negative = false) (size : SpellsUnsigned n cs) :
      SpellsNumber n cs
  | minus {n : Number} {cs : List Char} (sign : n.negative = true) (size : SpellsUnsigned n cs) :
      SpellsNumber n ('-' :: cs)

/-! ## Strings -/

/-- One character of a string, as it is or escaped. -/
inductive SpellsUnits : Text → List Char → Prop where
  | plain {c : Char} (printable : 0x20 ≤ c.toNat) (quote : c ≠ '"') (backslash : c ≠ '\\') :
      SpellsUnits (Text.ofChar c) [c]
  | short {c : Char} {unit : UInt16} (escaped : escapedUnit? c = some unit) :
      SpellsUnits [unit] ['\\', c]
  | hex {a b c d : Char} {unit : UInt16} (escaped : hexUnit? a b c d = some unit) :
      SpellsUnits [unit] ['\\', 'u', a, b, c, d]

/-- The characters of a string, one after another. -/
inductive SpellsInside : Text → List Char → Prop where
  | nil : SpellsInside [] []
  | cons {units more : Text} {cs rest : List Char} (first : SpellsUnits units cs)
      (others : SpellsInside more rest) : SpellsInside (units ++ more) (cs ++ rest)

/-- A string with its quotes. -/
inductive SpellsText : Text → List Char → Prop where
  | quoted {units : Text} {cs : List Char} (inside : SpellsInside units cs) :
      SpellsText units ('"' :: (cs ++ ['"']))

/-! ## Values -/

mutual

/-- A value, without blanks around it. -/
inductive Spells : Json → List Char → Prop where
  | null : Spells .null ['n', 'u', 'l', 'l']
  | yes : Spells (.bool true) ['t', 'r', 'u', 'e']
  | no : Spells (.bool false) ['f', 'a', 'l', 's', 'e']
  | number {n : Number} {cs : List Char} (digits : SpellsNumber n cs) : Spells (.number n) cs
  | text {units : Text} {cs : List Char} (quoted : SpellsText units cs) : Spells (.text units) cs
  | emptyArray {gap : List Char} (blank : Blank gap) : Spells (.array []) ('[' :: (gap ++ [']']))
  | array {items : List Json} {gap cs : List Char} (blank : Blank gap)
      (content : SpellsItems items cs) : Spells (.array items) ('[' :: (gap ++ cs))
  | emptyObject {gap : List Char} (blank : Blank gap) :
      Spells (.object []) ('{' :: (gap ++ ['}']))
  | object {members : List (Text × Json)} {gap cs : List Char} (blank : Blank gap)
      (content : SpellsMembers members cs) : Spells (.object members) ('{' :: (gap ++ cs))

/-- The items of an array, of which there is at least one, and the bracket that ends it. -/
inductive SpellsItems : List Json → List Char → Prop where
  | last {item : Json} {cs gap : List Char} (value : Spells item cs) (blank : Blank gap) :
      SpellsItems [item] (cs ++ (gap ++ [']']))
  | more {item : Json} {items : List Json} {cs gap gap' rest : List Char} (value : Spells item cs)
      (blank : Blank gap) (blank' : Blank gap') (others : SpellsItems items rest) :
      SpellsItems (item :: items) (cs ++ (gap ++ ',' :: (gap' ++ rest)))

/-- The members of an object, of which there is at least one, and the brace that ends it. -/
inductive SpellsMembers : List (Text × Json) → List Char → Prop where
  | last {member : Text × Json} {cs gap : List Char} (pair : SpellsMember member cs)
      (blank : Blank gap) : SpellsMembers [member] (cs ++ (gap ++ ['}']))
  | more {member : Text × Json} {members : List (Text × Json)} {cs gap gap' rest : List Char}
      (pair : SpellsMember member cs) (blank : Blank gap) (blank' : Blank gap')
      (others : SpellsMembers members rest) :
      SpellsMembers (member :: members) (cs ++ (gap ++ ',' :: (gap' ++ rest)))

/-- A key and its value. -/
inductive SpellsMember : Text × Json → List Char → Prop where
  | pair {key : Text} {item : Json} {ks gap gap' cs : List Char} (quoted : SpellsText key ks)
      (blank : Blank gap) (blank' : Blank gap') (value : Spells item cs) :
      SpellsMember (key, item) (ks ++ (gap ++ ':' :: (gap' ++ cs)))

end

/-- The text of a value, with any blanks around it. -/
inductive SpelledBy (value : Json) : String → Prop where
  | text {text : String} {before cs after : List Char} (blank : Blank before)
      (spells : Spells value cs) (blank' : Blank after)
      (split : text.toList = before ++ (cs ++ after)) : SpelledBy value text

/-- The characters start with a spelling of the value, and `rest` follows. -/
def StartsWith {α : Type} (spells : α → List Char → Prop) (value : α) (cs rest : List Char) :
    Prop :=
  ∃ front, spells value front ∧ cs = front ++ rest

end Json

end SlotSymmetry
