import SlotSymmetry.Proofs.Json.Exact

/-! # Reading what was written

    The writer spells every value, without blanks: the digits of a number are
    worth the number and start with a zero only if it is zero, and a unit that
    is not shown as it is stands as its four hexadecimal digits.  So reading the
    text of a value gives the value back. -/

namespace SlotSymmetry

namespace Json

/-! ## Numbers -/

theorem valueOfDigits_concat (ds : List (Fin 10)) (d : Fin 10) :
    valueOfDigits (ds ++ [d]) = 10 * valueOfDigits ds + d := by
  rw [valueOfDigits, List.foldl_append]
  rfl

/-- The digits of a number are worth the number. -/
theorem valueOfDigits_digitsOf (n : Nat) : valueOfDigits (digitsOf n) = n := by
  induction n using digitsOf.induct with
  | case1 n hlt =>
      rw [digitsOf, if_pos hlt]
      show 10 * 0 + n % 10 = n
      omega
  | case2 n hge ih =>
      rw [digitsOf, if_neg hge, valueOfDigits_concat, ih]
      show 10 * (n / 10) + n % 10 = n
      omega

/-- A number that is not zero does not start with a zero. -/
theorem exists_digitsOf {n : Nat} (hn : 0 < n) : ∃ d ds, digitsOf n = d :: ds ∧ d ≠ 0 := by
  induction n using digitsOf.induct with
  | case1 n hlt =>
      refine ⟨Fin.ofNat 10 n, [], by rw [digitsOf, if_pos hlt], fun hzero => ?_⟩
      have hval : n % 10 = 0 := congrArg Fin.val hzero
      omega
  | case2 n hge ih =>
      obtain ⟨d, ds, hds, hd⟩ := ih (by omega)
      refine ⟨d, ds ++ [Fin.ofNat 10 n], ?_, hd⟩
      rw [digitsOf, if_neg hge, hds, List.cons_append]

theorem digitsOf_ne_nil (n : Nat) : digitsOf n ≠ [] := by
  rw [digitsOf]
  split
  · exact List.cons_ne_nil _ _
  · exact List.append_ne_nil_of_right_ne_nil _ (List.cons_ne_nil _ _)

theorem writeNat_spells (n : Nat) : SpellsWhole n (writeNat n) := by
  rcases Nat.eq_zero_or_pos n with rfl | hn
  · rw [writeNat, digitsOf]
    exact .one 0
  · obtain ⟨d, ds, hds, hd⟩ := exists_digitsOf hn
    have hspells : SpellsWhole _ ((d :: ds).map digitChar) := .many hd
    rwa [← hds, valueOfDigits_digitsOf] at hspells

theorem writeFraction_spells (ds : List (Fin 10)) : SpellsFraction ds (writeFraction ds) := by
  cases ds with
  | nil => exact .absent
  | cons d ds => exact .digits (List.cons_ne_nil d ds)

theorem writeExponent_spells (exponent : Option Int) :
    SpellsExponent exponent (writeExponent exponent) := by
  match exponent with
  | none => exact .absent
  | some (.ofNat n) =>
      have hspells : SpellsExponent _ ('e' :: ([] ++ (digitsOf n).map digitChar)) :=
        .power (Or.inl rfl) .absent (digitsOf_ne_nil n)
      rwa [valueOfDigits_digitsOf] at hspells
  | some (.negSucc n) =>
      have hspells : SpellsExponent _ ('e' :: (['-'] ++ (digitsOf (n + 1)).map digitChar)) :=
        .power (Or.inl rfl) .minus (digitsOf_ne_nil (n + 1))
      rwa [valueOfDigits_digitsOf] at hspells

theorem writeNumber_spells (n : Number) : SpellsNumber n (writeNumber n) := by
  have hunsigned : SpellsUnsigned n
      (writeNat n.whole ++ (writeFraction n.fraction ++ writeExponent n.exponent)) :=
    .parts (writeNat_spells _) (writeFraction_spells _) (writeExponent_spells _)
  rw [writeNumber, List.append_assoc, List.append_assoc]
  cases hsign : n.negative with
  | false => exact .plain hsign hunsigned
  | true => exact .minus hsign hunsigned

/-! ## Strings -/

theorem hexDigit?_hexChar : ∀ d, d < 16 → hexDigit? (hexChar d) = some d := by decide

/-- The four hexadecimal digits of a unit. -/
theorem hexUnit?_digits (unit : UInt16) :
    hexUnit? (hexChar (unit.toNat / 4096)) (hexChar (unit.toNat / 256 % 16))
      (hexChar (unit.toNat / 16 % 16)) (hexChar (unit.toNat % 16)) = some unit := by
  have hlt : unit.toNat < 65536 := unit.toNat_lt
  rw [hexUnit?, hexDigit?_hexChar _ (by omega), hexDigit?_hexChar _ (by omega),
    hexDigit?_hexChar _ (by omega), hexDigit?_hexChar _ (by omega)]
  show some ((((16 * (unit.toNat / 4096) + unit.toNat / 256 % 16) * 16 + unit.toNat / 16 % 16) * 16
    + unit.toNat % 16).toUInt16) = some unit
  have hsum : ((16 * (unit.toNat / 4096) + unit.toNat / 256 % 16) * 16 + unit.toNat / 16 % 16) * 16
      + unit.toNat % 16 = unit.toNat := by omega
  rw [hsum]
  exact congrArg some UInt16.ofNat_toNat

theorem writeUnit_spells (unit : UInt16) : SpellsUnits [unit] (writeUnit unit) := by
  rw [writeUnit]
  split
  · rename_i hshown
    obtain ⟨hlow, hhigh, hquote, hbackslash⟩ := hshown
    have hnat : (Char.ofNat unit.toNat).toNat = unit.toNat := by
      rw [Char.ofNat, dif_pos (Or.inl (by omega))]
      rfl
    have hunits : Text.ofChar (Char.ofNat unit.toNat) = [unit] := by
      rw [Text.ofChar, hnat, if_pos (by omega)]
      exact congrArg (fun u => [u]) UInt16.ofNat_toNat
    rw [← hunits]
    refine .plain (by omega) (fun heq => hquote ?_) fun heq => hbackslash ?_
    · rw [← hnat, heq]
      rfl
    · rw [← hnat, heq]
      rfl
  · exact .hex (hexUnit?_digits unit)

theorem writeText_spells (units : Text) : SpellsText units (writeText units) := by
  refine .quoted ?_
  induction units with
  | nil => exact .nil
  | cons unit units ih => exact .cons (writeUnit_spells unit) ih

/-! ## Values -/

theorem Blank.nil : Blank [] := nofun

theorem writeText_spells_pair (key : Text) {item : Json} {cs : List Char} (h : Spells item cs) :
    SpellsMember (key, item) (writeText key ++ ':' :: cs) :=
  SpellsMember.pair (writeText_spells key) Blank.nil Blank.nil h

mutual

theorem write_spells : ∀ value : Json, Spells value (write value)
  | .null => by
      rw [write]
      exact .null
  | .bool true => by
      rw [write]
      exact .yes
  | .bool false => by
      rw [write]
      exact .no
  | .number n => by
      rw [write]
      exact .number (writeNumber_spells n)
  | .text units => by
      rw [write]
      exact .text (writeText_spells units)
  | .array [] => by
      rw [write, writeItems]
      exact .emptyArray Blank.nil
  | .array (item :: items) => by
      rw [write]
      exact .array Blank.nil (writeItems_spells (item :: items) (List.cons_ne_nil _ _))
  | .object [] => by
      rw [write, writeMembers]
      exact .emptyObject Blank.nil
  | .object (member :: members) => by
      rw [write]
      exact .object Blank.nil (writeMembers_spells (member :: members) (List.cons_ne_nil _ _))

theorem writeItems_spells : ∀ items : List Json, items ≠ [] → SpellsItems items (writeItems items)
  | [], h => absurd rfl h
  | [item], _ => by
      rw [writeItems]
      exact .last (write_spells item) Blank.nil
  | item :: next :: items, _ => by
      rw [writeItems]
      · exact .more (write_spells item) Blank.nil Blank.nil
          (writeItems_spells (next :: items) (List.cons_ne_nil _ _))
      · exact List.cons_ne_nil _ _

theorem writeMembers_spells : ∀ members : List (Text × Json), members ≠ [] →
    SpellsMembers members (writeMembers members)
  | [], h => absurd rfl h
  | [(key, item)], _ => by
      have hspells := SpellsMembers.last (writeText_spells_pair key (write_spells item)) Blank.nil
      rw [List.append_assoc] at hspells
      rw [writeMembers]
      exact hspells
  | (key, item) :: next :: members, _ => by
      have hspells := SpellsMembers.more (writeText_spells_pair key (write_spells item)) Blank.nil
        Blank.nil (writeMembers_spells (next :: members) (List.cons_ne_nil _ _))
      rw [List.append_assoc] at hspells
      rw [writeMembers]
      · exact hspells
      · exact List.cons_ne_nil _ _

end

/-- The text of a value spells it. -/
theorem render_spelledBy (value : Json) : SpelledBy value value.render := by
  refine .text Blank.nil (write_spells value) Blank.nil ?_
  rw [render, String.toList_ofList, List.append_nil, List.nil_append]

end Json

end SlotSymmetry
