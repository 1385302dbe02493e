import SlotSymmetry.Json.Grammar

/-! # Reading strings

    The reader of a string takes it up to the first quote that is not escaped.
    What it takes spells the units that it returns, and every spelling of a
    string is taken as a whole, as no character inside of one is a quote. -/

namespace SlotSymmetry

namespace Json

/-! ## One character -/

theorem readUnits_spelled {cs rest : List Char} {units : Text} (hquote : cs.head? ≠ some '"')
    (h : readUnits cs = some (units, rest)) : StartsWith SpellsUnits units cs rest := by
  rw [readUnits.eq_def] at h
  split at h
  · obtain ⟨unit, hunit, heq⟩ := Option.map_eq_some_iff.mp h
    obtain ⟨rfl, rfl⟩ := Prod.mk.inj heq
    exact ⟨_, .hex hunit, rfl⟩
  · obtain ⟨unit, hunit, heq⟩ := Option.map_eq_some_iff.mp h
    obtain ⟨rfl, rfl⟩ := Prod.mk.inj heq
    exact ⟨_, .short hunit, rfl⟩
  · rename_i c cs' _ _
    split at h
    · exact nomatch h
    · rename_i hplain
      obtain ⟨rfl, rfl⟩ := Prod.mk.inj (Option.some.inj h)
      rw [Bool.or_eq_true, decide_eq_true_iff, decide_eq_true_iff, not_or] at hplain
      refine ⟨[c], .plain (Nat.not_lt.mp hplain.1) (fun hc => hquote ?_) hplain.2, rfl⟩
      rw [hc]
      rfl
  · exact nomatch h

/-- A letter that stands for a unit after a backslash is no `u`. -/
theorem readUnits_short {c : Char} {unit : UInt16} (h : escapedUnit? c = some unit)
    (rest : List Char) : readUnits ('\\' :: c :: rest) = some ([unit], rest) := by
  rw [readUnits.eq_def]
  split
  · rename_i heq
    obtain ⟨rfl, -⟩ := List.cons.inj (List.cons.inj heq).2
    exact nomatch h
  · rename_i heq
    obtain ⟨rfl, rfl⟩ := List.cons.inj (List.cons.inj heq).2
    rw [h]
    rfl
  · rename_i hnone heq
    obtain ⟨rfl, rfl⟩ := List.cons.inj heq
    exact absurd rfl (hnone _ _ rfl)
  · rename_i heq
    exact nomatch heq

theorem readUnits_plain {c : Char} (hprintable : 0x20 ≤ c.toNat) (hbackslash : c ≠ '\\')
    (rest : List Char) : readUnits (c :: rest) = some (Text.ofChar c, rest) := by
  rw [readUnits.eq_def]
  split
  · rename_i heq
    exact absurd (List.cons.inj heq).1 hbackslash
  · rename_i heq
    exact absurd (List.cons.inj heq).1 hbackslash
  · rename_i heq
    obtain ⟨rfl, rfl⟩ := List.cons.inj heq
    rw [if_neg]
    rw [Bool.or_eq_true, decide_eq_true_iff, decide_eq_true_iff, not_or]
    exact ⟨Nat.not_lt.mpr hprintable, hbackslash⟩
  · rename_i heq
    exact nomatch heq

theorem SpellsUnits.read {units : Text} {cs : List Char} (h : SpellsUnits units cs)
    (rest : List Char) : readUnits (cs ++ rest) = some (units, rest) := by
  cases h with
  | plain hprintable _ hbackslash => exact readUnits_plain hprintable hbackslash rest
  | short hunit => exact readUnits_short hunit rest
  | hex hunit =>
      show (hexUnit? _ _ _ _).map _ = _
      rw [hunit]
      rfl

/-- A spelling of a unit does not start with a quote. -/
theorem SpellsUnits.head {units : Text} {cs : List Char} (h : SpellsUnits units cs) :
    ∃ c rest, cs = c :: rest ∧ c ≠ '"' := by
  cases h with
  | @plain c _ hquote _ => exact ⟨c, [], rfl, hquote⟩
  | short _ => exact ⟨_, _, rfl, by decide⟩
  | hex _ => exact ⟨_, _, rfl, by decide⟩

/-! ## Whole strings -/

theorem readText_of_ne {fuel : Nat} {cs : List Char} (h : cs.head? ≠ some '"') :
    readText (fuel + 1) cs = (readUnits cs).bind fun first =>
      (readText fuel first.2).map fun others => (first.1 ++ others.1, others.2) := by
  have hopen : ∀ inside, cs = '"' :: inside → False := by
    rintro inside rfl
    exact h rfl
  rw [readText]
  · cases readUnits cs with
    | none => rfl
    | some first =>
        show (readText fuel first.2 >>= _) = (readText fuel first.2).map _
        cases readText fuel first.2 <;> rfl
  · exact hopen

theorem readText_spelled {fuel : Nat} : ∀ {cs rest : List Char} {units : Text},
    readText fuel cs = some (units, rest) → StartsWith SpellsInside units cs ('"' :: rest) := by
  induction fuel with
  | zero => exact fun h => nomatch h
  | succ fuel ih =>
      intro cs rest units h
      by_cases hquote : cs.head? = some '"'
      · obtain ⟨cs', rfl⟩ := List.head?_eq_some_iff.mp hquote
        obtain ⟨rfl, rfl⟩ := Prod.mk.inj (Option.some.inj h)
        exact ⟨[], .nil, rfl⟩
      · rw [readText_of_ne hquote, Option.bind_eq_some_iff] at h
        obtain ⟨⟨first, cs'⟩, hfirst, h⟩ := h
        obtain ⟨⟨others, cs''⟩, hothers, heq⟩ := Option.map_eq_some_iff.mp h
        obtain ⟨rfl, rfl⟩ := Prod.mk.inj heq
        obtain ⟨front, hspells, rfl⟩ := readUnits_spelled hquote hfirst
        obtain ⟨front', hspells', hcs'⟩ := ih hothers
        have hcs'' : cs' = front' ++ '"' :: cs'' := hcs'
        exact ⟨front ++ front', .cons hspells hspells', by rw [hcs'', List.append_assoc]⟩

/-- A string is taken up to its closing quote, however much follows. -/
theorem SpellsInside.read {units : Text} {cs : List Char} (h : SpellsInside units cs)
    (rest : List Char) : ∀ fuel, cs.length < fuel →
      readText fuel (cs ++ '"' :: rest) = some (units, rest) := by
  induction h with
  | nil =>
      intro fuel hfuel
      obtain ⟨fuel, rfl⟩ := Nat.exists_eq_succ_of_ne_zero (Nat.ne_of_gt hfuel)
      rfl
  | @cons units more cs others hfirst _ ih =>
      intro fuel hfuel
      obtain ⟨fuel, rfl⟩ := Nat.exists_eq_succ_of_ne_zero (Nat.ne_of_gt (Nat.zero_lt_of_lt hfuel))
      obtain ⟨c, cs', rfl, hquote⟩ := hfirst.head
      rw [List.length_append, List.length_cons] at hfuel
      have hhead : (c :: cs' ++ others ++ '"' :: rest).head? ≠ some '"' :=
        fun heq => hquote (Option.some.inj heq)
      rw [readText_of_ne hhead, List.append_assoc, hfirst.read, Option.bind_some, ih fuel (by omega)]
      rfl

theorem readQuoted_spelled {cs rest : List Char} {units : Text}
    (h : readText (cs.length + 1) cs = some (units, rest)) :
    StartsWith SpellsText units ('"' :: cs) rest := by
  obtain ⟨front, hinside, rfl⟩ := readText_spelled h
  refine ⟨_, .quoted hinside, ?_⟩
  rw [List.cons_append, List.append_assoc, List.singleton_append]

theorem SpellsText.head {units : Text} {cs : List Char} (h : SpellsText units cs) :
    ∃ rest, cs = '"' :: rest := by
  cases h with
  | quoted _ => exact ⟨_, rfl⟩

/-- A quoted string is taken as a whole, once its opening quote is gone. -/
theorem SpellsText.read {units : Text} {cs : List Char} (h : SpellsText units cs)
    (rest : List Char) : ∃ inside, cs ++ rest = '"' :: inside
      ∧ readText (inside.length + 1) inside = some (units, rest) := by
  cases h with
  | @quoted cs hinside =>
      refine ⟨cs ++ '"' :: rest, ?_, hinside.read rest _ ?_⟩
      · rw [List.cons_append, List.append_assoc, List.singleton_append]
      · rw [List.length_append]
        omega

end Json

end SlotSymmetry
