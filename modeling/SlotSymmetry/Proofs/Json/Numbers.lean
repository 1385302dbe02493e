import SlotSymmetry.Json.Grammar

/-! # Reading numbers

    The readers of the parts of a number take exactly what the grammar calls
    one: what is read is spelled by the characters that were taken, and a
    spelling is taken as a whole if what follows does not go on with it
    (`Ends`). -/

namespace SlotSymmetry

namespace Json

/-- No digit comes first. -/
def NoDigit (cs : List Char) : Prop := ∀ c, cs.head? = some c → digit? c = none

/-- Nothing comes first that goes on with a number. -/
def Ends (cs : List Char) : Prop :=
  ∀ c, cs.head? = some c → digit? c = none ∧ c ≠ '.' ∧ c ≠ 'e' ∧ c ≠ 'E'

/-! ## Digits -/

theorem digit?_digitChar : ∀ d : Fin 10, digit? (digitChar d) = some d := by decide

theorem digitChar_ne {c : Char} (h : digit? c = none) (d : Fin 10) : digitChar d ≠ c := by
  rintro rfl
  rw [digit?_digitChar] at h
  exact nomatch h

theorem digitChar_of_digit? {c : Char} {d : Fin 10} (h : digit? c = some d) : digitChar d = c := by
  rw [digit?] at h
  split at h
  · rename_i hrange
    have hlow : 48 ≤ c.toNat := hrange.1
    have hhigh : c.toNat ≤ 57 := hrange.2
    rw [← Option.some.inj h, digitChar]
    show Char.ofNat (48 + (c.toNat - 48) % 10) = c
    rw [Nat.mod_eq_of_lt (by omega), Nat.add_sub_cancel' hlow, Char.ofNat_toNat]
  · exact nomatch h

theorem NoDigit.nil : NoDigit [] := nofun

theorem NoDigit.cons {c : Char} {cs : List Char} (h : digit? c = none) : NoDigit (c :: cs) := by
  intro c' hc
  rwa [← Option.some.inj hc]

theorem Ends.noDigit {cs : List Char} (h : Ends cs) : NoDigit cs := fun c hc => (h c hc).1

theorem readDigits_spelled {cs rest : List Char} {ds : List (Fin 10)}
    (h : readDigits cs = (ds, rest)) : cs = ds.map digitChar ++ rest := by
  induction cs generalizing ds with
  | nil =>
      obtain ⟨rfl, rfl⟩ := Prod.mk.inj h
      rfl
  | cons c cs ih =>
      rw [readDigits] at h
      split at h
      · obtain ⟨rfl, rfl⟩ := Prod.mk.inj h
        rfl
      · rename_i d hd
        obtain ⟨rfl, rfl⟩ := Prod.mk.inj h
        rw [List.map_cons, List.cons_append, ← ih rfl, digitChar_of_digit? hd]

/-- A run of digits is taken up to its end. -/
theorem readDigits_append (ds : List (Fin 10)) {rest : List Char} (h : NoDigit rest) :
    readDigits (ds.map digitChar ++ rest) = (ds, rest) := by
  induction ds with
  | nil =>
      cases rest with
      | nil => rfl
      | cons c rest =>
          show readDigits (c :: rest) = _
          rw [readDigits, h c rfl]
  | cons d ds ih =>
      rw [List.map_cons, List.cons_append, readDigits, digit?_digitChar]
      show (d :: (readDigits (ds.map digitChar ++ rest)).1, _) = _
      rw [ih]

/-! ## The parts of a number -/

theorem readWhole_spelled {cs rest : List Char} {n : Nat} (h : readWhole cs = some (n, rest)) :
    StartsWith SpellsWhole n cs rest := by
  rw [readWhole] at h
  split at h
  · exact nomatch h
  · rename_i d rest' hread
    obtain ⟨rfl, rfl⟩ := Prod.mk.inj (Option.some.inj h)
    exact ⟨_, .one d, readDigits_spelled hread⟩
  · rename_i d ds rest' _ hread
    split at h
    · exact nomatch h
    · rename_i hfirst
      obtain ⟨rfl, rfl⟩ := Prod.mk.inj (Option.some.inj h)
      exact ⟨_, .many hfirst, readDigits_spelled hread⟩

theorem SpellsWhole.read {n : Nat} {cs rest : List Char} (h : SpellsWhole n cs)
    (hrest : NoDigit rest) : readWhole (cs ++ rest) = some (n, rest) := by
  cases h with
  | one d =>
      have hread := readDigits_append [d] hrest
      rw [List.map_singleton] at hread
      rw [readWhole, hread]
  | @many d ds hfirst =>
      rw [readWhole, readDigits_append _ hrest]
      cases ds with
      | nil => simp [valueOfDigits]
      | cons d' ds => exact if_neg hfirst

theorem readFraction_spelled {cs rest : List Char} {ds : List (Fin 10)}
    (h : readFraction cs = some (ds, rest)) : StartsWith SpellsFraction ds cs rest := by
  rw [readFraction.eq_def] at h
  split at h
  · split at h
    · exact nomatch h
    · rename_i hsome hread
      obtain ⟨rfl, rfl⟩ := Prod.mk.inj (Option.some.inj h)
      exact ⟨_, .digits hsome, congrArg _ (readDigits_spelled hread)⟩
  · obtain ⟨rfl, rfl⟩ := Prod.mk.inj (Option.some.inj h)
    exact ⟨[], .absent, rfl⟩

theorem SpellsFraction.read {ds : List (Fin 10)} {cs rest : List Char} (h : SpellsFraction ds cs)
    (hrest : NoDigit rest) (hpoint : rest.head? ≠ some '.') :
    readFraction (cs ++ rest) = some (ds, rest) := by
  cases h with
  | absent =>
      rw [List.nil_append, readFraction.eq_def]
      split
      · exact absurd rfl hpoint
      · rfl
  | digits hpresent =>
      rw [List.cons_append, readFraction, readDigits_append _ hrest]
      split
      · rename_i heq
        exact absurd (Prod.mk.inj heq).1 hpresent
      · rename_i heq
        rw [(Prod.mk.inj heq).1, (Prod.mk.inj heq).2]

theorem readSign_spelled {cs rest : List Char} {negative : Bool}
    (h : readSign cs = (negative, rest)) : StartsWith SpellsSign negative cs rest := by
  rw [readSign.eq_def] at h
  split at h <;> obtain ⟨rfl, rfl⟩ := Prod.mk.inj h
  · exact ⟨_, .minus, rfl⟩
  · exact ⟨_, .plus, rfl⟩
  · exact ⟨_, .absent, rfl⟩

/-- The digits of an exponent do not go on with its sign. -/
theorem SpellsSign.read {negative : Bool} {cs : List Char} (h : SpellsSign negative cs) (d : Fin 10)
    (rest : List Char) : readSign (cs ++ digitChar d :: rest) = (negative, digitChar d :: rest) := by
  cases h with
  | absent =>
      rw [List.nil_append, readSign.eq_def]
      split
      · rename_i heq
        exact absurd (List.cons.inj heq).1 (digitChar_ne (by decide) d)
      · rename_i heq
        exact absurd (List.cons.inj heq).1 (digitChar_ne (by decide) d)
      · rfl
  | plus => rfl
  | minus => rfl

theorem readExponent_spelled {cs rest : List Char} {exponent : Option Int}
    (h : readExponent cs = some (exponent, rest)) : StartsWith SpellsExponent exponent cs rest := by
  cases cs with
  | nil =>
      obtain ⟨rfl, rfl⟩ := Prod.mk.inj (Option.some.inj h)
      exact ⟨[], .absent, rfl⟩
  | cons c cs =>
      rw [readExponent] at h
      split at h
      · rename_i hletter
        rw [Bool.or_eq_true, decide_eq_true_iff, decide_eq_true_iff] at hletter
        obtain ⟨sign, hsign, hcs⟩ := readSign_spelled (Prod.eta (readSign cs)).symm
        dsimp only at h
        split at h
        · exact nomatch h
        · rename_i hsome hread
          obtain ⟨rfl, rfl⟩ := Prod.mk.inj (Option.some.inj h)
          refine ⟨_, .power hletter hsign hsome, ?_⟩
          rw [hcs, readDigits_spelled hread, List.cons_append, List.append_assoc]
      · obtain ⟨rfl, rfl⟩ := Prod.mk.inj (Option.some.inj h)
        exact ⟨[], .absent, rfl⟩

theorem SpellsExponent.read {exponent : Option Int} {cs rest : List Char}
    (h : SpellsExponent exponent cs) (hrest : Ends rest) :
    readExponent (cs ++ rest) = some (exponent, rest) := by
  cases h with
  | absent =>
      cases rest with
      | nil => rfl
      | cons c rest =>
          obtain ⟨-, -, hlower, hupper⟩ := hrest c rfl
          rw [List.nil_append, readExponent, if_neg]
          rw [Bool.or_eq_true, decide_eq_true_iff, decide_eq_true_iff]
          exact not_or.mpr ⟨hlower, hupper⟩
  | @power e negative sign ds hletter hsign hpresent =>
      cases ds with
      | nil => exact absurd rfl hpresent
      | cons d ds =>
          have hdigits := readDigits_append (d :: ds) hrest.noDigit
          rw [List.map_cons, List.cons_append] at hdigits
          rw [List.cons_append, readExponent, if_pos, List.append_assoc, List.map_cons,
            List.cons_append, hsign.read]
          · dsimp only
            rw [hdigits]
          · rwa [Bool.or_eq_true, decide_eq_true_iff, decide_eq_true_iff]

/-! ## Numbers -/

theorem readUnsigned_spelled {negative : Bool} {cs rest : List Char} {n : Number}
    (h : readUnsigned negative cs = some (n, rest)) :
    n.negative = negative ∧ StartsWith SpellsUnsigned n cs rest := by
  simp only [readUnsigned, Option.bind_eq_bind, Option.bind_eq_some_iff, Prod.exists] at h
  obtain ⟨whole, cs', hwhole, fraction, cs'', hfraction, exponent, cs''', hexponent, hn⟩ := h
  obtain ⟨rfl, rfl⟩ := Prod.mk.inj (Option.some.inj hn)
  obtain ⟨front, hspells, rfl⟩ := readWhole_spelled hwhole
  obtain ⟨front', hspells', rfl⟩ := readFraction_spelled hfraction
  obtain ⟨front'', hspells'', rfl⟩ := readExponent_spelled hexponent
  refine ⟨rfl, _, .parts hspells hspells' hspells'', ?_⟩
  rw [List.append_assoc, List.append_assoc]

/-- What follows a whole part is no digit. -/
theorem SpellsFraction.noDigit {ds : List (Fin 10)} {cs rest : List Char}
    (h : SpellsFraction ds cs) (hrest : NoDigit rest) : NoDigit (cs ++ rest) := by
  cases h with
  | absent => exact hrest
  | digits _ => exact NoDigit.cons (by decide)

/-- What follows a fraction is no digit and no point. -/
theorem SpellsExponent.noDigit {exponent : Option Int} {cs rest : List Char}
    (h : SpellsExponent exponent cs) (hrest : Ends rest) :
    NoDigit (cs ++ rest) ∧ (cs ++ rest).head? ≠ some '.' := by
  cases h with
  | absent => exact ⟨hrest.noDigit, fun hpoint => (hrest _ hpoint).2.1 rfl⟩
  | power hletter _ _ =>
      rcases hletter with rfl | rfl
      · exact ⟨NoDigit.cons (by decide), fun hpoint => nomatch Option.some.inj hpoint⟩
      · exact ⟨NoDigit.cons (by decide), fun hpoint => nomatch Option.some.inj hpoint⟩

theorem SpellsUnsigned.read {n : Number} {cs rest : List Char} (h : SpellsUnsigned n cs)
    (hrest : Ends rest) : readUnsigned n.negative (cs ++ rest) = some (n, rest) := by
  cases h with
  | parts hwhole hfraction hexponent =>
      obtain ⟨hdigit, hpoint⟩ := hexponent.noDigit hrest
      rw [List.append_assoc, List.append_assoc, readUnsigned,
        hwhole.read (hfraction.noDigit hdigit)]
      show (readFraction _ >>= _) = _
      rw [hfraction.read hdigit hpoint]
      show (readExponent _ >>= _) = _
      rw [hexponent.read hrest]
      rfl

theorem SpellsWhole.head {n : Nat} {cs : List Char} (h : SpellsWhole n cs) :
    ∃ d rest, cs = digitChar d :: rest := by
  cases h with
  | one d => exact ⟨d, [], rfl⟩
  | many _ => exact ⟨_, _, rfl⟩

theorem SpellsUnsigned.head {n : Number} {cs : List Char} (h : SpellsUnsigned n cs) :
    ∃ d rest, cs = digitChar d :: rest := by
  cases h with
  | parts hwhole _ _ =>
      obtain ⟨d, rest, rfl⟩ := hwhole.head
      exact ⟨d, _, rfl⟩

theorem readNumber_spelled {cs rest : List Char} {n : Number}
    (h : readNumber cs = some (n, rest)) : StartsWith SpellsNumber n cs rest := by
  rw [readNumber.eq_def] at h
  split at h
  · obtain ⟨hsign, front, hspells, rfl⟩ := readUnsigned_spelled h
    exact ⟨_, .minus hsign hspells, rfl⟩
  · obtain ⟨hsign, front, hspells, rfl⟩ := readUnsigned_spelled h
    exact ⟨_, .plain hsign hspells, rfl⟩

theorem SpellsNumber.read {n : Number} {cs rest : List Char} (h : SpellsNumber n cs)
    (hrest : Ends rest) : readNumber (cs ++ rest) = some (n, rest) := by
  cases h with
  | plain hsign hsize =>
      have hread := hsize.read hrest
      obtain ⟨d, cs', rfl⟩ := hsize.head
      rw [hsign] at hread
      rw [readNumber.eq_def]
      split
      · rename_i heq
        exact absurd (List.cons.inj heq).1 (digitChar_ne (by decide) d)
      · exact hread
  | minus hsign hsize =>
      have hread := hsize.read hrest
      rwa [hsign] at hread

/-- A number starts with its sign or with a digit. -/
theorem SpellsNumber.head {n : Number} {cs : List Char} (h : SpellsNumber n cs) :
    ∃ c rest, cs = c :: rest ∧ (c = '-' ∨ ∃ d, c = digitChar d) := by
  cases h with
  | plain _ hsize =>
      obtain ⟨d, rest, rfl⟩ := hsize.head
      exact ⟨_, _, rfl, Or.inr ⟨d, rfl⟩⟩
  | minus _ _ => exact ⟨_, _, rfl, Or.inl rfl⟩

end Json

end SlotSymmetry
