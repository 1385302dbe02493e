import SlotSymmetry.Json.Value

/-! # The units of a string

    A character is one unit that is no surrogate, or a leading and a trailing
    one that it can be told from.  So the units of a string are well formed, and
    different strings have different units. -/

namespace SlotSymmetry

namespace Json

theorem isLeading_iff (unit : UInt16) :
    isLeading unit = true ↔ 0xD800 ≤ unit.toNat ∧ unit.toNat < 0xDC00 := by
  rw [isLeading, Bool.and_eq_true, decide_eq_true_iff, decide_eq_true_iff,
    UInt16.le_iff_toNat_le, UInt16.lt_iff_toNat_lt]
  rfl

theorem isTrailing_iff (unit : UInt16) :
    isTrailing unit = true ↔ 0xDC00 ≤ unit.toNat ∧ unit.toNat < 0xE000 := by
  rw [isTrailing, Bool.and_eq_true, decide_eq_true_iff, decide_eq_true_iff,
    UInt16.le_iff_toNat_le, UInt16.lt_iff_toNat_lt]
  rfl

/-- The units that a character has, and what they say about it. -/
inductive CharUnits (c : Char) : Text → Prop where
  | one {unit : UInt16} (leading : isLeading unit = false) (trailing : isTrailing unit = false)
      (code : c.toNat = unit.toNat) : CharUnits c [unit]
  | pair {first second : UInt16} (leading : isLeading first = true)
      (trailing : isTrailing second = true)
      (code : c.toNat
        = 0x10000 + (first.toNat - 0xD800) * 0x400 + (second.toNat - 0xDC00)) :
      CharUnits c [first, second]

theorem charUnits_ofChar (c : Char) : CharUnits c (Text.ofChar c) := by
  have hvalid : c.toNat < 0xD800 ∨ 0xDFFF < c.toNat ∧ c.toNat < 0x110000 := c.valid
  rw [Text.ofChar]
  split
  · have hunit : c.toNat.toUInt16.toNat = c.toNat := UInt16.toNat_ofNat_of_lt (by omega)
    refine .one ?_ ?_ hunit.symm
    · rw [Bool.eq_false_iff, ne_eq, isLeading_iff, hunit]
      omega
    · rw [Bool.eq_false_iff, ne_eq, isTrailing_iff, hunit]
      omega
  · dsimp only
    have hfirst : (0xD800 + (c.toNat - 0x10000) / 0x400).toUInt16.toNat
        = 0xD800 + (c.toNat - 0x10000) / 0x400 :=
      UInt16.toNat_ofNat_of_lt (Nat.lt_trans (by omega : _ < 0xDC00) (by decide))
    have hsecond : (0xDC00 + (c.toNat - 0x10000) % 0x400).toUInt16.toNat
        = 0xDC00 + (c.toNat - 0x10000) % 0x400 :=
      UInt16.toNat_ofNat_of_lt (Nat.lt_trans (by omega : _ < 0xE000) (by decide))
    refine .pair ?_ ?_ ?_
    · rw [isLeading_iff, hfirst]
      omega
    · rw [isTrailing_iff, hsecond]
      omega
    · rw [hfirst, hsecond]
      omega

/-- The first character can be told from the units. -/
theorem CharUnits.unique {c d : Char} {us vs more others : Text} (hc : CharUnits c us)
    (hd : CharUnits d vs) (h : us ++ more = vs ++ others) : c = d ∧ more = others := by
  cases hc with
  | one hleading _ hcode =>
      cases hd with
      | one _ _ hcode' =>
          obtain ⟨rfl, rfl⟩ := List.cons.inj h
          exact ⟨Char.toNat_inj.mp (hcode.trans hcode'.symm), rfl⟩
      | pair hleading' _ _ =>
          obtain ⟨rfl, -⟩ := List.cons.inj h
          rw [hleading] at hleading'
          exact nomatch hleading'
  | pair hleading _ hcode =>
      cases hd with
      | one hleading' _ _ =>
          obtain ⟨rfl, -⟩ := List.cons.inj h
          rw [hleading] at hleading'
          exact nomatch hleading'
      | pair _ _ hcode' =>
          obtain ⟨rfl, htail⟩ := List.cons.inj h
          obtain ⟨rfl, rfl⟩ := List.cons.inj htail
          exact ⟨Char.toNat_inj.mp (hcode.trans hcode'.symm), rfl⟩

theorem CharUnits.wellFormed_append {c : Char} {us : Text} (h : CharUnits c us) (more : Text) :
    Text.wellFormed (us ++ more) = Text.wellFormed more := by
  cases h with
  | one hleading htrailing _ =>
      rw [List.singleton_append, Text.wellFormed.eq_def]
      simp [hleading, htrailing]
  | @pair first second hleading htrailing _ =>
      have hfirst : isTrailing first = false := by
        rw [Bool.eq_false_iff, ne_eq, isTrailing_iff]
        have := (isLeading_iff first).mp hleading
        omega
      rw [List.cons_append, List.singleton_append, Text.wellFormed.eq_def]
      simp [hleading, htrailing, hfirst]

theorem CharUnits.ne_nil {c : Char} {us : Text} (h : CharUnits c us) : us ≠ [] := by
  cases h <;> exact List.cons_ne_nil _ _

/-- Different strings have different units. -/
theorem ofString_injective {s t : String} (h : Text.ofString s = Text.ofString t) : s = t := by
  refine String.toList_inj.mp ?_
  rw [Text.ofString, Text.ofString] at h
  generalize s.toList = cs at h
  generalize t.toList = ds at h
  induction cs generalizing ds with
  | nil =>
      cases ds with
      | nil => rfl
      | cons d ds => exact absurd (List.append_eq_nil_iff.mp h.symm).1 (charUnits_ofChar d).ne_nil
  | cons c cs ih =>
      cases ds with
      | nil => exact absurd (List.append_eq_nil_iff.mp h).1 (charUnits_ofChar c).ne_nil
      | cons d ds =>
          obtain ⟨rfl, hrest⟩ := (charUnits_ofChar c).unique (charUnits_ofChar d) h
          rw [ih ds hrest]

theorem ofString_wellFormed (s : String) : (Text.ofString s).wellFormed = true := by
  rw [Text.ofString]
  induction s.toList with
  | nil => rfl
  | cons c cs ih =>
      rw [List.flatMap_cons, (charUnits_ofChar c).wellFormed_append, ih]

end Json

end SlotSymmetry
