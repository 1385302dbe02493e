import Mathlib.Data.Fintype.Basic
import Mathlib.Data.List.TakeWhile
import Mathlib.Tactic.FinCases
import SlotSymmetry.Proofs.Json.Numbers
import SlotSymmetry.Proofs.Json.Strings

/-! # Reading values

    The reader of a whole text finds a value exactly if the text spells it.  One
    direction goes by the fuel: whatever a reader returns is spelled by the
    characters that it took.  The other goes by the spelling: it is taken as a
    whole if nothing follows that goes on with a number and the fuel is not less
    than its length, since every nested reader is left with fewer characters. -/

namespace SlotSymmetry

namespace Json

section Gaps

variable {gap rest : List Char}

theorem skipBlanks_split (cs : List Char) : ∃ gap, Blank gap ∧ cs = gap ++ skipBlanks cs := by
  refine ⟨cs.takeWhile isBlank, ?_, List.takeWhile_append_dropWhile.symm⟩
  exact List.all_eq_true.mp List.all_takeWhile

theorem skipBlanks_append (h : Blank gap) {c : Char} (hc : isBlank c = false) :
    skipBlanks (gap ++ c :: rest) = c :: rest := by
  rw [skipBlanks, List.dropWhile_append_of_pos h, List.dropWhile_cons_of_neg]
  rw [hc]
  exact Bool.false_ne_true

theorem Blank.skip (h : Blank gap) : skipBlanks gap = [] :=
  List.dropWhile_eq_nil_iff.mpr h

theorem Ends.nil : Ends [] := nofun

theorem Ends.cons {c : Char} (h : digit? c = none ∧ c ≠ '.' ∧ c ≠ 'e' ∧ c ≠ 'E') :
    Ends (c :: rest) := by
  intro c' hc
  rwa [← Option.some.inj hc]

/-- A blank does not go on with a number. -/
theorem Ends.after_gap (h : Blank gap) (hrest : Ends rest) : Ends (gap ++ rest) := by
  cases gap with
  | nil => exact hrest
  | cons c gap =>
      have hblank := h c List.mem_cons_self
      simp only [isBlank, Bool.or_eq_true, decide_eq_true_iff] at hblank
      refine Ends.cons ?_
      rcases hblank with ((rfl | rfl) | rfl) | rfl <;> decide

end Gaps

/-! ## What comes first -/

theorem startsNumber_head {c : Char} (h : c = '-' ∨ ∃ d, c = digitChar d) :
    isBlank c = false ∧ c ≠ ']' := by
  rcases h with rfl | ⟨d, rfl⟩
  · decide
  · revert d
    decide

theorem Spells.head {value : Json} {cs : List Char} (h : Spells value cs) :
    ∃ c rest, cs = c :: rest ∧ isBlank c = false ∧ c ≠ ']' := by
  cases h with
  | number hnumber =>
      obtain ⟨c, rest, rfl, hc⟩ := hnumber.head
      exact ⟨c, rest, rfl, startsNumber_head hc⟩
  | text hquoted =>
      obtain ⟨rest, rfl⟩ := hquoted.head
      exact ⟨_, _, rfl, by decide⟩
  | _ => exact ⟨_, _, rfl, by decide⟩

theorem SpellsItems.head {items : List Json} {cs : List Char} (h : SpellsItems items cs) :
    ∃ c rest, cs = c :: rest ∧ isBlank c = false ∧ c ≠ ']' := by
  cases h with
  | last hvalue _ =>
      obtain ⟨c, rest, rfl, hc⟩ := hvalue.head
      exact ⟨c, _, rfl, hc⟩
  | more hvalue _ _ _ =>
      obtain ⟨c, rest, rfl, hc⟩ := hvalue.head
      exact ⟨c, _, rfl, hc⟩

theorem SpellsMember.head {member : Text × Json} {cs : List Char} (h : SpellsMember member cs) :
    ∃ rest, cs = '"' :: rest := by
  cases h with
  | pair hquoted _ _ _ =>
      obtain ⟨rest, rfl⟩ := hquoted.head
      exact ⟨_, rfl⟩

theorem SpellsMembers.head {members : List (Text × Json)} {cs : List Char}
    (h : SpellsMembers members cs) : ∃ rest, cs = '"' :: rest := by
  cases h with
  | last hpair _ =>
      obtain ⟨rest, rfl⟩ := hpair.head
      exact ⟨_, rfl⟩
  | more hpair _ _ _ =>
      obtain ⟨rest, rfl⟩ := hpair.head
      exact ⟨_, rfl⟩

/-! ## One step of the readers -/

section Steps

variable {fuel : Nat} {c : Char} {cs rest : List Char}

theorem readValue_number (h : c = '-' ∨ ∃ d, c = digitChar d) :
    readValue (fuel + 1) (c :: cs) = (readNumber (c :: cs)).map fun r => (.number r.1, r.2) := by
  rcases h with rfl | ⟨d, rfl⟩
  · rfl
  · fin_cases d <;> rfl

theorem readValue_text :
    readValue (fuel + 1) ('"' :: cs)
      = (readText (cs.length + 1) cs).map fun r => (.text r.1, r.2) := rfl

theorem readValue_emptyArray (h : skipBlanks cs = ']' :: rest) :
    readValue (fuel + 1) ('[' :: cs) = some (.array [], rest) := by
  rw [readValue, h]
  rfl

theorem readValue_array (h : skipBlanks cs = c :: rest) (hc : c ≠ ']') :
    readValue (fuel + 1) ('[' :: cs)
      = (readItems fuel (c :: rest)).map fun r => (.array r.1, r.2) := by
  rw [readValue, h]
  split
  · rename_i heq
    exact absurd (List.cons.inj heq).1 hc
  · rfl

theorem readValue_emptyObject (h : skipBlanks cs = '}' :: rest) :
    readValue (fuel + 1) ('{' :: cs) = some (.object [], rest) := by
  rw [readValue, h]
  rfl

theorem readValue_object (h : skipBlanks cs = c :: rest) (hc : c ≠ '}') :
    readValue (fuel + 1) ('{' :: cs)
      = (readMembers fuel (c :: rest)).map fun r => (.object r.1, r.2) := by
  rw [readValue, h]
  split
  · rename_i heq
    exact absurd (List.cons.inj heq).1 hc
  · rfl

theorem readItems_last {item : Json} {after : List Char}
    (hvalue : readValue fuel cs = some (item, after)) (h : skipBlanks after = ']' :: rest) :
    readItems (fuel + 1) cs = some ([item], rest) := by
  simp only [readItems, hvalue, h]

theorem readItems_more {item : Json} {after : List Char}
    (hvalue : readValue fuel cs = some (item, after)) (h : skipBlanks after = ',' :: rest) :
    readItems (fuel + 1) cs
      = (readItems fuel (skipBlanks rest)).map fun r => (item :: r.1, r.2) := by
  simp only [readItems, hvalue, h]

/-- The reader of members finds this one first, and these characters after it. -/
inductive FindsMember (fuel : Nat) (cs : List Char) (member : Text × Json) (after : List Char) :
    Prop where
  | pair {inside colon item : List Char} (quote : cs = '"' :: inside)
      (key : readText (inside.length + 1) inside = some (member.1, colon))
      (mark : skipBlanks colon = ':' :: item)
      (value : readValue fuel (skipBlanks item) = some (member.2, after)) :
      FindsMember fuel cs member after

theorem FindsMember.last {member : Text × Json} {after : List Char}
    (hmember : FindsMember fuel cs member after) (h : skipBlanks after = '}' :: rest) :
    readMembers (fuel + 1) cs = some ([member], rest) := by
  obtain ⟨rfl, hkey, hmark, hvalue⟩ := hmember
  simp only [readMembers, hkey, hmark, hvalue, h]

theorem FindsMember.more {member : Text × Json} {after : List Char}
    (hmember : FindsMember fuel cs member after) (h : skipBlanks after = ',' :: rest) :
    readMembers (fuel + 1) cs
      = (readMembers fuel (skipBlanks rest)).map fun r => (member :: r.1, r.2) := by
  obtain ⟨rfl, hkey, hmark, hvalue⟩ := hmember
  simp only [readMembers, hkey, hmark, hvalue, h]

end Steps

/-! ## What is read is spelled -/

section Spelled

variable {fuel : Nat} {cs rest : List Char}

theorem readItems_cases {items : List Json} (h : readItems (fuel + 1) cs = some (items, rest)) :
    ∃ item after, readValue fuel cs = some (item, after)
      ∧ ((skipBlanks after = ']' :: rest ∧ items = [item])
        ∨ ∃ tail others, skipBlanks after = ',' :: tail
          ∧ readItems fuel (skipBlanks tail) = some (others, rest) ∧ items = item :: others) := by
  rw [readItems] at h
  split at h
  · exact nomatch h
  · rename_i item after hvalue
    refine ⟨item, after, hvalue, ?_⟩
    split at h
    · rename_i hend
      obtain ⟨rfl, rfl⟩ := Prod.mk.inj (Option.some.inj h)
      exact Or.inl ⟨hend, rfl⟩
    · rename_i hmore
      obtain ⟨⟨others, tail⟩, hothers, heq⟩ := Option.map_eq_some_iff.mp h
      obtain ⟨rfl, rfl⟩ := Prod.mk.inj heq
      exact Or.inr ⟨_, others, hmore, hothers, rfl⟩
    · exact nomatch h

theorem readMembers_cases {members : List (Text × Json)}
    (h : readMembers (fuel + 1) cs = some (members, rest)) :
    ∃ member after, FindsMember fuel cs member after
      ∧ ((skipBlanks after = '}' :: rest ∧ members = [member])
        ∨ ∃ tail others, skipBlanks after = ',' :: tail
          ∧ readMembers fuel (skipBlanks tail) = some (others, rest)
          ∧ members = member :: others) := by
  rw [readMembers.eq_def] at h
  split at h
  · contradiction
  · rename_i heq
    obtain rfl := Nat.succ.inj heq
    split at h
    · exact nomatch h
    · rename_i key colon hkey
      split at h
      · rename_i hmark
        split at h
        · exact nomatch h
        · rename_i item after hvalue
          refine ⟨(key, item), after, .pair rfl hkey hmark hvalue, ?_⟩
          split at h
          · rename_i hend
            obtain ⟨rfl, rfl⟩ := Prod.mk.inj (Option.some.inj h)
            exact Or.inl ⟨hend, rfl⟩
          · rename_i hmore
            obtain ⟨⟨others, tail⟩, hothers, heq⟩ := Option.map_eq_some_iff.mp h
            obtain ⟨rfl, rfl⟩ := Prod.mk.inj heq
            exact Or.inr ⟨_, others, hmore, hothers, rfl⟩
          · exact nomatch h
      · exact nomatch h
  · exact nomatch h

variable (hvalue : ∀ {cs rest value}, readValue fuel cs = some (value, rest) →
    StartsWith Spells value cs rest)
  (hitems : ∀ {cs rest items}, readItems fuel cs = some (items, rest) →
    StartsWith SpellsItems items cs rest)
  (hmembers : ∀ {cs rest members}, readMembers fuel cs = some (members, rest) →
    StartsWith SpellsMembers members cs rest)

include hitems hmembers in
theorem readValue_spelled_succ {value : Json} (h : readValue (fuel + 1) cs = some (value, rest)) :
    StartsWith Spells value cs rest := by
  rw [readValue.eq_def] at h
  split at h
  · contradiction
  · obtain ⟨rfl, rfl⟩ := Prod.mk.inj (Option.some.inj h)
    exact ⟨_, .null, rfl⟩
  · obtain ⟨rfl, rfl⟩ := Prod.mk.inj (Option.some.inj h)
    exact ⟨_, .yes, rfl⟩
  · obtain ⟨rfl, rfl⟩ := Prod.mk.inj (Option.some.inj h)
    exact ⟨_, .no, rfl⟩
  · obtain ⟨⟨units, rest'⟩, hread, heq⟩ := Option.map_eq_some_iff.mp h
    obtain ⟨rfl, rfl⟩ := Prod.mk.inj heq
    obtain ⟨front, hquoted, hcs⟩ := readQuoted_spelled hread
    exact ⟨front, .text hquoted, hcs⟩
  · rename_i cs' heq
    obtain rfl := Nat.succ.inj heq
    obtain ⟨gap, hgap, hcs⟩ := skipBlanks_split cs'
    split at h
    · rename_i hend
      obtain ⟨rfl, rfl⟩ := Prod.mk.inj (Option.some.inj h)
      refine ⟨_, .emptyArray hgap, ?_⟩
      rw [hcs, hend, List.cons_append, List.append_assoc, List.singleton_append]
    · obtain ⟨⟨items, rest'⟩, hread, heq⟩ := Option.map_eq_some_iff.mp h
      obtain ⟨rfl, rfl⟩ := Prod.mk.inj heq
      obtain ⟨front, hspells, hfront⟩ := hitems hread
      refine ⟨_, .array hgap hspells, ?_⟩
      rw [hcs, hfront, List.cons_append, List.append_assoc]
  · rename_i cs' heq
    obtain rfl := Nat.succ.inj heq
    obtain ⟨gap, hgap, hcs⟩ := skipBlanks_split cs'
    split at h
    · rename_i hend
      obtain ⟨rfl, rfl⟩ := Prod.mk.inj (Option.some.inj h)
      refine ⟨_, .emptyObject hgap, ?_⟩
      rw [hcs, hend, List.cons_append, List.append_assoc, List.singleton_append]
    · obtain ⟨⟨members, rest'⟩, hread, heq⟩ := Option.map_eq_some_iff.mp h
      obtain ⟨rfl, rfl⟩ := Prod.mk.inj heq
      obtain ⟨front, hspells, hfront⟩ := hmembers hread
      refine ⟨_, .object hgap hspells, ?_⟩
      rw [hcs, hfront, List.cons_append, List.append_assoc]
  · obtain ⟨⟨n, rest'⟩, hread, heq⟩ := Option.map_eq_some_iff.mp h
    obtain ⟨rfl, rfl⟩ := Prod.mk.inj heq
    obtain ⟨front, hspells, hcs⟩ := readNumber_spelled hread
    exact ⟨front, .number hspells, hcs⟩

include hvalue hitems in
theorem readItems_spelled_succ {items : List Json}
    (h : readItems (fuel + 1) cs = some (items, rest)) : StartsWith SpellsItems items cs rest := by
  obtain ⟨item, after, hread, hnext⟩ := readItems_cases h
  obtain ⟨front, hspells, rfl⟩ := hvalue hread
  obtain ⟨gap, hgap, hafter⟩ := skipBlanks_split after
  rcases hnext with ⟨hend, rfl⟩ | ⟨tail, others, hmore, hothers, rfl⟩
  · refine ⟨_, .last hspells hgap, ?_⟩
    rw [hafter, hend]
    simp
  · obtain ⟨gap', hgap', htail⟩ := skipBlanks_split tail
    obtain ⟨front', hspells', hfront'⟩ := hitems hothers
    refine ⟨_, .more hspells hgap hgap' hspells', ?_⟩
    rw [hafter, hmore, htail, hfront']
    simp

include hvalue in
theorem FindsMember.spelled {member : Text × Json} (h : FindsMember fuel cs member rest) :
    StartsWith SpellsMember member cs rest := by
  obtain ⟨rfl, hkey, hmark, hread⟩ := h
  rename_i inside colon item
  obtain ⟨key, hquoted, hinside⟩ := readQuoted_spelled hkey
  obtain ⟨gap, hgap, hcolon⟩ := skipBlanks_split colon
  obtain ⟨gap', hgap', hitem⟩ := skipBlanks_split item
  obtain ⟨front, hspells, hfront⟩ := hvalue hread
  refine ⟨_, .pair hquoted hgap hgap' hspells, ?_⟩
  rw [hinside, hcolon, hmark, hitem, hfront]
  simp

include hvalue hmembers in
theorem readMembers_spelled_succ {members : List (Text × Json)}
    (h : readMembers (fuel + 1) cs = some (members, rest)) :
    StartsWith SpellsMembers members cs rest := by
  obtain ⟨member, after, hmember, hnext⟩ := readMembers_cases h
  obtain ⟨front, hspells, rfl⟩ := hmember.spelled hvalue
  obtain ⟨gap, hgap, hafter⟩ := skipBlanks_split after
  rcases hnext with ⟨hend, rfl⟩ | ⟨tail, others, hmore, hothers, rfl⟩
  · refine ⟨_, .last hspells hgap, ?_⟩
    rw [hafter, hend]
    simp
  · obtain ⟨gap', hgap', htail⟩ := skipBlanks_split tail
    obtain ⟨front', hspells', hfront'⟩ := hmembers hothers
    refine ⟨_, .more hspells hgap hgap' hspells', ?_⟩
    rw [hafter, hmore, htail, hfront']
    simp

end Spelled

/-- By the fuel, for the three readers at once. -/
theorem read_spelled (fuel : Nat) :
    (∀ {cs rest value}, readValue fuel cs = some (value, rest) → StartsWith Spells value cs rest)
      ∧ (∀ {cs rest items}, readItems fuel cs = some (items, rest) →
        StartsWith SpellsItems items cs rest)
      ∧ ∀ {cs rest members}, readMembers fuel cs = some (members, rest) →
        StartsWith SpellsMembers members cs rest := by
  induction fuel with
  | zero => exact ⟨nofun, nofun, nofun⟩
  | succ fuel ih =>
      obtain ⟨hvalue, hitems, hmembers⟩ := ih
      exact ⟨readValue_spelled_succ hitems hmembers, readItems_spelled_succ hvalue hitems,
        readMembers_spelled_succ hvalue hmembers⟩

/-! ## What is spelled is read -/

mutual

/-- A spelling of a value is taken as a whole. -/
theorem Spells.read {value : Json} {cs : List Char} : Spells value cs →
    ∀ (rest : List Char) (fuel : Nat), Ends rest → cs.length ≤ fuel →
      readValue fuel (cs ++ rest) = some (value, rest)
  | .null, rest, fuel + 1, _, _ => rfl
  | .yes, rest, fuel + 1, _, _ => rfl
  | .no, rest, fuel + 1, _, _ => rfl
  | .number hnumber, rest, fuel, hrest, hfuel => by
      have hread := hnumber.read hrest
      obtain ⟨c, cs', rfl, hc⟩ := hnumber.head
      obtain ⟨fuel, rfl⟩ := Nat.exists_eq_succ_of_ne_zero (Nat.ne_of_gt (Nat.zero_lt_of_lt hfuel))
      rw [List.cons_append] at hread ⊢
      rw [readValue_number hc, hread]
      rfl
  | .text hquoted, rest, fuel, _, hfuel => by
      obtain ⟨inside, hcs, hread⟩ := hquoted.read rest
      obtain ⟨cs', rfl⟩ := hquoted.head
      obtain ⟨fuel, rfl⟩ := Nat.exists_eq_succ_of_ne_zero (Nat.ne_of_gt (Nat.zero_lt_of_lt hfuel))
      rw [hcs, readValue_text, hread]
      rfl
  | .emptyArray hgap, rest, fuel + 1, _, _ => by
      rw [List.cons_append, List.append_assoc, List.singleton_append]
      exact readValue_emptyArray (skipBlanks_append hgap (by decide))
  | .array hgap hitems, rest, fuel + 1, _, hfuel => by
      rw [List.length_cons, List.length_append] at hfuel
      have hread := hitems.read rest fuel (by omega)
      obtain ⟨c, cs', rfl, hblank, hclose⟩ := hitems.head
      rw [List.cons_append] at hread
      rw [List.cons_append, List.append_assoc, List.cons_append,
        readValue_array (skipBlanks_append hgap hblank) hclose, hread]
      rfl
  | .emptyObject hgap, rest, fuel + 1, _, _ => by
      rw [List.cons_append, List.append_assoc, List.singleton_append]
      exact readValue_emptyObject (skipBlanks_append hgap (by decide))
  | .object hgap hmembers, rest, fuel + 1, _, hfuel => by
      rw [List.length_cons, List.length_append] at hfuel
      have hread := hmembers.read rest fuel (by omega)
      obtain ⟨cs', rfl⟩ := hmembers.head
      rw [List.cons_append] at hread
      rw [List.cons_append, List.append_assoc, List.cons_append,
        readValue_object (skipBlanks_append hgap (by decide)) (by decide), hread]
      rfl

theorem SpellsItems.read {items : List Json} {cs : List Char} : SpellsItems items cs →
    ∀ (rest : List Char) (fuel : Nat), cs.length ≤ fuel →
      readItems fuel (cs ++ rest) = some (items, rest)
  | .last _ _, _, 0, hfuel => by simp at hfuel
  | .last hvalue hgap, rest, fuel + 1, hfuel => by
      rw [List.length_append, List.length_append, List.length_singleton] at hfuel
      rw [List.append_assoc, List.append_assoc, List.singleton_append]
      exact readItems_last (hvalue.read _ fuel (.after_gap hgap (.cons (by decide))) (by omega))
        (skipBlanks_append hgap (by decide))
  | .more _ _ _ _, _, 0, hfuel => by simp at hfuel
  | .more hvalue hgap hgap' hothers, rest, fuel + 1, hfuel => by
      rw [List.length_append, List.length_append, List.length_cons, List.length_append] at hfuel
      have hread := hothers.read rest fuel (by omega)
      obtain ⟨c, cs', rfl, hblank, -⟩ := hothers.head
      rw [List.append_assoc, List.append_assoc, List.cons_append, List.append_assoc,
        readItems_more (hvalue.read _ fuel (.after_gap hgap (.cons (by decide))) (by omega))
          (skipBlanks_append hgap (by decide)),
        List.cons_append, skipBlanks_append hgap' hblank, ← List.cons_append, hread]
      rfl

theorem SpellsMembers.read {members : List (Text × Json)} {cs : List Char} :
    SpellsMembers members cs → ∀ (rest : List Char) (fuel : Nat), cs.length ≤ fuel →
      readMembers fuel (cs ++ rest) = some (members, rest)
  | .last _ _, _, 0, hfuel => by simp at hfuel
  | .last hpair hgap, rest, fuel + 1, hfuel => by
      rw [List.length_append, List.length_append, List.length_singleton] at hfuel
      rw [List.append_assoc, List.append_assoc, List.singleton_append]
      exact (hpair.read _ fuel (.after_gap hgap (.cons (by decide))) (by omega)).last
        (skipBlanks_append hgap (by decide))
  | .more _ _ _ _, _, 0, hfuel => by simp at hfuel
  | .more hpair hgap hgap' hothers, rest, fuel + 1, hfuel => by
      rw [List.length_append, List.length_append, List.length_cons, List.length_append] at hfuel
      have hread := hothers.read rest fuel (by omega)
      obtain ⟨cs', rfl⟩ := hothers.head
      rw [List.append_assoc, List.append_assoc, List.cons_append, List.append_assoc,
        (hpair.read _ fuel (.after_gap hgap (.cons (by decide))) (by omega)).more
          (skipBlanks_append hgap (by decide)),
        List.cons_append, skipBlanks_append hgap' (by decide), ← List.cons_append, hread]
      rfl

theorem SpellsMember.read {member : Text × Json} {cs : List Char} : SpellsMember member cs →
    ∀ (rest : List Char) (fuel : Nat), Ends rest → cs.length ≤ fuel →
      FindsMember fuel (cs ++ rest) member rest
  | .pair hquoted hgap hgap' hvalue, rest, fuel, hrest, hfuel => by
      rw [List.length_append, List.length_append, List.length_cons, List.length_append] at hfuel
      have hread := hvalue.read rest fuel hrest (by omega)
      obtain ⟨c, cs', rfl, hblank, -⟩ := hvalue.head
      rw [List.append_assoc, List.append_assoc, List.cons_append, List.append_assoc]
      obtain ⟨inside, hkey, hinside⟩ := hquoted.read _
      refine .pair hkey hinside (skipBlanks_append hgap (by decide)) ?_
      rwa [List.cons_append, skipBlanks_append hgap' hblank, ← List.cons_append]

end

/-! ## Whole texts -/

/-- The value of a text is the one that it spells. -/
theorem read?_eq_some_iff {text : String} {value : Json} :
    read? text = some value ↔ SpelledBy value text := by
  rw [read?]
  constructor
  · intro h
    split at h
    · rename_i value' rest hread
      split at h
      · rename_i hblank
        obtain rfl := Option.some.inj h
        obtain ⟨gap, hgap, hcs⟩ := skipBlanks_split text.toList
        obtain ⟨gap', hgap', hrest⟩ := skipBlanks_split rest
        obtain ⟨front, hspells, hfront⟩ := (read_spelled _).1 hread
        rw [List.isEmpty_iff.mp hblank, List.append_nil] at hrest
        rw [hfront, hrest] at hcs
        exact .text hgap hspells hgap' hcs
      · exact nomatch h
    · exact nomatch h
  · rintro ⟨hbefore, hspells, hafter, hsplit⟩
    rename_i before cs after
    have hread := hspells.read after (2 * text.toList.length + 2)
      (by rw [← List.append_nil after]; exact .after_gap hafter .nil)
      (by rw [hsplit, List.length_append, List.length_append]; omega)
    obtain ⟨c, cs', rfl, hblank, -⟩ := hspells.head
    have hskip : skipBlanks text.toList = c :: cs' ++ after := by
      rw [hsplit]
      exact skipBlanks_append hbefore hblank
    rw [hskip, hread]
    show (if (skipBlanks after).isEmpty then some value else none) = some value
    rw [hafter.skip]
    rfl

end Json

end SlotSymmetry
