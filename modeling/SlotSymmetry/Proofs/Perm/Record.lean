import SlotSymmetry.Perm.Record
import SlotSymmetry.Proofs.Json.Render
import SlotSymmetry.Proofs.Json.Units

/-! # Records of permutations

    A text is read as a permutation exactly if it spells one of its records:
    the array of its parts, or an object that has its three members among others
    in any order.  Of the entries of the tables only their size counts.  As
    keys that differ have different units, no other member is taken for one of
    the three, and what was written is read back. -/

namespace SlotSymmetry

open Json (SpelledBy)
open scoped List

/-- The object with these members. -/
def Json.ofFields (fields : List (String × Json)) : Json :=
  .object (fields.map fun field => (Json.Text.ofString field.1, field.2))

namespace SignedPerm

variable {p : SignedPerm} {value : Json}

/-- Every entry of the two tables is an unsigned 64-bit number. -/
structure Fits (p : SignedPerm) : Prop where
  image : ∀ i ∈ p.image, i < UInt64.size
  preimage : ∀ i ∈ p.preimage, i < UInt64.size

/-- The members of the record of a permutation. -/
def fields (p : SignedPerm) : List (String × Json) :=
  [("map", tableToJson p.image), ("inv", tableToJson p.preimage), ("antisymmetric", .bool p.flips)]

theorem toJson_eq (p : SignedPerm) : p.toJson = Json.ofFields p.fields := rfl

/-- The keys of the three members. -/
def keys : List Json.Text := [imageKey, preimageKey, flipsKey]

theorem nodup_keys : keys.Nodup := by decide

/-- The values that stand for a permutation: the array of its parts, and the objects that hold its
    members once and nothing else under their keys. -/
inductive Records (p : SignedPerm) : Json → Prop where
  | array : Records p (.array [tableToJson p.image, tableToJson p.preimage, .bool p.flips])
  | object {members extra : List (Json.Text × Json)}
      (names : ∀ member ∈ members, member.1.wellFormed = true)
      (others : ∀ member ∈ extra, member.1 ∉ keys)
      (arranged : members.Perm ([(imageKey, tableToJson p.image),
        (preimageKey, tableToJson p.preimage), (flipsKey, .bool p.flips)] ++ extra)) :
      Records p (.object members)

/-! ## Parts -/

theorem word?_eq_some_iff {n : Nat} : value.word? = some n ↔ n < UInt64.size ∧ value = .ofNat n := by
  constructor
  · intro h
    rw [Json.word?.eq_def] at h
    split at h
    · split at h
      · rename_i hlt
        obtain rfl := Option.some.inj h
        exact ⟨hlt, rfl⟩
      · exact nomatch h
    · exact nomatch h
  · rintro ⟨hlt, rfl⟩
    exact if_pos hlt

theorem mapM_word?_eq_some_iff {items : List Json} : ∀ {ns : List Nat},
    items.mapM Json.word? = some ns ↔ (∀ n ∈ ns, n < UInt64.size) ∧ items = ns.map Json.ofNat := by
  induction items with
  | nil => rintro (_ | ⟨n, ns⟩) <;> simp
  | cons item items ih =>
      rintro (_ | ⟨n, ns⟩)
      · simp [Option.bind_eq_some_iff]
      · simp only [List.mapM_cons, Option.bind_eq_bind, Option.bind_eq_some_iff,
          word?_eq_some_iff, ih, Option.pure_def, Option.some.injEq, List.cons.injEq,
          List.forall_mem_cons, List.map_cons]
        constructor
        · rintro ⟨m, ⟨hm, rfl⟩, ms, ⟨hms, rfl⟩, rfl, rfl⟩
          exact ⟨⟨hm, hms⟩, rfl, rfl⟩
        · rintro ⟨⟨hn, hns⟩, rfl, rfl⟩
          exact ⟨n, ⟨hn, rfl⟩, ns, ⟨hns, rfl⟩, rfl, rfl⟩

theorem tableOfJson?_eq_some_iff {table : Array Nat} : tableOfJson? value = some table
    ↔ (∀ i ∈ table, i < UInt64.size) ∧ value = tableToJson table := by
  constructor
  · intro h
    rw [tableOfJson?.eq_def] at h
    split at h
    · obtain ⟨ns, hns, rfl⟩ := Option.map_eq_some_iff.mp h
      obtain ⟨hlt, rfl⟩ := mapM_word?_eq_some_iff.mp hns
      exact ⟨fun i hi => hlt i (List.mem_toArray.mp hi), rfl⟩
    · exact nomatch h
  · rintro ⟨hlt, rfl⟩
    have hread : (table.toList.map Json.ofNat).mapM Json.word? = some table.toList :=
      mapM_word?_eq_some_iff.mpr ⟨fun i hi => hlt i (Array.mem_toList_iff.mp hi), rfl⟩
    rw [tableToJson, tableOfJson?, hread, Option.map_some, Array.toArray_toList]

theorem flipsOfJson?_eq_some_iff {flips : Bool} :
    flipsOfJson? value = some flips ↔ value = .bool flips := by
  cases value <;> simp [flipsOfJson?]

theorem ofParts?_eq_some_iff {image preimage flips : Json} :
    ofParts? image preimage flips = some p
      ↔ p.Fits ∧ image = tableToJson p.image ∧ preimage = tableToJson p.preimage
        ∧ flips = .bool p.flips := by
  simp only [ofParts?, Option.bind_eq_bind, Option.bind_eq_some_iff, tableOfJson?_eq_some_iff,
    flipsOfJson?_eq_some_iff, Option.pure_def, Option.some.injEq]
  constructor
  · rintro ⟨images, ⟨himages, rfl⟩, preimages, ⟨hpreimages, rfl⟩, sign, rfl, rfl⟩
    exact ⟨⟨himages, hpreimages⟩, rfl, rfl, rfl⟩
  · rintro ⟨hfits, rfl, rfl, rfl⟩
    exact ⟨p.image, ⟨hfits.image, rfl⟩, p.preimage, ⟨hfits.preimage, rfl⟩, p.flips, rfl, rfl⟩

/-! ## Members -/

theorem member?_eq_some_iff {members : List (Json.Text × Json)} {key : Json.Text} :
    member? members key = some value ↔ members.filter (·.1 = key) = [(key, value)] := by
  rw [member?]
  constructor
  · intro h
    split at h
    · rename_i key' value' hfilter
      have hmember := (List.mem_filter.mp (hfilter ▸ List.mem_singleton_self (key', value'))).2
      have hkey : key' = key := of_decide_eq_true hmember
      rw [hfilter, hkey, Option.some.inj h]
    · exact nomatch h
  · intro h
    rw [h]

/-- Members sorted out by their keys. -/
theorem perm_byKey {names : List Json.Text} (hnames : names.Nodup)
    (members : List (Json.Text × Json)) :
    members.Perm ((names.flatMap fun key => members.filter (·.1 = key))
      ++ members.filter (·.1 ∉ names)) := by
  induction names with
  | nil => simp
  | cons key names ih =>
      obtain ⟨hkey, hnames⟩ := List.nodup_cons.mp hnames
      have hsame : (members.filter (·.1 ∉ names)).filter (·.1 = key)
          = members.filter (·.1 = key) := by
        rw [List.filter_filter]
        refine List.filter_congr fun member _ => ?_
        by_cases h : member.1 = key <;> simp [h, hkey]
      have hothers : (members.filter (·.1 ∉ names)).filter (fun member => !(member.1 = key))
          = members.filter (·.1 ∉ key :: names) := by
        rw [List.filter_filter]
        exact List.filter_congr fun member _ => by simp
      have hsplit := List.filter_append_perm (fun member : Json.Text × Json => member.1 = key)
        (members.filter (·.1 ∉ names))
      rw [hsame, hothers] at hsplit
      calc members
        _ ~ (names.flatMap fun key => members.filter (·.1 = key))
              ++ members.filter (·.1 ∉ names) := ih hnames
        _ ~ (names.flatMap fun key => members.filter (·.1 = key))
              ++ (members.filter (·.1 = key) ++ members.filter (·.1 ∉ key :: names)) :=
          hsplit.symm.append_left _
        _ ~ ((key :: names).flatMap fun key => members.filter (·.1 = key))
              ++ members.filter (·.1 ∉ key :: names) := by
          rw [List.flatMap_cons, ← List.append_assoc]
          exact List.perm_append_comm.append_right _

/-- An object has these three values under their keys exactly if its members are these three and
    others, in some order. -/
theorem members_iff {members : List (Json.Text × Json)} {image preimage flips : Json} :
    (member? members imageKey = some image ∧ member? members preimageKey = some preimage
        ∧ member? members flipsKey = some flips)
      ↔ ∃ extra : List (Json.Text × Json), (∀ member ∈ extra, member.1 ∉ keys)
        ∧ members.Perm
          ([(imageKey, image), (preimageKey, preimage), (flipsKey, flips)] ++ extra) := by
  simp only [member?_eq_some_iff]
  constructor
  · rintro ⟨himage, hpreimage, hflips⟩
    refine ⟨members.filter (·.1 ∉ keys), fun member hmember => ?_, ?_⟩
    · exact of_decide_eq_true (List.mem_filter.mp hmember).2
    · have hperm := perm_byKey nodup_keys members
      rwa [keys, List.flatMap_cons, List.flatMap_cons, List.flatMap_cons, himage, hpreimage,
        hflips] at hperm
  · rintro ⟨extra, hothers, hperm⟩
    have hextra : ∀ key ∈ keys, extra.filter (·.1 = key) = [] := fun key hkey =>
      List.filter_eq_nil_iff.mpr fun member hmember hsame =>
        hothers member hmember (of_decide_eq_true hsame ▸ hkey)
    have hfilter : ∀ key ∈ keys, (members.filter (·.1 = key)).Perm
        ([(imageKey, image), (preimageKey, preimage), (flipsKey, flips)].filter (·.1 = key)) :=
      fun key hkey => by
        have hboth := hperm.filter (·.1 = key)
        rwa [List.filter_append, hextra key hkey, List.append_nil] at hboth
    refine ⟨?_, ?_, ?_⟩
    · exact List.perm_singleton.mp (hfilter imageKey (by decide))
    · exact List.perm_singleton.mp (hfilter preimageKey (by decide))
    · exact List.perm_singleton.mp (hfilter flipsKey (by decide))

theorem ofJson?_eq_some_iff : ofJson? value = some p ↔ p.Fits ∧ p.Records value := by
  constructor
  · intro h
    rw [ofJson?.eq_def] at h
    split at h
    · obtain ⟨hfits, rfl, rfl, rfl⟩ := ofParts?_eq_some_iff.mp h
      exact ⟨hfits, .array⟩
    · rename_i members
      split at h
      · rename_i hnames
        obtain ⟨image, himage, h⟩ := Option.bind_eq_some_iff.mp h
        obtain ⟨preimage, hpreimage, h⟩ := Option.bind_eq_some_iff.mp h
        obtain ⟨flips, hflips, h⟩ := Option.bind_eq_some_iff.mp h
        obtain ⟨hfits, rfl, rfl, rfl⟩ := ofParts?_eq_some_iff.mp h
        obtain ⟨extra, hothers, hperm⟩ := members_iff.mp ⟨himage, hpreimage, hflips⟩
        exact ⟨hfits, .object (List.all_eq_true.mp hnames) hothers hperm⟩
      · exact nomatch h
    · exact nomatch h
  · rintro ⟨hfits, hrecords⟩
    have hparts := ofParts?_eq_some_iff.mpr ⟨hfits, rfl, rfl, rfl⟩
    cases hrecords with
    | array => exact hparts
    | @object members extra names others arranged =>
        obtain ⟨himage, hpreimage, hflips⟩ := members_iff.mpr ⟨extra, others, arranged⟩
        rw [ofJson?, if_pos (List.all_eq_true.mpr names), himage, hpreimage, hflips]
        exact hparts

/-- A text is read as a permutation exactly if it spells a record of it.  Whether the tables are a
    bijection and its inverse plays no part. -/
theorem read?_eq_some_iff {text : String} :
    read? text = some p ↔ p.Fits ∧ ∃ value, SpelledBy value text ∧ p.Records value := by
  rw [read?, Option.bind_eq_some_iff]
  simp only [Json.read?_eq_some_iff, ofJson?_eq_some_iff]
  exact ⟨fun ⟨value, hspelled, hfits, hrecords⟩ => ⟨hfits, value, hspelled, hrecords⟩,
    fun ⟨hfits, value, hspelled, hrecords⟩ => ⟨value, hspelled, hfits, hrecords⟩⟩

/-! ## Writing and reading -/

theorem keys_eq : keys = ["map", "inv", "antisymmetric"].map Json.Text.ofString := rfl

/-- The members of a record may come in any order and between any others. -/
theorem records_ofFields {fields extra : List (String × Json)}
    (hothers : ∀ field ∈ extra, field.1 ∉ ["map", "inv", "antisymmetric"])
    (hperm : fields.Perm (p.fields ++ extra)) : p.Records (Json.ofFields fields) := by
  have harranged := hperm.map fun field : String × Json => (Json.Text.ofString field.1, field.2)
  rw [List.map_append] at harranged
  refine .object ?_ ?_ harranged
  · intro member hmember
    obtain ⟨field, -, rfl⟩ := List.mem_map.mp hmember
    exact Json.ofString_wellFormed field.1
  · intro member hmember
    obtain ⟨field, hfield, rfl⟩ := List.mem_map.mp hmember
    rw [keys_eq, List.mem_map_of_injective fun _ _ => Json.ofString_injective]
    exact hothers field hfield

theorem records_toJson (p : SignedPerm) : p.Records p.toJson := by
  rw [toJson_eq]
  exact records_ofFields (List.forall_mem_nil _)
    (List.append_nil p.fields ▸ List.Perm.refl p.fields)

/-- What was written is read back, and so is every other text of the same record: with the members
    in another order, with members under other names, and as the array of the three parts. -/
theorem record_round_trip (p : SignedPerm) (hfits : p.Fits) :
    read? p.render = some p
    ∧ (∀ fields extra : List (String × Json),
        (∀ field ∈ extra, field.1 ∉ ["map", "inv", "antisymmetric"]) →
        fields.Perm (p.fields ++ extra) →
        read? (Json.ofFields fields).render = some p
        ∧ ∀ text, SpelledBy (Json.ofFields fields) text → read? text = some p)
    ∧ read? (Json.array [tableToJson p.image, tableToJson p.preimage, .bool p.flips]).render
        = some p
    ∧ ∀ text, SpelledBy (.array [tableToJson p.image, tableToJson p.preimage, .bool p.flips]) text →
        read? text = some p := by
  have hread : ∀ {value : Json}, p.Records value → ∀ {text : String}, SpelledBy value text →
      read? text = some p := fun hrecords _ hspelled =>
    read?_eq_some_iff.mpr ⟨hfits, _, hspelled, hrecords⟩
  refine ⟨hread p.records_toJson (Json.render_spelledBy _), fun fields extra hothers hperm => ?_,
    hread .array (Json.render_spelledBy _), fun _ => hread .array⟩
  have hrecords := records_ofFields hothers hperm
  exact ⟨hread hrecords (Json.render_spelledBy _), fun _ => hread hrecords⟩

/-- The largest entry there is, an empty table, and the members backwards after one more. -/
theorem record_round_trip_largest :
    (SignedPerm.mk #[18446744073709551615, 0] #[] true).Fits
    ∧ read? (Json.ofFields [("note", .array [.null]), ("antisymmetric", .bool true),
        ("inv", .array []), ("map", .array [.ofNat 18446744073709551615, .ofNat 0])]).render
      = some ⟨#[18446744073709551615, 0], #[], true⟩ := by
  have hfits : (SignedPerm.mk #[18446744073709551615, 0] #[] true).Fits :=
    ⟨by decide, by decide⟩
  have hothers : ∀ field ∈ [("note", Json.array [.null])],
      field.1 ∉ ["map", "inv", "antisymmetric"] := by decide
  exact ⟨hfits, ((record_round_trip _ hfits).2.1 _ _ hothers (List.reverse_perm _)).1⟩

end SignedPerm

end SlotSymmetry
