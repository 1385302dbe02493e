import SlotSymmetry.Proofs.Chain.Membership

/-! # The shape of a finished chain

    The base points of a finished chain differ, the wanted points come first,
    and only wanted points may have orbits of a single point.  The levels from
    any depth on are a chain of the elements that fix the base points before,
    and the first of these levels lists generators of them. -/

namespace SlotSymmetry

open SignedPerm (Generated)

namespace Chain

variable {n : Nat} {H : Subgroup (Signed n)} {gens : List SignedPerm} {wanted : List Nat}
  {c : Chain}

theorem Finished.nodup_base (hc : c.Finished n H wanted) : c.base.Nodup :=
  nodup_basePoints hc.stacked.above

/-- The elements that fix the first base points. -/
theorem Finished.mem_top_drop_iff (hc : c.Finished n H wanted) (d : Nat) {x : Signed n} :
    x ∈ topGroup n (c.levels.drop d) ↔ x ∈ H ∧ ∀ b ∈ c.base.take d, x.val.act b = b := by
  rw [hc.complete.mem_top_drop_iff, hc.stacked.top, base, ← List.map_take, List.forall_mem_map]
  rfl

theorem Finished.fixing_iff (hgens : ∀ g ∈ gens, g.On n)
    (hc : c.Finished n (Signed.span n gens) wanted) (d : Nat) {p : SignedPerm} :
    (Generated n gens p ∧ ∀ b ∈ c.base.take d, p.act b = b)
      ↔ ∃ hon : p.On n, (⟨p, hon⟩ : Signed n) ∈ topGroup n (c.levels.drop d) := by
  rw [generated_iff hgens]
  constructor
  · rintro ⟨⟨hon, hmem⟩, hfix⟩
    exact ⟨hon, (hc.mem_top_drop_iff d).mpr ⟨hmem, hfix⟩⟩
  · rintro ⟨hon, hmem⟩
    obtain ⟨hH, hfix⟩ := (hc.mem_top_drop_iff d).mp hmem
    exact ⟨⟨hon, hH⟩, hfix⟩

theorem topGroup_drop {levels : List Level} {d : Nat} {level : Level}
    (hlevel : levels[d]? = some level) : topGroup n (levels.drop d) = level.group n := by
  obtain ⟨hd, rfl⟩ := List.getElem?_eq_some_iff.mp hlevel
  rw [List.drop_eq_getElem_cons hd]
  rfl

/-- The base of a finished chain, its generators, and the groups of its levels. -/
theorem chain_shape (hgens : ∀ g ∈ gens, g.On n) (hlt : ∀ b ∈ wanted, b < n)
    (hc : buildWithBase n gens wanted = .ok c) :
    c.base.Nodup
      ∧ wanted.eraseDups <+: c.base
      ∧ (∀ (j : Nat) (level : Level), wanted.eraseDups.length ≤ j → c.levels[j]? = some level →
        2 ≤ level.orbit.length)
      ∧ (∀ level ∈ c.levels,
        level.generators.Nodup ∧ ∀ g ∈ level.generators, g.isIdentity = false)
      ∧ (∀ (d : Nat) (p : SignedPerm), p.Valid → ((c.tail d).contains p = true
        ↔ Generated n gens p ∧ ∀ b ∈ c.base.take d, p.act b = b))
      ∧ (∀ (d : Nat) (level : Level), c.levels[d]? = some level → ∀ p : SignedPerm,
        (Generated n gens p ∧ ∀ b ∈ c.base.take d, p.act b = b) ↔ Generated n level.generators p)
      ∧ ∀ p : SignedPerm, (Generated n gens p ∧ ∀ b ∈ c.base, p.act b = b)
        ↔ p = SignedPerm.id n := by
  have hfinished := finished_of_ok hgens hlt hc
  refine ⟨hfinished.nodup_base, hfinished.starts, hfinished.long, ?_, ?_, ?_, ?_⟩
  · intro level hlevel
    have htidy := hfinished.stacked.tidy level hlevel
    exact ⟨htidy.nodup, htidy.moves⟩
  · intro d p hp
    rw [hfinished.tail_contains_iff d hp, hfinished.fixing_iff hgens d]
  · intro d level hlevel p
    have hsound := hfinished.stacked.sound level (List.mem_of_getElem? hlevel)
    rw [hfinished.fixing_iff hgens d, topGroup_drop hlevel, generated_iff hsound.on]
    rfl
  · intro p
    -- all base points are the first ones of a depth past the last level
    have htake : c.base.take c.levels.length = c.base :=
      List.take_of_length_le (by rw [base, List.length_map])
    rw [← htake, hfinished.fixing_iff hgens, List.drop_length]
    constructor
    · rintro ⟨hon, hmem⟩
      exact congrArg Signed.val (Subgroup.mem_bot.mp hmem)
    · rintro rfl
      exact ⟨SignedPerm.id_on n, Subgroup.mem_bot.mpr rfl⟩

/-- The rotation of three points, over a wanted point that is repeated. -/
theorem chain_shape_rotation :
    ∃ c, buildWithBase 3 [SignedGroup.rotation 3 false] [2, 2] = .ok c
      ∧ c.base.Nodup ∧ [2] <+: c.base := by
  have hgens : ∀ g ∈ [SignedGroup.rotation 3 false], g.On 3 := by decide +kernel
  have hok : (buildWithBase 3 [SignedGroup.rotation 3 false] [2, 2]).isOk = true := by
    decide +kernel
  obtain ⟨c, hc⟩ := exists_of_isOk hok
  obtain ⟨hnodup, hstarts, -⟩ := chain_shape hgens (by decide) hc
  exact ⟨c, hc, hnodup, hstarts⟩

end Chain

end SlotSymmetry
