import SlotSymmetry.Proofs.Chain.Shape

/-! # Tails and strong generators

    The levels of a finished chain from a depth on are a finished chain of their
    own.  The strong generators of a chain span the same group as those of its
    first level, as every level below holds elements of it only. -/

namespace SlotSymmetry

namespace Chain

variable {n : Nat} {H : Subgroup (Signed n)} {wanted : List Nat} {c : Chain}

/-! ## Tails -/

theorem Stacked.drop {levels : List Level} (h : Stacked n H levels) (d : Nat) :
    Stacked n (topGroup n (levels.drop d)) (levels.drop d) :=
  ⟨fun level hl => h.sound level (List.mem_of_mem_drop hl), h.above.drop,
    fun level hl => h.tidy level (List.mem_of_mem_drop hl), rfl⟩

/-- Past the wanted points, the levels are a finished chain without wanted points. -/
theorem Finished.tail (hc : c.Finished n H wanted) {d : Nat} (hd : wanted.length ≤ d) :
    (c.tail d).Finished n (topGroup n (c.levels.drop d)) [] := by
  refine ⟨hc.degree_eq, Stacked.drop hc.stacked d, List.nil_prefix, ?_, hc.complete.drop d⟩
  intro j level _ hlevel
  have hlevel' : (c.levels.drop d)[j]? = some level := hlevel
  rw [List.getElem?_drop] at hlevel'
  exact hc.long (d + j) level (by omega) hlevel'

theorem trivial_finished (n : Nat) : (trivial n).Finished n ⊥ [] :=
  ⟨rfl, ⟨nofun, .nil, nofun, rfl⟩, List.nil_prefix, nofun, True.intro⟩

/-! ## Strong generators -/

theorem mem_strongGenerators {g : SignedPerm} :
    g ∈ c.strongGenerators ↔ ∃ level ∈ c.levels, g ∈ level.generators := by
  rw [strongGenerators, SignedPerm.mem_distinct, List.mem_flatMap]

theorem Finished.strongGenerators_on (hc : c.Finished n H wanted) :
    ∀ g ∈ c.strongGenerators, g.On n := by
  intro g hg
  obtain ⟨level, hlevel, hg⟩ := mem_strongGenerators.mp hg
  exact (hc.stacked.sound level hlevel).on g hg

theorem Finished.span_strongGenerators (hc : c.Finished n H wanted) :
    Signed.span n c.strongGenerators = H := by
  refine le_antisymm (span_le.mpr ?_) ?_
  · intro g hg
    obtain ⟨level, hlevel, hg⟩ := mem_strongGenerators.mp hg
    exact hc.stacked.group_le hlevel (mem_span_of_mem g.on hg)
  · -- the first level alone generates the group
    rw [← hc.stacked.top]
    cases hlevels : c.levels with
    | nil => exact bot_le
    | cons level below =>
        refine span_mono fun g hg => mem_strongGenerators.mpr ⟨level, ?_, hg⟩
        rw [hlevels]
        exact List.mem_cons_self

end Chain

end SlotSymmetry
