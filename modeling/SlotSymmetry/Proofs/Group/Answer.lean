import SlotSymmetry.Proofs.Group.LevelSearch
import SlotSymmetry.Proofs.Group.Presents

/-! # The answer of a level search

    A query that is answered by a level search makes a group of what the search
    found.  All of it belongs to the subgroup `K` that is asked for, so the signs
    are consistent and there is such a group, whatever the budget.  Without
    limits it presents `K` itself. -/

namespace SlotSymmetry

namespace SignedGroup

variable {n : Nat} {K : Subgroup (Signed n)} {budget : Budget}

/-- Generators of some of `K`, and of all of it without limits. -/
structure Finds (n : Nat) (K : Subgroup (Signed n)) (budget : Budget) (f : Chain.Finding) :
    Prop where
  on : ∀ g ∈ f.known, g.On n
  span_le : Signed.span n f.known ≤ K
  whole : budget = .unlimited → f.meter.Free ∧ Signed.span n f.known = K

/-- A group that presents some of `K`, and all of it without limits. -/
structure Answers (n : Nat) (K : Subgroup (Signed n)) (budget : Budget) (o : Outcome SignedGroup) :
    Prop where
  part : ∃ L ≤ K, o.value.Presents n L
  whole : budget = .unlimited → ∃ G, o = .complete G ∧ G.Presents n K

theorem Presents.answers {G : SignedGroup} (hG : G.Presents n K) (budget : Budget) :
    Answers n K budget (.complete G) :=
  ⟨⟨K, le_refl K, hG⟩, fun _ => ⟨G, rfl, hG⟩⟩

/-- A level search whose tests single out `K`, from generators of what the last levels describe
    of it. -/
theorem levelSearch_finds {c : Chain} {w : Chain.Wanted} {upTo : Nat} {known : List SignedPerm}
    (hdegree : c.degree = n) (hcomplete : Complete n c.levels) (hle : K ≤ topGroup n c.levels)
    (hw : ∀ depth, depth < upTo → w.Selects c K depth) (hknown : ∀ g ∈ known, g.On n)
    (hspan : Signed.span n known = c.part K upTo) (budget : Budget) :
    Finds n K budget (c.levelSearch w upTo known (.start budget)) := by
  have hgrows : Chain.Grows (c.part K 0) ⟨known, .start budget⟩
      (c.levelSearch w upTo known (.start budget)) :=
    Chain.levelSearch_grows hdegree hcomplete hw hknown
  have hstart := hspan.le.trans (Chain.part_antitone hcomplete K upTo)
  refine ⟨hgrows.on hknown, (hgrows.span_le hstart).trans (Chain.part_le _ _ _), ?_⟩
  rintro rfl
  exact ⟨hgrows.free Meter.start_free,
    Chain.levelSearch_span hdegree hcomplete hw hknown hle Meter.start_free hspan⟩

/-- What was found generates a group, unless `K` holds the antisymmetric identity. -/
theorem Finds.exists_answer {f : Chain.Finding} (h : Finds n K budget f)
    (hflip : Signed.flip n ∉ K) :
    ∃ G, generate n f.known = .ok G ∧ Answers n K budget (f.meter.outcome G) := by
  obtain ⟨G, hG, hpresents⟩ := exists_generate h.on fun hmem => hflip (h.span_le hmem)
  refine ⟨G, hG, ⟨_, h.span_le, ?_⟩, ?_⟩
  · rw [Meter.value_outcome]
    exact hpresents
  · intro hunlimited
    obtain ⟨hfree, hspan⟩ := h.whole hunlimited
    exact ⟨G, hfree.outcome G, hspan ▸ hpresents⟩

end SignedGroup

end SlotSymmetry
