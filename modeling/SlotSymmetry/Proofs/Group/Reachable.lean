import SlotSymmetry.Proofs.Group.Intersection
import SlotSymmetry.Proofs.Group.Operations
import SlotSymmetry.Proofs.Group.SetStabilizer

/-! # Reachable groups

    A group is reachable if it comes out of the operations, one after another,
    beginning with valid permutations.  The list of generators and the chain
    are set by different operations in different ways, yet they always belong to
    the same subgroup: every operation that is given groups that present
    subgroups makes one that does, also when the budget of a search runs out. -/

namespace SlotSymmetry

open SignedPerm (Generated)

namespace SignedGroup

/-- The groups that the operations make, from valid permutations and from one another.  Searches
    may have any budget, and what they found until it ran out counts as well. -/
inductive Reachable : SignedGroup → Prop where
  | generate {degree : Nat} {gens : List SignedPerm} {G : SignedGroup}
      (valid : ∀ g ∈ gens, g.Valid) (made : generate degree gens = .ok G) : Reachable G
  | ofGenerators {gens : List SignedPerm} {G : SignedGroup}
      (valid : ∀ g ∈ gens, g.Valid) (made : ofGenerators gens = .ok G) : Reachable G
  | trivial (degree : Nat) : Reachable (trivial degree)
  | symmetric {degree : Nat} {G : SignedGroup} (made : symmetric degree = .ok G) : Reachable G
  | antisymmetric {degree : Nat} {G : SignedGroup} (made : antisymmetric degree = .ok G) :
      Reachable G
  | cyclic {degree : Nat} {G : SignedGroup} (made : cyclic degree = .ok G) : Reachable G
  | stabilizer {G M : SignedGroup} {points : List Nat} (hG : Reachable G)
      (made : G.stabilizer points = .ok M) : Reachable M
  | union {G G' M : SignedGroup} (hG : Reachable G) (hG' : Reachable G')
      (made : G.union G' = .ok M) : Reachable M
  | intersection {G G' : SignedGroup} {budget : Budget} {o : Outcome SignedGroup}
      (hG : Reachable G) (hG' : Reachable G') (made : G.intersection G' budget = .ok o) :
      Reachable o.value
  | setwiseStabilizer {G : SignedGroup} {points : List Nat} {budget : Budget}
      {o : Outcome SignedGroup} (hG : Reachable G)
      (made : G.setwiseStabilizer points budget = .ok o) : Reachable o.value
  | signPreserving {G M : SignedGroup} (hG : Reachable G) (made : G.signPreserving = .ok M) :
      Reachable M

/-- The subgroup that the list of generators spans. -/
def subgroup (G : SignedGroup) : Subgroup (Signed G.degree) := Signed.span G.degree G.generators

variable {n : Nat} {H K : Subgroup (Signed n)} {G G' M : SignedGroup}

theorem Presents.self (hG : G.Presents n H) : G.Presents G.degree G.subgroup := by
  obtain rfl := hG.degree_eq
  rw [subgroup, hG.span_eq]
  exact hG

/-- The same, with the degree given by another name. -/
theorem Presents.at_degree (hG : G.Presents n H) {m : Nat} (hm : G.degree = m) :
    G.Presents m (Signed.span m G.generators) := by
  subst hm
  exact hG.self

/-! ## Every operation makes a group that presents a subgroup -/

theorem ofGenerators_presents {gens : List SignedPerm} (hvalid : ∀ g ∈ gens, g.Valid)
    (hM : ofGenerators gens = .ok M) : M.Presents M.degree M.subgroup := by
  cases gens with
  | nil => exact nomatch hM
  | cons g gens => exact (generate_presents hvalid hM).self

theorem intersection_presents (hG : G.Presents n H) (hG' : G'.Presents n K) {budget : Budget}
    {o : Outcome SignedGroup} (ho : G.intersection G' budget = .ok o) :
    ∃ L ≤ H ⊓ K, o.value.Presents n L := by
  obtain ⟨o', ho', hanswers⟩ := intersection_answers hG hG' budget
  rw [Except.ok.inj (ho.symm.trans ho')]
  exact hanswers.part

theorem setwiseStabilizer_presents (hG : G.Presents n H) {points : List Nat} {budget : Budget}
    {o : Outcome SignedGroup} (ho : G.setwiseStabilizer points budget = .ok o) :
    ∃ L ≤ H ⊓ setStabilizer n points, o.value.Presents n L := by
  rcases find_outside points G.degree with ⟨point, -, -, hfind⟩ | ⟨hlt, -⟩
  · rw [setwiseStabilizer_of_outside hfind] at ho
    exact nomatch ho
  · rw [hG.degree_eq] at hlt
    obtain ⟨o', ho', hanswers⟩ := setwiseStabilizer_answers hG hlt budget
    rw [Except.ok.inj (ho.symm.trans ho')]
    exact hanswers.part

theorem degree_eq_of_intersection {budget : Budget} {o : Outcome SignedGroup}
    (ho : G.intersection G' budget = .ok o) : G.degree = G'.degree := by
  by_contra hne
  rw [intersection_of_ne hne] at ho
  exact nomatch ho

theorem degree_eq_of_union (hM : G.union G' = .ok M) : G.degree = G'.degree := by
  obtain ⟨hsame, -⟩ := of_check_ok hM
  exact degree_eq_of_sameDegree hsame

/-- Every reachable group presents the subgroup that its generators span. -/
theorem Reachable.presents (hG : G.Reachable) : G.Presents G.degree G.subgroup := by
  induction hG with
  | generate valid made => exact (generate_presents valid made).self
  | ofGenerators valid made => exact ofGenerators_presents valid made
  | trivial degree => exact (trivial_presents degree).self
  | symmetric made =>
      obtain ⟨L, hL⟩ := full_presents made
      exact hL.self
  | antisymmetric made =>
      obtain ⟨L, hL⟩ := full_presents made
      exact hL.self
  | cyclic made =>
      obtain ⟨L, hL⟩ := cyclic_presents made
      exact hL.self
  | stabilizer _ made ih => exact (stabilizer_presents ih made).self
  | union _ _ made ih ih' =>
      have hsame := ih'.at_degree (degree_eq_of_union made).symm
      exact (union_presents ih hsame made).self
  | intersection _ _ made ih ih' =>
      have hsame := ih'.at_degree (degree_eq_of_intersection made).symm
      obtain ⟨L, -, hL⟩ := intersection_presents ih hsame made
      exact hL.self
  | setwiseStabilizer _ made ih =>
      obtain ⟨L, -, hL⟩ := setwiseStabilizer_presents ih made
      exact hL.self
  | signPreserving _ made ih =>
      obtain ⟨L, hL⟩ := signPreserving_presents ih made
      exact hL.self

/-- The generators and the strong generators of a reachable group have its degree, it accepts
    exactly the finite products of the ones and of the others, and it passes the check. -/
theorem reachable_invariant (hG : G.Reachable) :
    (∀ g ∈ G.generators, g.Valid ∧ g.degree = G.degree)
      ∧ (∀ g ∈ G.strongGenerators, g.Valid ∧ g.degree = G.degree)
      ∧ (∀ p : SignedPerm, p.Valid →
        (G.contains p = true ↔ Generated G.degree G.generators p))
      ∧ (∀ p : SignedPerm, p.Valid →
        (G.contains p = true ↔ Generated G.degree G.strongGenerators p))
      ∧ G.verify = true := by
  have hp := hG.presents
  refine ⟨?_, ?_, ?_, ?_, hp.verify⟩
  · exact fun g hg => ⟨(hp.on g hg).valid, (hp.on g hg).degree_eq⟩
  · exact fun g hg => ⟨(hp.strongGenerators_on g hg).valid, (hp.strongGenerators_on g hg).degree_eq⟩
  · exact fun p hvalid => hp.contains_iff_generated hp.on rfl hvalid
  · exact fun p hvalid =>
      hp.contains_iff_generated hp.strongGenerators_on hp.span_strongGenerators hvalid

/-- The stabilizer of a point in the group of all permutations of three points. -/
theorem reachable_invariant_stabilizer :
    ∃ G M, generate 3 [rotation 3 false, firstSwap 3 false] = .ok G
      ∧ G.stabilizer [2] = .ok M ∧ M.verify = true
      ∧ (M.contains (firstSwap 3 false) = true
        ↔ Generated M.degree M.strongGenerators (firstSwap 3 false)) := by
  have hvalid : ∀ g ∈ [rotation 3 false, firstSwap 3 false], g.Valid := by decide +kernel
  have hok : (generate 3 [rotation 3 false, firstSwap 3 false] >>= (·.stabilizer [2])).isOk
      = true := by
    decide +kernel
  obtain ⟨M, hM⟩ := Chain.exists_of_isOk hok
  obtain ⟨G, hG, hM⟩ := exists_of_bind_ok hM
  obtain ⟨-, -, -, hstrong, hverify⟩ :=
    reachable_invariant (.stabilizer (.generate hvalid hG) hM)
  exact ⟨G, M, hG, hM, hverify, hstrong _ (by decide +kernel)⟩

end SignedGroup

end SlotSymmetry
