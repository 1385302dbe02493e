import SlotSymmetry.Proofs.Group.Reachable

/-! # The subgroup test

    The subgroup test looks at the list of generators of one group and at the
    chain of another.  Both belong to the subgroups that the groups present, so
    between groups of one degree the test tells whether these are included in
    each other.  Groups of different degrees fail it, and rightly so: the
    identity of one degree is no member of a group of another.  So the test is
    inclusion of the sets of members, whatever the lists and the chains are. -/

namespace SlotSymmetry

namespace SignedGroup

variable {n m : Nat} {H : Subgroup (Signed n)} {K : Subgroup (Signed m)} {A B : SignedGroup}

theorem degree_eq_of_isSubgroupOf (h : A.isSubgroupOf B = true) : A.degree = B.degree := by
  rw [isSubgroupOf, Bool.and_eq_true, beq_iff_eq] at h
  exact h.1

/-- A group that has all members of another one has its degree, as it has its identity. -/
theorem Presents.degree_eq_of_contains (hA : A.Presents n H) (hB : B.Presents m K)
    (hle : ∀ p : SignedPerm, p.Valid → A.contains p = true → B.contains p = true) :
    A.degree = B.degree := by
  have hone : A.contains (1 : Signed n).val = true := (hA.contains_val_iff 1).mpr H.one_mem
  have hvalid := (1 : Signed n).on.valid
  obtain ⟨hon, -⟩ := (hB.contains_iff hvalid).mp (hle _ hvalid hone)
  rw [hA.degree_eq, hB.degree_eq, ← hon.degree_eq, (1 : Signed n).on.degree_eq]

/-- The test tells whether all members of the first group are members of the second. -/
theorem Reachable.isSubgroupOf_iff (hA : A.Reachable) (hB : B.Reachable) :
    A.isSubgroupOf B = true
      ↔ ∀ p : SignedPerm, p.Valid → A.contains p = true → B.contains p = true := by
  by_cases hdegree : A.degree = B.degree
  · have hB' := hB.presents.at_degree hdegree.symm
    rw [hA.presents.isSubgroupOf_iff hB', hA.presents.le_iff_contains hB']
  · refine iff_of_false (fun htest => ?_) (fun hle => ?_)
    · exact hdegree (degree_eq_of_isSubgroupOf htest)
    · exact hdegree (hA.presents.degree_eq_of_contains hB.presents hle)

/-- The subgroup test is inclusion of the sets of members: it is reflexive and transitive, and it
    holds both ways exactly between groups that have the same members. -/
theorem subgroup_test_exact (hA : A.Reachable) (hB : B.Reachable) :
    (A.isSubgroupOf B = true
        ↔ ∀ p : SignedPerm, p.Valid → A.contains p = true → B.contains p = true)
      ∧ A.isSubgroupOf A = true
      ∧ (∀ M : SignedGroup, M.Reachable → A.isSubgroupOf B = true → B.isSubgroupOf M = true →
        A.isSubgroupOf M = true)
      ∧ (A.isSubgroupOf B = true ∧ B.isSubgroupOf A = true
        ↔ ∀ p : SignedPerm, p.Valid → A.contains p = B.contains p) := by
  refine ⟨hA.isSubgroupOf_iff hB, ?_, ?_, ?_⟩
  · exact (hA.isSubgroupOf_iff hA).mpr fun p _ hmem => hmem
  · intro M hM hAB hBM
    rw [hA.isSubgroupOf_iff hB] at hAB
    rw [hB.isSubgroupOf_iff hM] at hBM
    rw [hA.isSubgroupOf_iff hM]
    intro p hp hmem
    exact hBM p hp (hAB p hp hmem)
  · rw [hA.isSubgroupOf_iff hB, hB.isSubgroupOf_iff hA]
    constructor
    · rintro ⟨hAB, hBA⟩ p hp
      exact Bool.eq_iff_iff.mpr ⟨hAB p hp, hBA p hp⟩
    · intro hsame
      refine ⟨fun p hp hmem => ?_, fun p hp hmem => ?_⟩
      · rw [← hsame p hp, hmem]
      · rw [hsame p hp, hmem]

/-- The rotations of three points are some of all permutations, and not all of them. -/
theorem subgroup_test_exact_rotations :
    ∃ A B, generate 3 [rotation 3 false] = .ok A
      ∧ generate 3 [firstSwap 3 false, rotation 3 false] = .ok B
      ∧ (∀ p : SignedPerm, p.Valid → A.contains p = true → B.contains p = true)
      ∧ ¬ ∀ p : SignedPerm, p.Valid → A.contains p = B.contains p := by
  have hvalid : ∀ g ∈ [firstSwap 3 false, rotation 3 false], g.Valid := by decide +kernel
  have hmade : (generate 3 [rotation 3 false]).toOption.map (fun A =>
      (generate 3 [firstSwap 3 false, rotation 3 false]).toOption.map fun B =>
        (A.isSubgroupOf B, B.isSubgroupOf A)) = some (some (true, false)) := by
    decide +kernel
  obtain ⟨A, hA, hmade⟩ := Chain.exists_of_map_toOption hmade
  obtain ⟨B, hB, htests⟩ := Chain.exists_of_map_toOption hmade
  obtain ⟨hAB, hBA⟩ := Prod.mk.inj htests
  obtain ⟨hle, -, -, hsame⟩ := subgroup_test_exact
    (.generate (fun g hg => hvalid g (List.mem_cons_of_mem _ hg)) hA) (.generate hvalid hB)
  refine ⟨A, B, hA, hB, hle.mp hAB, fun hall => ?_⟩
  rw [(hsame.mpr hall).2] at hBA
  exact nomatch hBA

end SignedGroup

end SlotSymmetry
