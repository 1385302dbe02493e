import SlotSymmetry.Proofs.Group.Reachable

/-! # Derived groups

    Without limits, the intersection of two reachable groups of one degree has
    exactly the common elements, signs included, and the stabilizer of a set of
    points has exactly the elements of the group that map the set onto itself.
    Both always come to an answer: the only thing that can be wrong with the
    request is the degree of a group or a point past it. -/

namespace SlotSymmetry

namespace SignedGroup

variable {n : Nat} {H K : Subgroup (Signed n)} {G G' M : SignedGroup}

theorem Presents.contains_inf_iff (hG : G.Presents n H) (hM : M.Presents n (H ⊓ K))
    {p : SignedPerm} (hp : p.Valid) :
    M.contains p = true ↔ G.contains p = true ∧ ∃ hon : p.On n, (⟨p, hon⟩ : Signed n) ∈ K := by
  rw [hM.contains_iff hp, hG.contains_iff hp]
  constructor
  · rintro ⟨hon, hmem⟩
    exact ⟨⟨hon, hmem.1⟩, hon, hmem.2⟩
  · rintro ⟨⟨hon, hH⟩, _, hK⟩
    exact ⟨hon, hH, hK⟩

/-- An answer that holds without limits is a result. -/
theorem Answers.result {K : Subgroup (Signed n)} {o : Outcome SignedGroup}
    (h : Answers n K .unlimited o) : ∃ M, o.toResult = .ok M ∧ M.Presents n K := by
  obtain ⟨M, rfl, hM⟩ := h.whole rfl
  exact ⟨M, rfl, hM⟩

/-! ## Intersections -/

/-- The intersection of groups of one degree has exactly the common elements.  Groups of different
    degrees have none. -/
theorem intersection_exact (hG : G.Reachable) (hG' : G'.Reachable) :
    (G.degree = G'.degree →
        ∃ M, (G.intersection G' .unlimited >>= Outcome.toResult) = .ok M
          ∧ ∀ p : SignedPerm, p.Valid →
            (M.contains p = true ↔ G.contains p = true ∧ G'.contains p = true))
      ∧ (G.degree ≠ G'.degree →
        (G.intersection G' .unlimited >>= Outcome.toResult)
          = .error (.perm (.degreeMismatch G.degree G'.degree))) := by
  constructor
  · intro hsame
    have hp := hG.presents
    have hp' := hG'.presents.at_degree hsame.symm
    obtain ⟨o, ho, hanswers⟩ := intersection_answers hp hp' .unlimited
    obtain ⟨M, hM, hpresents⟩ := hanswers.result
    rw [ho]
    refine ⟨M, hM, fun p hvalid => ?_⟩
    rw [hp.contains_inf_iff hpresents hvalid, hp'.contains_iff hvalid]
  · intro hne
    rw [intersection_of_ne hne]
    rfl

/-- The rotations of three points and the swap of two of them. -/
theorem intersection_exact_rotations :
    ∃ G G' M, generate 3 [rotation 3 false] = .ok G ∧ generate 3 [firstSwap 3 false] = .ok G'
      ∧ (G.intersection G' .unlimited >>= Outcome.toResult) = .ok M
      ∧ M.contains (SignedPerm.id 3) = true ∧ M.contains (rotation 3 false) = false := by
  have hrotation : (rotation 3 false).Valid := by decide +kernel
  have hswap : (firstSwap 3 false).Valid := by decide +kernel
  have hrotations : (generate 3 [rotation 3 false]).toOption.map
      (fun G => (G.degree, G.contains (SignedPerm.id 3))) = some (3, true) := by
    decide +kernel
  have hswaps : (generate 3 [firstSwap 3 false]).toOption.map
      (fun G => (G.degree, G.contains (SignedPerm.id 3), G.contains (rotation 3 false)))
      = some (3, true, false) := by
    decide +kernel
  obtain ⟨G, hG, heq⟩ := Chain.exists_of_map_toOption hrotations
  obtain ⟨G', hG', heq'⟩ := Chain.exists_of_map_toOption hswaps
  simp only [Prod.mk.injEq] at heq heq'
  obtain ⟨hdegree, hid⟩ := heq
  obtain ⟨hdegree', hid', hnot⟩ := heq'
  obtain ⟨M, hM, hexact⟩ := (intersection_exact
    (.generate (List.forall_mem_singleton.mpr hrotation) hG)
    (.generate (List.forall_mem_singleton.mpr hswap) hG')).1 (hdegree.trans hdegree'.symm)
  refine ⟨G, G', M, hG, hG', hM, (hexact _ (SignedPerm.id_on 3).valid).mpr ⟨hid, hid'⟩, ?_⟩
  rw [Bool.eq_false_iff, ne_eq, hexact _ hrotation, hnot]
  exact fun hboth => nomatch hboth.2

/-! ## Stabilizers of sets -/

/-- The stabilizer of a set of points of the group has exactly the elements that map the set onto
    itself.  A point past the degree is refused. -/
theorem setwiseStabilizer_exact (hG : G.Reachable) (points : List Nat) :
    ((∀ q ∈ points, q < G.degree) →
        ∃ M, (G.setwiseStabilizer points .unlimited >>= Outcome.toResult) = .ok M
          ∧ ∀ p : SignedPerm, p.Valid → (M.contains p = true
            ↔ G.contains p = true ∧ ∀ q, q ∈ points.map p.act ↔ q ∈ points))
      ∧ ((∃ q ∈ points, G.degree ≤ q) →
        ∃ point ∈ points, G.degree ≤ point
          ∧ (G.setwiseStabilizer points .unlimited >>= Outcome.toResult)
            = .error (.perm (.outOfRange point G.degree))) := by
  constructor
  · intro hlt
    have hp := hG.presents
    obtain ⟨o, ho, hanswers⟩ := setwiseStabilizer_answers hp hlt .unlimited
    obtain ⟨M, hM, hpresents⟩ := hanswers.result
    rw [ho]
    refine ⟨M, hM, fun p hvalid => ?_⟩
    rw [hp.contains_inf_iff hpresents hvalid]
    refine and_congr_right fun hmem => ?_
    obtain ⟨hon, -⟩ := (hp.contains_iff hvalid).mp hmem
    exact ⟨fun ⟨_, hstable⟩ => mem_setStabilizer_iff_map.mp hstable,
      fun hstable => ⟨hon, mem_setStabilizer_iff_map.mpr hstable⟩⟩
  · rintro ⟨q, hq, hpast⟩
    rcases find_outside points G.degree with ⟨point, hmem, hle, hfind⟩ | ⟨hlt, -⟩
    · refine ⟨point, hmem, hle, ?_⟩
      rw [setwiseStabilizer_of_outside hfind]
      rfl
    · exact absurd (hlt q hq) (Nat.not_lt.mpr hpast)

/-- All permutations of three points, and the set of the first and the last of them. -/
theorem setwiseStabilizer_exact_pair :
    ∃ G M, generate 3 [rotation 3 false, firstSwap 3 false] = .ok G
      ∧ (G.setwiseStabilizer [2, 0, 2] .unlimited >>= Outcome.toResult) = .ok M
      ∧ M.contains (SignedPerm.ofImage #[2, 1, 0] false) = true
      ∧ M.contains (rotation 3 false) = false := by
  have hvalid : ∀ g ∈ [rotation 3 false, firstSwap 3 false], g.Valid := by decide +kernel
  have hmade : (generate 3 [rotation 3 false, firstSwap 3 false]).toOption.map
      (fun G => (G.degree, G.contains (SignedPerm.ofImage #[2, 1, 0] false)))
      = some (3, true) := by
    decide +kernel
  obtain ⟨G, hG, heq⟩ := Chain.exists_of_map_toOption hmade
  obtain ⟨hdegree, hmem⟩ := Prod.mk.inj heq
  obtain ⟨M, hM, hexact⟩ := (setwiseStabilizer_exact (.generate hvalid hG) [2, 0, 2]).1
    (by rw [hdegree]; decide)
  have hflipped : [2, 0, 2].map (SignedPerm.ofImage #[2, 1, 0] false).act = [0, 2, 0] := by
    decide +kernel
  have hrotated : 1 ∈ [2, 0, 2].map (rotation 3 false).act := by decide +kernel
  refine ⟨G, M, hG, hM, (hexact _ (by decide +kernel)).mpr ⟨hmem, fun q => ?_⟩, ?_⟩
  · rw [hflipped]
    simp only [List.mem_cons, List.not_mem_nil, or_false]
    omega
  · rw [Bool.eq_false_iff, ne_eq, hexact _ (hvalid _ List.mem_cons_self)]
    rintro ⟨-, hstable⟩
    exact absurd ((hstable 1).mp hrotated) (by decide)

end SignedGroup

end SlotSymmetry
