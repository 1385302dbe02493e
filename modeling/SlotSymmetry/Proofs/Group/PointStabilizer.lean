import SlotSymmetry.Proofs.Group.Derived

/-! # Stabilizers of points

    The stabilizer of any points of a reachable group has exactly the elements
    that fix each of them, and the request only fails for a point past the
    degree.  The orbit of a single point, put on top of the chain of its
    stabilizer, makes complete levels for the whole group, so the length of the
    orbit and the order of the stabilizer multiply to the order of the group. -/

namespace SlotSymmetry

namespace SignedGroup

open SignedPerm (find_outside_eq exists_first_outside)

variable {n : Nat} {H : Subgroup (Signed n)} {G M : SignedGroup}

theorem mem_fixing_singleton {point : Nat} {x : Signed n} :
    x ∈ fixingSubgroup (Signed n) {q | q ∈ [point]} ↔ x • point = point := by
  rw [mem_fixingSubgroup_iff]
  simp

/-- The length of the orbit of a point times the order of its stabilizer. -/
theorem Presents.orbit_length_mul (hG : G.Presents n H) {point : Nat} (hpoint : point < n)
    (hM : M.Presents n (H ⊓ fixingSubgroup (Signed n) {q | q ∈ [point]})) :
    (Orbit.grow n G.generators point).length * M.order = G.order := by
  have hsound := Level.ofGenerators_sound hG.on hpoint
  have hgroup : (Level.ofGenerators n G.generators point).group n = H := hG.span_eq
  have hbase : (Level.ofGenerators n G.generators point).basePoint = point :=
    Level.basePoint_ofGenerators hpoint
  -- the orbit on top of the levels of the stabilizer
  have hcomplete : Complete n (.ofGenerators n G.generators point :: M.chain.levels) := by
    refine ⟨hsound, ?_, hM.chain.complete⟩
    rw [hM.chain.stacked.top, hgroup, hbase]
    ext x
    rw [Subgroup.mem_inf, Subgroup.mem_inf, mem_fixing_singleton, MulAction.mem_stabilizer_iff]
  have hcard := hcomplete.card_topGroup
  rw [topGroup, hgroup, List.map_cons, List.prod_cons] at hcard
  rw [hG.order_eq, hcard, order, Chain.order_eq_prod]
  rfl

/-! ## Requests -/

/-- The first point past the degree is reported. -/
theorem stabilizer_of_outside {points before after : List Nat} {q : Nat}
    (hpoints : points = before ++ q :: after) (hbefore : ∀ b ∈ before, b < G.degree)
    (hq : G.degree ≤ q) : G.stabilizer points = .error (.perm (.outOfRange q G.degree)) := by
  rw [stabilizer, Chain.buildWithBase, Chain.startingBase, find_outside_eq hpoints hbefore hq]
  rfl

theorem Presents.stabilizer_contains_iff (hG : G.Presents n H) {points : List Nat}
    (hM : M.Presents n (H ⊓ fixingSubgroup (Signed n) {q | q ∈ points})) {p : SignedPerm}
    (hp : p.Valid) :
    M.contains p = true ↔ G.contains p = true ∧ ∀ q ∈ points, p.act q = q := by
  rw [hG.contains_inf_iff hM hp]
  refine and_congr_right fun hmem => ?_
  obtain ⟨hon, -⟩ := (hG.contains_iff hp).mp hmem
  rw [exists_prop_of_true hon, mem_fixingSubgroup_iff]
  rfl

/-- The stabilizer of points has exactly the elements of the group that fix each of them.  For one
    point, its order and the length of the orbit of the point make the order of the group.  The
    first point past the degree is refused, and signs never clash. -/
theorem stabilizer_exact (hG : G.Reachable) (points : List Nat) :
    ((∀ q ∈ points, q < G.degree) → ∃ M, G.stabilizer points = .ok M
        ∧ ∀ p : SignedPerm, p.Valid →
          (M.contains p = true ↔ G.contains p = true ∧ ∀ q ∈ points, p.act q = q))
      ∧ (∀ point, point < G.degree → ∃ M o, G.stabilizer [point] = .ok M
        ∧ G.orbit point = .ok o ∧ o.length * M.order = G.order)
      ∧ (∀ before q after, points = before ++ q :: after → (∀ b ∈ before, b < G.degree) →
        G.degree ≤ q → G.stabilizer points = .error (.perm (.outOfRange q G.degree)))
      ∧ G.stabilizer points ≠ .error .inconsistentGenerators := by
  have hp := hG.presents
  refine ⟨fun hlt => ?_, fun point hpoint => ?_, fun before q after hpoints hbefore hq => ?_, ?_⟩
  · obtain ⟨M, hM, hpresents⟩ := exists_stabilizer hp hlt
    exact ⟨M, hM, fun p hvalid => hp.stabilizer_contains_iff hpresents hvalid⟩
  · obtain ⟨M, hM, hpresents⟩ := exists_stabilizer hp (List.forall_mem_singleton.mpr hpoint)
    exact ⟨M, _, hM, Orbit.ofSeed_eq_grow hp.on hpoint, hp.orbit_length_mul hpoint hpresents⟩
  · exact stabilizer_of_outside hpoints hbefore hq
  · rcases exists_first_outside points G.degree with hlt | ⟨before, q, after, hpoints, hbefore, hq⟩
    · obtain ⟨M, hM, -⟩ := exists_stabilizer hp hlt
      rw [hM]
      exact nofun
    · rw [stabilizer_of_outside hpoints hbefore hq]
      exact nofun

/-- All permutations of three points: the last one, listed twice, and its orbit. -/
theorem stabilizer_exact_last :
    ∃ G M, generate 3 [rotation 3 false, firstSwap 3 false] = .ok G
      ∧ G.stabilizer [2, 2] = .ok M ∧ M.contains (firstSwap 3 false) = true
      ∧ M.contains (rotation 3 false) = false
      ∧ (∃ M' o, G.stabilizer [2] = .ok M' ∧ G.orbit 2 = .ok o ∧ o.length * M'.order = G.order)
      ∧ G.stabilizer [2, 3, 5] = .error (.perm (.outOfRange 3 3)) := by
  have hvalid : ∀ g ∈ [rotation 3 false, firstSwap 3 false], g.Valid := by decide +kernel
  have hmade : (generate 3 [rotation 3 false, firstSwap 3 false]).toOption.map
      (fun G => (G.degree, G.contains (firstSwap 3 false))) = some (3, true) := by
    decide +kernel
  obtain ⟨G, hG, heq⟩ := Chain.exists_of_map_toOption hmade
  obtain ⟨hdegree, hswap⟩ := Prod.mk.inj heq
  have hreachable : G.Reachable := .generate hvalid hG
  obtain ⟨M, hM, hexact⟩ := (stabilizer_exact hreachable [2, 2]).1 (by rw [hdegree]; decide)
  have hcount := (stabilizer_exact hreachable [2]).2.1 2 (by rw [hdegree]; decide)
  have hrefused := (stabilizer_exact hreachable [2, 3, 5]).2.2.1 [2] 3 [5] rfl
    (by rw [hdegree]; decide) (by rw [hdegree])
  refine ⟨G, M, hG, hM, (hexact _ (hvalid _ (by simp))).mpr ⟨hswap, by decide +kernel⟩, ?_,
    hcount, hdegree ▸ hrefused⟩
  rw [Bool.eq_false_iff, ne_eq, hexact _ (hvalid _ List.mem_cons_self)]
  rintro ⟨-, hfix⟩
  exact absurd (hfix 2 List.mem_cons_self) (by decide +kernel)

end SignedGroup

end SlotSymmetry
