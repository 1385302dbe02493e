import SlotSymmetry.Proofs.Group.Reachable
import SlotSymmetry.Proofs.Orbit.Partition

/-! # Orbits of a group

    The partition into orbits is read off the list of generators, and
    membership off the chain.  In a reachable group both belong to one subgroup,
    so the lists of the partition are the sets of images of the points under the
    members.  There is only one of them if the orbit of the first point has all
    points, which is what the test for transitivity asks. -/

namespace SlotSymmetry

open SignedPerm (Generated)

variable {n : Nat} {gens : List SignedPerm} {G : SignedGroup}

namespace Orbit

/-- Two points are in one list if a product of generators takes the one to the other. -/
theorem together_iff_generated (hgens : ∀ g ∈ gens, g.On n) {a b : Nat} (ha : a < n) :
    (∃ orbit ∈ partition n gens, a ∈ orbit ∧ b ∈ orbit)
      ↔ ∃ p, Generated n gens p ∧ p.act a = b := by
  rw [partition_eq hgens, (classes_reached hgens).listed_together_iff ha, mem_reached hgens ha]
  exact exists_mem_span_iff hgens fun p => p.act a = b

end Orbit

namespace SignedGroup

/-- What the members of a group make of a point is what its generators reach. -/
theorem Reachable.mem_reached_iff (hG : G.Reachable) {a q : Nat} (ha : a < G.degree) :
    q ∈ Orbit.reached G.degree G.generators a
      ↔ ∃ p : SignedPerm, (p.Valid ∧ G.contains p = true) ∧ p.act a = q := by
  rw [Orbit.mem_reached hG.presents.on ha]
  exact hG.presents.chain.exists_mem_iff fun p => p.act a = q

theorem isTransitive_iff (hgens : ∀ g ∈ G.generators, g.On G.degree) :
    G.isTransitive = true ↔ G.orbits.length ≤ 1 := by
  have hclasses := Orbit.classes_reached hgens
  rw [isTransitive, orbits, Orbit.partition_eq hgens, Bool.or_eq_true, decide_eq_true_iff,
    beq_iff_eq]
  by_cases hsmall : G.degree ≤ 1
  · exact iff_of_true (Or.inl hsmall) (Nat.le_trans (Classes.length_listed_le _ _) hsmall)
  · rw [or_iff_right hsmall, hclasses.length_listed_le_one_iff (by omega), Orbit.reached,
      Array.length_toList]
    rfl

/-- The partition has every point of `0..n` in exactly one list.  Two points are in one list if a
    product of the generators takes the one to the other, every list starts with its smallest
    point, and these ascend.  The lists of a group are the sets of images of the points under its
    members, and the group is transitive if there is at most one. -/
theorem orbits_exact (hgens : ∀ g ∈ gens, g.On n) (hG : G.Reachable) :
    (∃ lists, Orbit.partition? n gens = .ok lists
        ∧ lists.flatten.Perm (List.range n)
        ∧ (∀ a b, a < n → b < n → ((∃ orbit ∈ lists, a ∈ orbit ∧ b ∈ orbit)
          ↔ ∃ p, Generated n gens p ∧ p.act a = b))
        ∧ (∀ orbit ∈ lists, orbit.head? = orbit.min?)
        ∧ ∃ firsts : List Nat, lists.map List.head? = firsts.map some ∧ firsts.Pairwise (· < ·))
      ∧ (∀ orbit ∈ G.orbits, ∃ a, a < G.degree ∧ ∀ q, q ∈ orbit
        ↔ ∃ p : SignedPerm, (p.Valid ∧ G.contains p = true) ∧ p.act a = q)
      ∧ (∀ a, a < G.degree → ∃ orbit ∈ G.orbits, ∀ q, q ∈ orbit
        ↔ ∃ p : SignedPerm, (p.Valid ∧ G.contains p = true) ∧ p.act a = q)
      ∧ (G.isTransitive = true ↔ G.orbits.length ≤ 1) := by
  have hclasses := Orbit.classes_reached hgens
  have hpart := Orbit.partition_eq hG.presents.on
  refine ⟨⟨Orbit.partition n gens, Orbit.partition?_eq hgens, ?_, ?_, ?_, ?_⟩, ?_, ?_,
    isTransitive_iff hG.presents.on⟩
  · rw [Orbit.partition_eq hgens]
    exact hclasses.flatten_perm
  · exact fun a b ha _ => Orbit.together_iff_generated hgens ha
  · rw [Orbit.partition_eq hgens]
    exact fun orbit horbit => hclasses.head_eq_min horbit
  · rw [Orbit.partition_eq hgens]
    exact ⟨_, hclasses.map_head_listed, Classes.pairwise_leading _ _⟩
  · intro orbit horbit
    rw [orbits, hpart] at horbit
    obtain ⟨a, ha, rfl⟩ := Classes.mem_listed.mp horbit
    have hlt := (Classes.mem_leading.mp ha).1
    exact ⟨a, hlt, fun q => hG.mem_reached_iff hlt⟩
  · intro a ha
    obtain ⟨orbit, horbit, hmem⟩ := Orbit.exists_mem_partition hG.presents.on ha
    refine ⟨orbit, horbit, fun q => ?_⟩
    rw [Orbit.mem_of_mem_partition hG.presents.on horbit hmem]
    exact hG.presents.chain.exists_mem_iff fun p => p.act a = q

/-- The swap of two of three points. -/
theorem orbits_exact_swap :
    ∃ G lists, generate 3 [firstSwap 3 true] = .ok G
      ∧ Orbit.partition? 3 [firstSwap 3 true] = .ok lists
      ∧ lists.flatten.Perm (List.range 3) ∧ (∃ orbit ∈ lists, 0 ∈ orbit ∧ 1 ∈ orbit)
      ∧ 1 < G.orbits.length := by
  have hgens : ∀ g ∈ [firstSwap 3 true], g.On 3 := by decide +kernel
  have hmade : (generate 3 [firstSwap 3 true]).toOption.map isTransitive = some false := by
    decide +kernel
  obtain ⟨G, hG, htransitive⟩ := Chain.exists_of_map_toOption hmade
  obtain ⟨⟨lists, hlists, hperm, htogether, -⟩, -, -, hone⟩ :=
    orbits_exact hgens (.generate (fun g hg => (hgens g hg).valid) hG)
  have hgenerated : Generated 3 [firstSwap 3 true] (firstSwap 3 true * .id 3) :=
    .mul List.mem_cons_self .one
  refine ⟨G, lists, hG, hlists, hperm, ?_, ?_⟩
  · exact (htogether 0 1 (by decide) (by decide)).mpr ⟨_, hgenerated, by decide +kernel⟩
  · rw [← Nat.not_le, ← hone, htransitive]
    exact Bool.false_ne_true

end SignedGroup

end SlotSymmetry
