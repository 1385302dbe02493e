import SlotSymmetry.Proofs.Chain.Factorization
import SlotSymmetry.Proofs.Chain.Check

/-! # Groups and subgroups

    A group presents a subgroup `H` of the signed permutations of `0..n` when
    its list of generators spans `H` and its chain is a finished chain for `H`.
    The list and the chain of such a group never disagree: membership, the
    subgroup test and the check can be read off `H`, whichever of the two they
    look at.  Any list of valid permutations that does not span the
    antisymmetric identity generates a group that presents its span. -/

namespace SlotSymmetry

open SignedPerm (Generated)

namespace SignedGroup

/-- The list of generators and the chain of the group are those of the subgroup `H`. -/
structure Presents (n : Nat) (H : Subgroup (Signed n)) (G : SignedGroup) : Prop where
  degree_eq : G.degree = n
  on : ∀ g ∈ G.generators, g.On n
  span_eq : Signed.span n G.generators = H
  chain : G.chain.Finished n H []

variable {n : Nat} {H K : Subgroup (Signed n)} {G G' : SignedGroup} {gens : List SignedPerm}

/-! ## Membership -/

theorem Presents.contains_iff (hG : G.Presents n H) {p : SignedPerm} (hp : p.Valid) :
    G.contains p = true ↔ ∃ hon : p.On n, (⟨p, hon⟩ : Signed n) ∈ H :=
  hG.chain.contains_iff hp

theorem Presents.contains_val_iff (hG : G.Presents n H) (x : Signed n) :
    G.contains x.val = true ↔ x ∈ H := by
  rw [hG.contains_iff x.on.valid]
  exact ⟨fun ⟨_, hmem⟩ => hmem, fun hmem => ⟨x.on, hmem⟩⟩

/-- Inverses of members are members. -/
theorem Presents.inverse_mem (hG : G.Presents n H) {p : SignedPerm} (hp : p.Valid)
    (hmem : G.contains p = true) : p.On n ∧ G.contains p.inverse = true := by
  obtain ⟨hon, hmem⟩ := (hG.contains_iff hp).mp hmem
  exact ⟨hon, (hG.contains_val_iff ⟨p, hon⟩⁻¹).mpr (H.inv_mem hmem)⟩

theorem Presents.flip_not_mem (hG : G.Presents n H) : Signed.flip n ∉ H := hG.chain.flip_not_mem

theorem Presents.strongGenerators_on (hG : G.Presents n H) : ∀ g ∈ G.strongGenerators, g.On n :=
  hG.chain.strongGenerators_on

theorem Presents.span_strongGenerators (hG : G.Presents n H) :
    Signed.span n G.strongGenerators = H :=
  hG.chain.span_strongGenerators

theorem Presents.nodup_base (hG : G.Presents n H) : G.base.Nodup := hG.chain.nodup_base

theorem Presents.base_lt (hG : G.Presents n H) : ∀ b ∈ G.base, b < n := by
  intro b hb
  obtain ⟨level, hlevel, rfl⟩ := List.mem_map.mp hb
  exact (hG.chain.stacked.sound level hlevel).basePoint_lt

/-- Membership is being a finite product of members of any list that spans the subgroup. -/
theorem Presents.contains_iff_generated (hG : G.Presents n H) (hgens : ∀ g ∈ gens, g.On n)
    (hspan : Signed.span n gens = H) {p : SignedPerm} (hp : p.Valid) :
    G.contains p = true ↔ Generated n gens p := by
  rw [hG.contains_iff hp, generated_iff hgens, hspan]

theorem Presents.order_eq (hG : G.Presents n H) : G.order = Nat.card H := hG.chain.order_eq

theorem Presents.verify (hG : G.Presents n H) : G.verify = true := by
  rw [SignedGroup.verify, hG.chain.verify, Bool.true_and, List.all_eq_true]
  intro g hg
  have hmem := mem_span_of_mem (hG.on g hg) hg
  rw [hG.span_eq] at hmem
  exact (hG.contains_val_iff ⟨g, hG.on g hg⟩).mpr hmem

/-! ## Subgroups -/

theorem Presents.isSubgroupOf_iff (hG : G.Presents n H) (hG' : G'.Presents n K) :
    G.isSubgroupOf G' = true ↔ H ≤ K := by
  rw [isSubgroupOf, Bool.and_eq_true, hG.degree_eq, hG'.degree_eq, List.all_eq_true,
    ← hG.span_eq, span_le]
  constructor
  · rintro ⟨-, hall⟩ g hg
    exact (hG'.contains_val_iff g).mp (hall g.val hg)
  · intro hle
    refine ⟨beq_self_eq_true n, fun g hg => ?_⟩
    exact (hG'.contains_val_iff ⟨g, hG.on g hg⟩).mpr (hle _ hg)

/-- Inclusion of subgroups, told by the members that groups accept. -/
theorem Presents.le_iff_contains (hG : G.Presents n H) (hG' : G'.Presents n K) :
    H ≤ K ↔ ∀ p : SignedPerm, p.Valid → G.contains p = true → G'.contains p = true := by
  constructor
  · intro hle p hp hmem
    obtain ⟨hon, hmem⟩ := (hG.contains_iff hp).mp hmem
    exact (hG'.contains_iff hp).mpr ⟨hon, hle hmem⟩
  · intro h x hx
    exact (hG'.contains_val_iff x).mp (h x.val x.on.valid ((hG.contains_val_iff x).mpr hx))

/-! ## Making groups -/

theorem trivial_presents (n : Nat) : (trivial n).Presents n ⊥ :=
  ⟨rfl, nofun, span_nil, Chain.trivial_finished n⟩

theorem presents_of_generate (hgens : ∀ g ∈ gens, g.On n) (hG : generate n gens = .ok G) :
    G.Presents n (Signed.span n gens) := by
  obtain ⟨c, hc, rfl⟩ := Chain.generate_ok_iff.mp hG
  have hempty : ∀ b ∈ ([] : List Nat), b < n := nofun
  exact ⟨rfl, hgens, rfl, Chain.finished_of_ok hgens hempty hc⟩

/-- A list that spans a subgroup without the antisymmetric identity generates a group. -/
theorem exists_generate (hgens : ∀ g ∈ gens, g.On n) (hflip : Signed.flip n ∉ Signed.span n gens) :
    ∃ G, generate n gens = .ok G ∧ G.Presents n (Signed.span n gens) := by
  have hflip' : ¬ Generated n gens (SignedPerm.id n).negated :=
    fun h => hflip ((Chain.flip_generated_iff hgens).mp h)
  have hempty : ∀ b ∈ ([] : List Nat), b < n := nofun
  obtain ⟨c, hc⟩ := Chain.exists_ok hgens hempty hflip'
  have hG : generate n gens = .ok ⟨n, gens, c⟩ := Chain.generate_ok_iff.mpr ⟨c, hc, rfl⟩
  exact ⟨_, hG, presents_of_generate hgens hG⟩

/-- A chain for the same subgroup, with other points at the start of its base. -/
theorem Presents.exists_rebased (hG : G.Presents n H) {wanted : List Nat}
    (hlt : ∀ b ∈ wanted, b < n) :
    ∃ c, Chain.buildWithBase n G.strongGenerators wanted = .ok c
      ∧ c.Finished n H wanted.eraseDups := by
  have hflip : ¬ Generated n G.strongGenerators (SignedPerm.id n).negated := by
    rw [Chain.flip_generated_iff hG.strongGenerators_on, hG.span_strongGenerators]
    exact hG.flip_not_mem
  obtain ⟨c, hc⟩ := Chain.exists_ok hG.strongGenerators_on hlt hflip
  refine ⟨c, hc, ?_⟩
  rw [← hG.span_strongGenerators]
  exact Chain.finished_of_ok hG.strongGenerators_on hlt hc

end SignedGroup

end SlotSymmetry
