import SlotSymmetry.Proofs.Orbit.Schreier

/-! # What an orbit returns

    An orbit holds points and links, but no permutations: what it returns is
    multiplied together from the generators that it is given.  Whatever its
    links are, the way back from a point meets members of the list only
    (`mem_of_mem_backward`), so products along it are valid permutations of the
    points of the orbit if the members of the list are. -/

namespace SlotSymmetry

namespace Orbit

variable {n : Nat} {gens : List SignedPerm} {o : Orbit} {q : Nat} {p : SignedPerm}

/-! ## Products along the way back -/

theorem mem_of_mem_backward {fuel : Nat} {step : Nat × SignedPerm}
    (hstep : step ∈ o.backward gens fuel q) : step.2 ∈ gens := by
  induction fuel generalizing q with
  | zero => exact absurd hstep List.not_mem_nil
  | succ fuel ih =>
      rw [backward] at hstep
      split at hstep
      · split at hstep
        · next g hg =>
            rcases List.mem_cons.mp hstep with rfl | hstep
            · exact List.mem_of_getElem? hg
            · exact ih hstep
        · exact absurd hstep List.not_mem_nil
      · exact absurd hstep List.not_mem_nil

section On

variable (hgens : ∀ g ∈ gens, g.On n)
include hgens

theorem carrier_on (hdegree : o.degree = n) (q : Nat) : (o.carrier gens q).On n := by
  rw [carrier, hdegree]
  refine List.foldlRecOn _ _ (SignedPerm.id_on n) fun t ht step hstep => ?_
  exact ht.mul (hgens _ (mem_of_mem_backward hstep))

theorem unwind_on (q : Nat) {h : SignedPerm} (hh : h.On n) : (o.unwind gens q h).On n := by
  refine List.foldlRecOn _ _ hh fun h hh step hstep => ?_
  exact (hgens _ (mem_of_mem_backward hstep)).inverse.mul hh

theorem transversal_on (hdegree : o.degree = n) (hp : o.transversal gens q = some p) :
    p.On n := by
  rw [transversal] at hp
  split at hp
  · rw [← Option.some.inj hp]
    exact carrier_on hgens hdegree q
  · cases hp

theorem loops_on (hdegree : o.degree = n) (hp : p ∈ o.loops gens) : p.On n := by
  obtain ⟨q, -, hp⟩ := List.mem_flatMap.mp hp
  obtain ⟨g, hg, rfl⟩ := List.mem_map.mp hp
  exact unwind_on hgens _ ((hgens g hg).mul (carrier_on hgens hdegree q))

theorem schreierGenerators_on (hdegree : o.degree = n) {ls : List SignedPerm}
    (hls : o.schreierGenerators gens = .ok ls) (hp : p ∈ ls) : p.On n := by
  rw [(schreierGenerators_ok hls).2, SignedPerm.mem_distinct] at hp
  exact loops_on hgens hdegree (List.mem_of_mem_filter hp)

end On

theorem exists_of_stabilizerGenerators {degree point : Nat} {ls : List SignedPerm}
    (hls : stabilizerGenerators degree gens point = .ok ls) :
    ∃ o, ofSeed degree gens point = .ok o ∧ o.schreierGenerators gens = .ok ls := by
  rw [stabilizerGenerators] at hls
  cases ho : ofSeed degree gens point with
  | error e =>
      rw [ho] at hls
      cases hls
  | ok o =>
      rw [ho] at hls
      exact ⟨o, rfl, hls⟩

/-! ## Whatever is returned -/

/-- The permutations that come out of an orbit, by generators that act on its points, and those
    that come out of the generators by the orbit of a point. -/
inductive Yields (gens : List SignedPerm) : SignedPerm → Prop where
  | transversal {o : Orbit} {q : Nat} {p : SignedPerm} (same : ∀ g ∈ gens, g.degree = o.degree)
      (made : o.transversal gens q = some p) : Yields gens p
  | loop {o : Orbit} {ls : List SignedPerm} {p : SignedPerm}
      (same : ∀ g ∈ gens, g.degree = o.degree) (made : o.schreierGenerators gens = .ok ls)
      (listed : p ∈ ls) : Yields gens p
  | stabilizer {degree point : Nat} {ls : List SignedPerm} {p : SignedPerm}
      (made : stabilizerGenerators degree gens point = .ok ls) (listed : p ∈ ls) :
      Yields gens p

theorem Yields.valid (h : Yields gens p) (hgens : ∀ g ∈ gens, g.Valid) : p.Valid := by
  cases h with
  | transversal same made =>
      exact (transversal_on (fun g hg => ⟨hgens g hg, same g hg⟩) rfl made).valid
  | loop same made listed =>
      exact (schreierGenerators_on (fun g hg => ⟨hgens g hg, same g hg⟩) rfl made listed).valid
  | @stabilizer degree point _ _ made listed =>
      obtain ⟨o, ho, hls⟩ := exists_of_stabilizerGenerators made
      obtain ⟨hpoint, hdegrees, rfl⟩ := inputs_of_ofSeed ho
      have hdegree := (grow_stage gens hpoint).degree_eq
      exact (schreierGenerators_on (fun g hg => ⟨hgens g hg, hdegrees g hg⟩) hdegree hls
        listed).valid

end Orbit

end SlotSymmetry
