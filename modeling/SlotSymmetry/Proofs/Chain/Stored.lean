import SlotSymmetry.Chain.Build
import SlotSymmetry.Chain.Stored
import SlotSymmetry.Perm.Stored
import SlotSymmetry.Proofs.Chain.Sift
import SlotSymmetry.Proofs.Orbit.Products
import SlotSymmetry.Proofs.Perm.Tables

/-! # Guards

    The functions for values whose tables are unchecked look for missing entries
    first.  On valid permutations, on orbits that were grown from them and on
    sound chains they find none, so there they are the plain functions.

    The guard of a sift is of use for valid permutations as well, as the chain
    may have another degree.  Then the look-ups of a level carry the images of
    the permutation through the bijections of the generators, so if none is
    missing, what comes out is a bijection of the points of the permutation, not
    of those of the chain (`invMul_valid`).  By induction on the way back and on
    the levels, whatever a sift returns is valid. -/

namespace SlotSymmetry

/-! ## Permutations -/

namespace SignedPerm

variable {n : Nat} {p g h : SignedPerm}

theorem ifInRange_eq {α : Type} (hp : p.Valid) (value : Unit → α) :
    p.ifInRange value = .ok (value ()) :=
  if_pos (On.imageInRange ⟨hp, rfl⟩)

/-- What is asked about a valid permutation does not depend on the guard. -/
theorem stored_eq (hp : p.Valid) :
    p.storedCycles = .ok p.cycles ∧ p.storedTranspositions = .ok p.transpositions
      ∧ p.storedParity = .ok p.parity ∧ p.storedOrder = .ok p.order
      ∧ p.storedDisplay = .ok p.display ∧ ∀ k, p.storedPow k = .ok (p.pow k) := by
  refine ⟨ifInRange_eq hp _, ifInRange_eq hp _, ifInRange_eq hp _, ifInRange_eq hp _,
    ifInRange_eq hp _, fun k => ?_⟩
  rw [storedPow]
  split
  · next hk => rw [hk]
  · exact ifInRange_eq hp _

/-- Going on by a generator backwards, from any permutation whose images are points of the
    generator and come back to points of the permutation. -/
theorem invMul_valid (hg : g.On n) (hh : h.Valid)
    (hlook : ∀ x ∈ h.image, x < n ∧ g.actInv x < h.degree) : (g.invMul h).Valid := by
  have hget : ∀ i, i < h.degree → (h.image.map g.actInv).getD i i = g.actInv (h.act i) := by
    intro i hi
    have hi' : i < h.image.size := hi
    simp [act, hi']
  have hmem : ∀ i, i < h.degree → h.act i ∈ h.image := by
    intro i hi
    rw [← getElem_image (show i < h.image.size from hi)]
    exact Array.getElem_mem hi
  refine (ofImage_on (n := h.degree) (by rw [Array.size_map]; rfl) ?_ ?_).valid
  · intro i hi
    rw [hget i hi]
    exact (hlook _ (hmem i hi)).2
  · intro i j hi hj heq
    rw [hget i hi, hget j hj] at heq
    have hact : h.act i = h.act j := by
      rw [← hg.act_actInv (h.act i), heq, hg.act_actInv]
    exact (show h.On h.degree from ⟨hh, rfl⟩).act_injective hact

end SignedPerm

/-! ## Orbits -/

namespace Orbit

variable {n seed : Nat} {gens : List SignedPerm} {o : Orbit} {q : Nat} {h : SignedPerm}

/-- If the way back from a point misses no entry, undoing it keeps permutations valid. -/
theorem backward_valid (hgens : ∀ g ∈ gens, g.On n) (fuel : Nat) : ∀ (q : Nat) (h : SignedPerm),
    h.Valid → o.canUnwind gens fuel q h = true →
      ((o.backward gens fuel q).foldl (fun h (_, g) => g.invMul h) h).Valid := by
  induction fuel with
  | zero => exact fun _ _ hh _ => hh
  | succ fuel ih =>
      intro q h hh hcan
      cases hlink : o.link q with
      | none =>
          rw [backward_of_unlinked _ hlink]
          exact hh
      | some l =>
          cases l with
          | root =>
              rw [backward_of_root _ hlink]
              exact hh
          | step i =>
              rw [canUnwind, hlink] at hcan
              cases hg : gens[i]? with
              | none =>
                  simp only [hg] at hcan
                  exact nomatch hcan
              | some g =>
                  have hon := hgens g (List.mem_of_getElem? hg)
                  simp only [hg, Bool.and_eq_true, decide_eq_true_eq,
                    Array.all_eq_true_iff_forall_mem, hon.valid.size_preimage,
                    hon.degree_eq] at hcan
                  obtain ⟨⟨-, hlook⟩, hrest⟩ := hcan
                  rw [backward_of_step fuel hlink hg, List.foldl_cons]
                  exact ih _ _ (SignedPerm.invMul_valid hon hh hlook) hrest

theorem unwind_valid (hgens : ∀ g ∈ gens, g.On n) (hh : h.Valid)
    (hcan : o.canUnwind gens o.length q h = true) : (o.unwind gens q h).Valid :=
  backward_valid hgens _ q h hh hcan

/-- A link by a generator stands at a point of the orbit, and the generator is there. -/
theorem Stage.exists_of_link (ho : Stage n gens seed o) {i : Nat}
    (hlink : o.link q = some (.step i)) : q < n ∧ ∃ g, gens[i]? = some g := by
  have hq : o.contains q = true := by rw [← ho.isSome_link, hlink]; rfl
  obtain ⟨place, hplace⟩ := ho.exists_place hq
  obtain ⟨g, -, -, hg, -⟩ := ho.step place q i hplace hlink
  exact ⟨ho.lt_of_contains hq, g, hg⟩

theorem Stage.canReturn (ho : Stage n gens seed o) (hgens : ∀ g ∈ gens, g.On n) (fuel : Nat) :
    ∀ q, o.canReturn gens fuel q = true := by
  induction fuel with
  | zero => exact fun _ => rfl
  | succ fuel ih =>
      intro q
      rw [Orbit.canReturn]
      split
      · next i hlink =>
          obtain ⟨hq, g, hg⟩ := ho.exists_of_link hlink
          have hon := hgens g (List.mem_of_getElem? hg)
          simp [hg, ih, hon.valid.size_preimage, hon.degree_eq, hq]
      · rfl

theorem Stage.canCarry (ho : Stage n gens seed o) (hgens : ∀ g ∈ gens, g.On n) (q : Nat) :
    o.canCarry gens q = true := by
  rw [Orbit.canCarry, ho.canReturn hgens, Bool.true_and, List.all_eq_true]
  exact fun step hstep => (hgens _ (mem_of_mem_backward hstep)).imageInRange

theorem Stage.canUnwind (ho : Stage n gens seed o) (hgens : ∀ g ∈ gens, g.On n) (fuel : Nat) :
    ∀ (q : Nat) (h : SignedPerm), h.On n → o.canUnwind gens fuel q h = true := by
  induction fuel with
  | zero => exact fun _ _ _ => rfl
  | succ fuel ih =>
      intro q h hh
      rw [Orbit.canUnwind]
      split
      · next i hlink =>
          obtain ⟨hq, g, hg⟩ := ho.exists_of_link hlink
          have hon := hgens g (List.mem_of_getElem? hg)
          have hrest := ih (g.actInv q) (g.invMul h) (hon.inverse.mul hh)
          have hlook : h.image.all
              (fun x => x < g.preimage.size && g.actInv x < h.degree) = true := by
            refine Array.all_eq_true_iff_forall_mem.mpr fun x hx => ?_
            have hlt := Array.all_eq_true_iff_forall_mem.mp hh.imageInRange x hx
            rw [decide_eq_true_eq, hh.degree_eq] at hlt
            simp [hon.valid.size_preimage, hon.degree_eq, hh.degree_eq, hlt, hon.actInv_lt hlt]
          simp only [hg]
          rw [hlook, hrest, Bool.and_true, Bool.and_true, decide_eq_true_eq,
            hon.valid.size_preimage, hon.degree_eq]
          exact hq
      · rfl

/-- On a grown orbit of valid generators, no entry is missing. -/
theorem Stage.stored_eq (ho : Stage n gens seed o) (hgens : ∀ g ∈ gens, g.On n) (q : Nat) :
    o.storedPath gens q = .ok (o.path gens q)
      ∧ o.storedTransversal gens q = .ok (o.transversal gens q) :=
  ⟨if_pos (ho.canReturn hgens _ q), if_pos (ho.canCarry hgens q)⟩

theorem storedStabilizerGenerators_eq (hgens : ∀ g ∈ gens, g.On n) (degree point : Nat) :
    storedStabilizerGenerators degree gens point = stabilizerGenerators degree gens point := by
  rw [storedStabilizerGenerators, stabilizerGenerators]
  simp only [storedSchreierGenerators_eq hgens]

end Orbit

/-! ## Sifting -/

section Sift

variable {n : Nat} {level : Level} {levels : List Level} {c : Chain} {h h' p r : SignedPerm}
  {passed : Nat}

theorem Level.Sound.strip_valid (hlevel : level.Sound n) (hh : h.Valid)
    (hcan : level.canStrip h = true) (hstrip : level.strip h = some h') : h'.Valid := by
  rw [Level.canStrip, Bool.and_eq_true, Bool.or_eq_true] at hcan
  rw [Level.strip] at hstrip
  split at hstrip
  · next hmem =>
      rw [hmem] at hcan
      rw [← Option.some.inj hstrip]
      exact Orbit.unwind_valid hlevel.on hh (hcan.2.resolve_left Bool.false_ne_true)
  · cases hstrip

/-- If no entry is missing, a sift through sound levels leaves a valid permutation. -/
theorem sift_valid (hsound : ∀ level ∈ levels, level.Sound n) (hh : h.Valid)
    (hcan : canSiftThrough levels h = true) : (sift levels h).1.Valid := by
  induction levels generalizing h with
  | nil => exact hh
  | cons level below ih =>
      obtain ⟨hlevel, hbelow⟩ := List.forall_mem_cons.mp hsound
      rw [canSiftThrough, Bool.and_eq_true] at hcan
      rw [sift]
      cases hstrip : level.strip h with
      | none => exact hh
      | some h' =>
          rw [hstrip, Option.all_some] at hcan
          exact ih hbelow (hlevel.strip_valid hh hcan.1 hstrip) hcan.2

theorem Level.Sound.canStrip (hlevel : level.Sound n) (x : Signed n) :
    level.canStrip x.val = true := by
  rw [Level.canStrip]
  simp [x.on.degree_eq, hlevel.basePoint_lt, hlevel.stage.canUnwind hlevel.on _ _ _ x.on]

theorem canSiftThrough_of_sound (hsound : ∀ level ∈ levels, level.Sound n) (x : Signed n) :
    canSiftThrough levels x.val = true := by
  induction levels generalizing x with
  | nil => rfl
  | cons level below ih =>
      obtain ⟨hlevel, hbelow⟩ := List.forall_mem_cons.mp hsound
      rw [canSiftThrough, hlevel.canStrip, Bool.true_and]
      cases hx : level.orbit.contains (x • level.basePoint) with
      | false =>
          rw [Level.strip_of_not_contains hx]
          rfl
      | true =>
          rw [hlevel.strip_of_contains hx]
          exact ih hbelow (hlevel.remainder x)

namespace Chain

/-- Whatever a sift returns is valid, also for a permutation of another degree than the chain. -/
theorem Sound.storedSift_valid (hc : c.Sound) (hp : p.Valid)
    (hsift : c.storedSift p = .ok (r, passed)) : r.Valid := by
  rw [storedSift] at hsift
  split at hsift
  · next hcan =>
      have hr : (c.sift p).1 = r := congrArg Prod.fst (Except.ok.inj hsift)
      rw [← hr]
      exact sift_valid hc hp hcan
  · exact nomatch hsift

/-- The rotation takes the images of the swap of two points to the third one, which the swap does
    not have. -/
example : (buildWithBase 3 [⟨#[1, 2, 0], #[2, 0, 1], false⟩] []).toOption.map
    (fun c => c.storedSift ⟨#[1, 0], #[1, 0], false⟩) = some (.error .missingEntry) := by
  decide +kernel

/-- A permutation of the points of the chain can be sifted. -/
theorem Sound.storedSift_eq (hc : c.Sound) (hp : p.On c.degree) :
    c.storedSift p = .ok (c.sift p) :=
  if_pos (canSiftThrough_of_sound hc ⟨p, hp⟩)

/-- Membership of a valid permutation is decided whatever its degree is. -/
theorem Sound.storedContains_eq (hc : c.Sound) (hp : p.Valid) :
    c.storedContains p = .ok (c.contains p) := by
  refine if_pos ?_
  by_cases hdegree : p.degree = c.degree
  · rw [Chain.canSift, canSiftThrough_of_sound hc ⟨p, hp, hdegree⟩, Bool.or_true]
  · rw [bne_iff_ne.mpr hdegree, Bool.true_or]

end Chain

end Sift

end SlotSymmetry
