import SlotSymmetry.Proofs.Chain.Factorization

/-! # Decomposition

    A sift takes one transversal element off per level that it passes, so the
    element is their product with the residue.  If an element of the group is
    multiplied from the left, the sift goes just as deep: at every level the
    base point is moved inside its orbit, or outside of it, and what is left
    changes by an element of the levels below (`Sifts.mul_left`).  Past the last
    level only the identity is left, and the residue is the same. -/

namespace SlotSymmetry

open SignedPerm (Generated)

section

variable {n : Nat} {level : Level} {below levels : List Level} {x y r : Signed n} {k : Nat}

/-! ## Factors -/

/-- What a sift takes off is a product of transversal elements of the levels it passes. -/
theorem Sifts.exists_factors (h : Sifts n levels x r k) :
    ∃ qs t, transversalProduct n (levels.take k) qs = some t.val ∧ x = t * r := by
  induction h with
  | done x => exact ⟨[], 1, rfl, (one_mul x).symm⟩
  | @stop _ _ x _ => exact ⟨[], 1, rfl, (one_mul x).symm⟩
  | @pass level below x r k hsound hx _ ih =>
      obtain ⟨qs, t, hqs, hrest⟩ := ih
      refine ⟨x • level.basePoint :: qs, hsound.transporter (x • level.basePoint) * t, ?_, ?_⟩
      · rw [List.take_succ_cons, transversalProduct_cons hsound hx, hqs]
        rfl
      · rw [mul_assoc, ← hrest, hsound.transporter_mul_remainder]

/-! ## Elements of one coset -/

/-- The group of a level permutes its orbit. -/
theorem Level.Sound.contains_smul_iff (h : level.Sound n) (hy : y ∈ level.group n) (q : Nat) :
    level.orbit.contains (y • q) = true ↔ level.orbit.contains q = true := by
  rw [h.contains_iff, h.contains_iff]
  constructor
  · rintro ⟨z, hz, hzq⟩
    refine ⟨y⁻¹ * z, (level.group n).mul_mem ((level.group n).inv_mem hy) hz, ?_⟩
    rw [mul_smul, hzq, inv_smul_smul]
  · rintro ⟨z, hz, rfl⟩
    exact ⟨y * z, (level.group n).mul_mem hy hz, mul_smul y z _⟩

/-- Where both elements pass a level, what is left of them differs by an element of the
    levels below. -/
theorem Complete.remainder_mul (h : Complete n (level :: below)) (hy : y ∈ level.group n)
    (hx : level.orbit.contains (x • level.basePoint) = true) :
    h.1.remainder (y * x) * (h.1.remainder x)⁻¹ ∈ topGroup n below := by
  have hyx : level.orbit.contains ((y * x) • level.basePoint) = true := by
    rw [mul_smul]
    exact (h.1.contains_smul_iff hy _).mpr hx
  refine h.mem_top_below_iff.mpr ⟨?_, ?_⟩
  · -- the element itself cancels between the two transporters
    have hfactors : h.1.remainder (y * x) * (h.1.remainder x)⁻¹
        = (h.1.transporter ((y * x) • level.basePoint))⁻¹
          * (y * h.1.transporter (x • level.basePoint)) := by
      simp only [Level.Sound.remainder, mul_inv_rev, inv_inv, mul_assoc, mul_inv_cancel_left]
    rw [hfactors]
    exact (level.group n).mul_mem ((level.group n).inv_mem (h.1.transporter_mem _))
      ((level.group n).mul_mem hy (h.1.transporter_mem _))
  · have hfix : (h.1.remainder x)⁻¹ • level.basePoint = level.basePoint := by
      rw [inv_smul_eq_iff, h.1.remainder_smul hx]
    rw [mul_smul, hfix, h.1.remainder_smul hyx]

/-- The sift of another element of the same coset passes the same levels, and its residue is
    in the same coset of the levels that are left. -/
theorem Sifts.mul_left (h : Sifts n levels x r k) (hcomplete : Complete n levels)
    (hy : y ∈ topGroup n levels) :
    ∃ z ∈ topGroup n (levels.drop k), Sifts n levels (y * x) (z * r) k := by
  induction h generalizing y with
  | done x => exact ⟨y, hy, .done _⟩
  | @stop level below x hx =>
      refine ⟨y, hy, .stop ?_⟩
      rw [← Bool.not_eq_true, mul_smul, hcomplete.1.contains_smul_iff hy, hx]
      exact Bool.false_ne_true
  | @pass level below x r k hsound hx _ ih =>
      obtain ⟨z, hz, hrun⟩ := ih hcomplete.2.2 (hcomplete.remainder_mul hy hx)
      rw [inv_mul_cancel_right] at hrun
      refine ⟨z, hz, .pass hsound ?_ hrun⟩
      rw [mul_smul]
      exact (hsound.contains_smul_iff hy _).mpr hx

end

namespace Chain

variable {n : Nat} {gens : List SignedPerm} {wanted : List Nat} {c : Chain}

/-- Sifting writes a valid permutation as a product of transversal elements and a residue,
    which fixes the base points that were passed and leads out of the orbit of the next one.
    All elements of a coset pass the same number of levels, and those that pass all of them
    leave the same residue. -/
theorem sift_decomposes (hgens : ∀ g ∈ gens, g.Valid) (hc : buildWithBase n gens wanted = .ok c)
    {g : SignedPerm} (hg : g.On c.degree) :
    ∃ h d, c.sift g = (h, d)
      ∧ h.On c.degree
      ∧ d ≤ c.levels.length
      ∧ (∃ qs t, transversalProduct n (c.levels.take d) qs = some t ∧ g = t * h)
      ∧ (∀ b ∈ c.base.take d, h.act b = b)
      ∧ (∀ level, c.levels[d]? = some level →
        level.orbit.contains (h.act level.basePoint) = false)
      ∧ ∀ x, Generated n gens x →
        (c.sift (x * g)).2 = d ∧ (d = c.levels.length → (c.sift (x * g)).1 = h) := by
  obtain ⟨hlt, hdegree⟩ := inputs_of_ok hc
  have hon : ∀ g ∈ gens, g.On n := fun g hg => ⟨hgens g hg, hdegree g hg⟩
  have hfinished := finished_of_ok hon hlt hc
  rw [hfinished.degree_eq] at hg ⊢
  obtain ⟨r, d, hsift, hrun⟩ := exists_sifts hfinished.stacked.sound ⟨g, hg⟩
  refine ⟨r.val, d, hsift, r.on, hrun.passed_le, ?_, ?_, ?_, ?_⟩
  · obtain ⟨qs, t, hqs, hprod⟩ := hrun.exists_factors
    exact ⟨qs, t.val, hqs, congrArg Signed.val hprod⟩
  · intro b hb
    rw [base, ← List.map_take] at hb
    obtain ⟨level, hlevel, rfl⟩ := List.mem_map.mp hb
    exact hrun.fixes hfinished.stacked.above level hlevel
  · intro level hlevel
    exact hrun.not_contains hlevel
  · intro x hx
    obtain ⟨hxn, hmem⟩ := (generated_iff hon).mp hx
    rw [← hfinished.stacked.top] at hmem
    obtain ⟨z, hz, hrun'⟩ := hrun.mul_left hfinished.complete hmem
    have hsift' : c.sift (x * g) = ((z * r).val, d) := hrun'.sift_eq
    rw [hsift']
    refine ⟨rfl, fun hall => ?_⟩
    -- no level is left for the factor between the residues
    rw [hall, List.drop_length] at hz
    rw [Subgroup.mem_bot.mp hz, one_mul]

/-- The swap of two of three points, in the coset of the rotations, with the sign flipped. -/
theorem sift_decomposes_rotation :
    ∃ c, buildWithBase 3 [SignedGroup.rotation 3 false] [2] = .ok c
      ∧ c.sift (SignedGroup.rotation 3 false * SignedGroup.firstSwap 3 true)
        = c.sift (SignedGroup.firstSwap 3 true) := by
  have hgens : ∀ g ∈ [SignedGroup.rotation 3 false], g.Valid := by decide +kernel
  have hpassed : (buildWithBase 3 [SignedGroup.rotation 3 false] [2]).toOption.map
      (fun c => (c.degree, c.levels.length, (c.sift (SignedGroup.firstSwap 3 true)).2))
        = some (3, 1, 1) := by decide +kernel
  obtain ⟨c, hc, hvalues⟩ := exists_of_map_toOption hpassed
  obtain ⟨hdegree, hlength, hdepth⟩ : c.degree = 3 ∧ c.levels.length = 1
      ∧ (c.sift (SignedGroup.firstSwap 3 true)).2 = 1 := by simpa using hvalues
  have hswap : (SignedGroup.firstSwap 3 true).On c.degree := by
    rw [hdegree]
    decide +kernel
  obtain ⟨h, d, hsift, -, -, -, -, -, hcoset⟩ := sift_decomposes hgens hc hswap
  have hrotation : Generated 3 [SignedGroup.rotation 3 false]
      (SignedGroup.rotation 3 false * SignedPerm.id 3) := .mul List.mem_cons_self .one
  have hid : SignedGroup.rotation 3 false * SignedPerm.id 3 = SignedGroup.rotation 3 false := by
    decide +kernel
  rw [hid] at hrotation
  obtain ⟨hsame, hresidue⟩ := hcoset _ hrotation
  refine ⟨c, hc, ?_⟩
  rw [hsift] at hdepth ⊢
  exact Prod.ext (hresidue (hdepth.trans hlength.symm)) hsame

end Chain

end SlotSymmetry
