import SlotSymmetry.Group.Cosets
import SlotSymmetry.Proofs.Search.Tree

/-! # Canonical elements of left cosets

    Moving an element within its left coset, level by level, to the smallest
    image of each base point leads to the element of the coset with the least
    images of all base points: a choice at one level leaves the images of the
    earlier base points alone.  Over complete levels no other element of the
    coset has these images.  So the element reached depends on the coset only,
    and two elements reach the same one exactly if they share it. -/

namespace SlotSymmetry

open SignedPerm (Generated)

section

variable {n : Nat} {level : Level} {below levels : List Level}

/-- Elements of complete levels are told apart by the images of the base points. -/
theorem Complete.eq_of_baseImages (h : Complete n levels) {x y : Signed n}
    (hx : x ∈ topGroup n levels) (hy : y ∈ topGroup n levels)
    (heq : baseImages levels x.val = baseImages levels y.val) : x = y := by
  have hone : x⁻¹ * y = 1 := by
    refine h.eq_one_of_fixes ((topGroup n levels).mul_mem ((topGroup n levels).inv_mem hx) hy) ?_
    intro level hlevel
    have hsame : x • level.basePoint = y • level.basePoint := List.map_inj_left.mp heq level hlevel
    rw [mul_smul, inv_smul_eq_iff]
    exact hsame.symm
  exact inv_mul_eq_one.mp hone

end

namespace Chain

variable {n : Nat} {level : Level} {below levels : List Level}

/-- The point that is picked is one of those offered, and none of them has a smaller image. -/
theorem pointOfLeastImage_spec (x : SignedPerm) (points : List Nat) : ∀ best : Nat,
    pointOfLeastImage x best points ∈ best :: points
      ∧ ∀ q ∈ best :: points, x.act (pointOfLeastImage x best points) ≤ x.act q := by
  induction points with
  | nil =>
      intro best
      refine ⟨List.mem_cons_self, fun q hq => ?_⟩
      rw [List.mem_singleton.mp hq]
      exact Nat.le_refl _
  | cons point points ih =>
      intro best
      rw [pointOfLeastImage]
      split
      · rename_i hsmaller
        obtain ⟨hmem, hle⟩ := ih point
        have hfirst := hle point List.mem_cons_self
        exact ⟨List.mem_cons_of_mem _ hmem, List.forall_mem_cons.mpr ⟨by omega, hle⟩⟩
      · rename_i hlarger
        obtain ⟨hmem, hle⟩ := ih best
        obtain ⟨hfirst, hrest⟩ := List.forall_mem_cons.mp hle
        refine ⟨?_, List.forall_mem_cons.mpr ⟨hfirst, List.forall_mem_cons.mpr ⟨by omega, hrest⟩⟩⟩
        rcases List.mem_cons.mp hmem with heq | hmem
        · rw [heq]
          exact List.mem_cons_self
        · exact List.mem_cons_of_mem _ (List.mem_cons_of_mem _ hmem)

/-- In a level, the point that is picked belongs to the orbit and has the least image of all. -/
theorem pointOfLeastImage_orbit (hs : level.Sound n) (x : Signed n) {best : Nat}
    (hbest : best = pointOfLeastImage x.val level.basePoint level.orbit.points.toList) :
    level.orbit.contains best = true
      ∧ ∀ q, level.orbit.contains q = true → x • best ≤ x • q := by
  obtain ⟨hmem, hle⟩ :=
    pointOfLeastImage_spec x.val level.orbit.points.toList level.basePoint
  rw [← hbest] at hmem hle
  have hpoint : ∀ q, q ∈ level.orbit.points.toList ↔ level.orbit.contains q = true := by
    intro q
    rw [Array.mem_toList_iff, hs.stage.contains_iff]
  constructor
  · rcases List.mem_cons.mp hmem with rfl | hmem
    · exact hs.stage.contains_seed
    · exact (hpoint _).mp hmem
  · exact fun q hq => hle q (List.mem_cons_of_mem _ ((hpoint q).mpr hq))

/-- The canonical element lies in the left coset, and has the least images of the base points
    there. -/
theorem canonicalFrom_spec (h : Complete n levels) (x : Signed n) :
    ∃ u ∈ topGroup n levels, canonicalFrom levels x.val = (x * u).val
      ∧ ∀ y ∈ topGroup n levels,
        y = u ∨ baseImages levels (x * u).val < baseImages levels (x * y).val := by
  induction levels generalizing x with
  | nil =>
      refine ⟨1, Subgroup.one_mem _, by rw [mul_one]; rfl, fun y hy => ?_⟩
      exact Or.inl (Subgroup.mem_bot.mp hy)
  | cons level below ih =>
      have hs := h.1
      rw [canonicalFrom]
      generalize hbest : pointOfLeastImage x.val level.basePoint level.orbit.points.toList = best
      obtain ⟨hpoint, hleast⟩ := pointOfLeastImage_orbit hs x hbest.symm
      obtain ⟨u, hu, hval, hrest⟩ := ih h.2.2 (x * hs.transporter best)
      have hmem : hs.transporter best * u ∈ level.group n :=
        (level.group n).mul_mem (hs.transporter_mem best) (h.top_below_le hu)
      refine ⟨hs.transporter best * u, hmem, ?_, fun y hy => ?_⟩
      · rw [← mul_assoc]
        exact hval
      · have himage : (x * (hs.transporter best * u)).val.act level.basePoint = x • best := by
          rw [← mul_assoc]
          exact h.child_smul x hpoint hu
        have himage' : (x * y).val.act level.basePoint = x • y • level.basePoint :=
          mul_smul x y level.basePoint
        rw [baseImages_cons, baseImages_cons, himage, himage', List.cons_lt_cons_iff]
        rcases Nat.lt_or_eq_of_le (hleast _ (hs.contains_smul hy)) with hlt | heq
        · exact Or.inr (Or.inl hlt)
        · -- the same choice at this level: the rest decides
          have hsame : y • level.basePoint = best := (smul_left_cancel x heq).symm
          have hy' : y = hs.transporter best * hs.remainder y := by
            rw [← hsame, hs.transporter_mul_remainder]
          rcases hrest (hs.remainder y) (h.remainder_mem hy) with hu' | hlt
          · exact Or.inl (by rw [← hu']; exact hy')
          · refine Or.inr (Or.inr ⟨heq, ?_⟩)
            rw [hy', ← mul_assoc, ← mul_assoc]
            exact hlt

/-- Two elements have the same canonical element exactly if they lie in one left coset. -/
theorem canonicalFrom_eq_iff (h : Complete n levels) (x y : Signed n) :
    canonicalFrom levels x.val = canonicalFrom levels y.val ↔ x⁻¹ * y ∈ topGroup n levels := by
  obtain ⟨u, hu, hval, hleast⟩ := canonicalFrom_spec h x
  obtain ⟨v, hv, hval', hleast'⟩ := canonicalFrom_spec h y
  rw [hval, hval']
  constructor
  · intro heq
    have hprod : x * u = y * v := Signed.eq_of_val heq
    have hquot : x⁻¹ * y = u * v⁻¹ := by
      rw [inv_mul_eq_iff_eq_mul, ← mul_assoc, hprod, mul_inv_cancel_right]
    rw [hquot]
    exact (topGroup n levels).mul_mem hu ((topGroup n levels).inv_mem hv)
  · intro hmem
    have hinv : y⁻¹ * x ∈ topGroup n levels := by
      have := (topGroup n levels).inv_mem hmem
      rwa [mul_inv_rev, inv_inv] at this
    -- each of the two elements is one of those that the other one is least among
    rcases hleast (x⁻¹ * y * v) ((topGroup n levels).mul_mem hmem hv) with hu' | hlt
    · rw [← hu', mul_assoc, mul_inv_cancel_left]
    · rcases hleast' (y⁻¹ * x * u) ((topGroup n levels).mul_mem hinv hu) with hv' | hlt'
      · rw [← hv', mul_assoc, mul_inv_cancel_left]
      · rw [mul_assoc, mul_inv_cancel_left] at hlt hlt'
        exact absurd hlt' (List.lt_asymm hlt)

/-! ## Cosets of the group of a chain -/

/-- The left coset of `x`: its products with the elements that the list generates. -/
def leftCoset (n : Nat) (gens : List SignedPerm) (x : SignedPerm) : Set SignedPerm :=
  {p | ∃ h, Generated n gens h ∧ p = x * h}

section

variable {gens : List SignedPerm} {wanted : List Nat} {c : Chain}

theorem mem_leftCoset_iff (hgens : ∀ g ∈ gens, g.On n) {x : Signed n} {p : SignedPerm} :
    p ∈ leftCoset n gens x.val ↔ ∃ u ∈ Signed.span n gens, p = (x * u).val :=
  (exists_mem_span_iff hgens fun h => p = x.val * h).symm

/-- Two left cosets are the same exactly if the quotient lies in the group. -/
theorem leftCoset_eq_iff (hgens : ∀ g ∈ gens, g.On n) {x y : Signed n} :
    leftCoset n gens x.val = leftCoset n gens y.val ↔ x⁻¹ * y ∈ Signed.span n gens := by
  constructor
  · intro heq
    have hself : y.val ∈ leftCoset n gens y.val :=
      (mem_leftCoset_iff hgens).mpr ⟨1, Subgroup.one_mem _, by rw [mul_one]⟩
    rw [← heq] at hself
    obtain ⟨u, hu, hval⟩ := (mem_leftCoset_iff hgens).mp hself
    rwa [Signed.eq_of_val hval, inv_mul_cancel_left]
  · intro hmem
    ext p
    rw [mem_leftCoset_iff hgens, mem_leftCoset_iff hgens]
    constructor
    · rintro ⟨u, hu, rfl⟩
      refine ⟨(x⁻¹ * y)⁻¹ * u, Subgroup.mul_mem _ (Subgroup.inv_mem _ hmem) hu, ?_⟩
      rw [mul_inv_rev, inv_inv, mul_assoc, mul_inv_cancel_left]
    · rintro ⟨u, hu, rfl⟩
      refine ⟨x⁻¹ * y * u, Subgroup.mul_mem _ hmem hu, ?_⟩
      rw [mul_assoc, mul_inv_cancel_left]

/-- The canonical element is the one of the left coset with the least images of the base points,
    and it tells the left cosets apart, signs included. -/
theorem canonical_element_exact (hgens : ∀ g ∈ gens, g.Valid)
    (hc : buildWithBase n gens wanted = .ok c) {x y : SignedPerm} (hx : x.Valid)
    (hxn : x.degree = n) (hy : y.Valid) (hyn : y.degree = n) :
    c.canonicalLeftCosetElement x ∈ leftCoset n gens x
      ∧ (∀ p ∈ leftCoset n gens x, p = c.canonicalLeftCosetElement x
        ∨ c.base.map (c.canonicalLeftCosetElement x).act < c.base.map p.act)
      ∧ (c.canonicalLeftCosetElement x = c.canonicalLeftCosetElement y
        ↔ leftCoset n gens x = leftCoset n gens y) := by
  obtain ⟨hlt, hdegree⟩ := inputs_of_ok hc
  have hon : ∀ g ∈ gens, g.On n := fun g hg => ⟨hgens g hg, hdegree g hg⟩
  have hfinished := finished_of_ok hon hlt hc
  have htop := hfinished.stacked.top
  let a : Signed n := ⟨x, hx, hxn⟩
  let b : Signed n := ⟨y, hy, hyn⟩
  obtain ⟨u, hu, hval, hleast⟩ := canonicalFrom_spec hfinished.complete a
  rw [htop] at hu hleast
  have hcanonical : c.canonicalLeftCosetElement x = (a * u).val := hval
  have hbase : ∀ p : SignedPerm, c.base.map p.act = baseImages c.levels p :=
    fun p => (baseImages_drop c 0 p).symm
  refine ⟨?_, fun p hp => ?_, ?_⟩
  · exact (mem_leftCoset_iff hon (x := a)).mpr ⟨u, hu, hcanonical⟩
  · obtain ⟨v, hv, rfl⟩ := (mem_leftCoset_iff hon (x := a)).mp hp
    rw [hcanonical, hbase, hbase]
    exact (hleast v hv).imp_left fun heq => by rw [heq]
  · rw [leftCoset_eq_iff hon (x := a) (y := b), ← htop]
    exact canonicalFrom_eq_iff hfinished.complete a b

/-- The swaps of three points with the sign flipped: all of them in one coset of the rotations,
    which the swap without a flip does not lie in. -/
theorem canonical_element_exact_swaps :
    ∃ c, buildWithBase 3 [SignedGroup.rotation 3 false] [2] = .ok c
      ∧ leftCoset 3 [SignedGroup.rotation 3 false] (SignedGroup.firstSwap 3 true)
        = leftCoset 3 [SignedGroup.rotation 3 false] (.ofImage #[0, 2, 1] true)
      ∧ leftCoset 3 [SignedGroup.rotation 3 false] (SignedGroup.firstSwap 3 true)
        ≠ leftCoset 3 [SignedGroup.rotation 3 false] (SignedGroup.firstSwap 3 false) := by
  have hgens : ∀ g ∈ [SignedGroup.rotation 3 false], g.Valid := by decide +kernel
  have hmade : (buildWithBase 3 [SignedGroup.rotation 3 false] [2]).toOption.map
      (fun c => (c.canonicalLeftCosetElement (SignedGroup.firstSwap 3 true),
        c.canonicalLeftCosetElement (.ofImage #[0, 2, 1] true),
        c.canonicalLeftCosetElement (SignedGroup.firstSwap 3 false)))
      = some (.ofImage #[2, 1, 0] true, .ofImage #[2, 1, 0] true, .ofImage #[2, 1, 0] false) := by
    decide +kernel
  obtain ⟨c, hc, heq⟩ := exists_of_map_toOption hmade
  simp only [Prod.mk.injEq] at heq
  obtain ⟨hflipped, hother, hplain⟩ := heq
  have hexact := fun (y : SignedPerm) (hy : y.Valid) (hyn : y.degree = 3) =>
    (canonical_element_exact hgens hc (x := SignedGroup.firstSwap 3 true) (by decide +kernel) rfl
      hy hyn).2.2
  refine ⟨c, hc, (hexact _ (by decide +kernel) rfl).mp (hflipped.trans hother.symm), fun hsame => ?_⟩
  have hclash := (hexact (SignedGroup.firstSwap 3 false) (by decide +kernel) rfl).mpr hsame
  rw [hflipped, hplain] at hclash
  exact absurd hclash (by decide +kernel)

end

end Chain

end SlotSymmetry
