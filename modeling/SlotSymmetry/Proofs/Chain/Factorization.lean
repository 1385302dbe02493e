import SlotSymmetry.Proofs.Chain.Membership

/-! # Factorization

    Through complete levels every element of the group is a product of
    transversal elements, one per level, in exactly one way: its image of the
    first base point fixes the first factor, and what is left belongs to the
    levels below.  So the group has as many elements as there are choices of one
    point from each orbit. -/

namespace SlotSymmetry

open SignedPerm (Generated)

/-- The product of the transversal elements for these points, one per level. -/
def transversalProduct (n : Nat) : List Level → List Nat → Option SignedPerm
  | [], [] => some (.id n)
  | level :: below, q :: qs => do
      let t ← level.transversal q
      let rest ← transversalProduct n below qs
      return t * rest
  | _, _ => none

section

variable {n : Nat} {level : Level} {below levels : List Level} {q : Nat} {qs qs' : List Nat}

theorem transversalProduct_cons (h : level.Sound n) (hq : level.orbit.contains q = true) :
    transversalProduct n (level :: below) (q :: qs)
      = (transversalProduct n below qs).map ((h.transporter q).val * ·) := by
  rw [transversalProduct, h.transversal_eq hq]
  cases transversalProduct n below qs with
  | none => rfl
  | some g => rfl

theorem contains_of_transversalProduct {g : SignedPerm}
    (hg : transversalProduct n (level :: below) (q :: qs) = some g) :
    level.orbit.contains q = true := by
  cases hq : level.orbit.contains q with
  | true => rfl
  | false =>
      rw [transversalProduct] at hg
      obtain ⟨t, ht, -⟩ := Option.bind_eq_some_iff.mp hg
      simp [Level.transversal, Orbit.transversal, hq] at ht

/-! ## Factors of an element -/

theorem Complete.top_below_le (h : Complete n (level :: below)) :
    topGroup n below ≤ level.group n := by
  rw [h.2.1]
  exact inf_le_left

/-- A product with an element of the levels below takes the base point to the point of the
    first factor. -/
theorem Complete.transporter_mul_smul (h : Complete n (level :: below))
    (hq : level.orbit.contains q = true) {y : Signed n} (hy : y ∈ topGroup n below) :
    (h.1.transporter q * y) • level.basePoint = q := by
  rw [mul_smul, (h.mem_top_below_iff.mp hy).2, h.1.transporter_smul hq]

theorem Complete.remainder_mem (h : Complete n (level :: below)) {x : Signed n}
    (hx : x ∈ level.group n) : h.1.remainder x ∈ topGroup n below :=
  h.mem_top_below_iff.mpr ⟨(h.1.remainder_mem_iff (le_refl _) x).mpr hx,
    h.1.remainder_smul (h.1.contains_smul hx)⟩

/-- Elements of the first level are pairs of a point of its orbit and an element of the levels
    below. -/
def Complete.split (h : Complete n (level :: below)) :
    topGroup n (level :: below)
      ≃ {q : Nat // level.orbit.contains q = true} × topGroup n below where
  toFun x := (⟨x.val • level.basePoint, h.1.contains_smul x.property⟩,
    ⟨h.1.remainder x.val, h.remainder_mem x.property⟩)
  invFun z := ⟨h.1.transporter z.1.val * z.2.val,
    (level.group n).mul_mem (h.1.transporter_mem _) (h.top_below_le z.2.property)⟩
  left_inv x := Subtype.ext (h.1.transporter_mul_remainder x.val)
  right_inv := by
    rintro ⟨⟨q, hq⟩, ⟨y, hy⟩⟩
    have hsmul := h.transporter_mul_smul hq hy
    refine Prod.ext (Subtype.ext hsmul) (Subtype.ext ?_)
    show h.1.remainder (h.1.transporter q * y) = y
    rw [Level.Sound.remainder, hsmul, inv_mul_cancel_left]

/-! ## The products -/

/-- Every product is an element of the group. -/
theorem Complete.mem_of_product (h : Complete n levels) {g : SignedPerm}
    (hg : transversalProduct n levels qs = some g) :
    ∃ x ∈ topGroup n levels, x.val = g := by
  induction levels generalizing qs g with
  | nil =>
      cases qs with
      | nil => exact ⟨1, Subgroup.one_mem _, Option.some.inj hg⟩
      | cons q qs => exact nomatch hg
  | cons level below ih =>
      cases qs with
      | nil => exact nomatch hg
      | cons q qs =>
          rw [transversalProduct_cons h.1 (contains_of_transversalProduct hg)] at hg
          obtain ⟨g', hg', rfl⟩ := Option.map_eq_some_iff.mp hg
          obtain ⟨y, hy, rfl⟩ := ih h.2.2 hg'
          exact ⟨h.1.transporter q * y,
            (level.group n).mul_mem (h.1.transporter_mem q) (h.top_below_le hy), rfl⟩

/-- Every element of the group is a product. -/
theorem Complete.exists_points (h : Complete n levels) {x : Signed n}
    (hx : x ∈ topGroup n levels) :
    ∃ qs, transversalProduct n levels qs = some x.val := by
  induction levels generalizing x with
  | nil =>
      obtain rfl : x = 1 := Subgroup.mem_bot.mp hx
      exact ⟨[], rfl⟩
  | cons level below ih =>
      -- the image of the base point is the only candidate for the first point
      obtain ⟨qs, hqs⟩ := ih h.2.2 (h.remainder_mem hx)
      refine ⟨x • level.basePoint :: qs, ?_⟩
      rw [transversalProduct_cons h.1 (h.1.contains_smul hx), hqs, Option.map_some,
        ← Signed.val_mul, h.1.transporter_mul_remainder]

/-- Different choices of points make different products. -/
theorem Complete.points_unique (h : Complete n levels) {g : SignedPerm}
    (hqs : transversalProduct n levels qs = some g)
    (hqs' : transversalProduct n levels qs' = some g) : qs = qs' := by
  induction levels generalizing qs qs' g with
  | nil =>
      cases qs with
      | nil =>
          cases qs' with
          | nil => rfl
          | cons q' qs' => exact nomatch hqs'
      | cons q qs => exact nomatch hqs
  | cons level below ih =>
      cases qs with
      | nil => exact nomatch hqs
      | cons q qs =>
          cases qs' with
          | nil => exact nomatch hqs'
          | cons q' qs' =>
              have hq := contains_of_transversalProduct hqs
              have hq' := contains_of_transversalProduct hqs'
              rw [transversalProduct_cons h.1 hq] at hqs
              rw [transversalProduct_cons h.1 hq'] at hqs'
              obtain ⟨g₁, hg₁, hprod⟩ := Option.map_eq_some_iff.mp hqs
              obtain ⟨g₂, hg₂, hprod'⟩ := Option.map_eq_some_iff.mp hqs'
              obtain ⟨y, hy, rfl⟩ := h.2.2.mem_of_product hg₁
              obtain ⟨y', hy', rfl⟩ := h.2.2.mem_of_product hg₂
              have heq : h.1.transporter q * y = h.1.transporter q' * y' :=
                Signed.eq_of_val (hprod.trans hprod'.symm)
              -- the image of the base point shows the first factor
              have hpoint : q = q' := by
                rw [← h.transporter_mul_smul hq hy, heq, h.transporter_mul_smul hq' hy']
              subst hpoint
              rw [mul_left_cancel heq] at hg₁
              rw [ih h.2.2 hg₁ hg₂]

/-- Any choice of one point from each orbit makes a product. -/
theorem Complete.exists_product (h : Complete n levels)
    (hqs : List.Forall₂ (fun level q => level.orbit.contains q = true) levels qs) :
    ∃ g, transversalProduct n levels qs = some g := by
  induction hqs with
  | nil => exact ⟨.id n, rfl⟩
  | cons hq _ ih =>
      obtain ⟨g, hg⟩ := ih h.2.2
      rw [transversalProduct_cons h.1 hq, hg]
      exact ⟨_, rfl⟩

/-- The points of a product belong to the orbits. -/
theorem points_of_product {g : SignedPerm} (hg : transversalProduct n levels qs = some g) :
    List.Forall₂ (fun level q => level.orbit.contains q = true) levels qs := by
  induction levels generalizing qs g with
  | nil =>
      cases qs with
      | nil => exact .nil
      | cons q qs => exact nomatch hg
  | cons level below ih =>
      cases qs with
      | nil => exact nomatch hg
      | cons q qs =>
          refine .cons (contains_of_transversalProduct hg) ?_
          rw [transversalProduct] at hg
          obtain ⟨t, -, hrest⟩ := Option.bind_eq_some_iff.mp hg
          obtain ⟨g', hg', -⟩ := Option.bind_eq_some_iff.mp hrest
          exact ih hg'

/-! ## The number of elements -/

theorem Level.Sound.card_points (h : level.Sound n) :
    Nat.card {q : Nat // level.orbit.contains q = true} = level.orbit.length := by
  rw [Nat.subtype_card level.orbit.points.toList.toFinset,
    List.toFinset_card_of_nodup h.stage.nodup, Array.length_toList]
  · rfl
  · intro q
    rw [List.mem_toFinset, Array.mem_toList_iff, h.stage.contains_iff]

theorem Complete.card_topGroup (h : Complete n levels) :
    Nat.card (topGroup n levels) = (levels.map (·.orbit.length)).prod := by
  induction levels with
  | nil => exact Subgroup.card_bot
  | cons level below ih =>
      rw [Nat.card_congr h.split, Nat.card_prod, h.1.card_points, ih h.2.2, List.map_cons,
        List.prod_cons]

end

/-- The generated permutations are the elements of the span. -/
def generatedEquiv {n : Nat} {gens : List SignedPerm} (hgens : ∀ g ∈ gens, g.On n) :
    {p : SignedPerm // Generated n gens p} ≃ Signed.span n gens where
  toFun p := ⟨⟨p.val, ((generated_iff hgens).mp p.property).fst⟩,
    ((generated_iff hgens).mp p.property).snd⟩
  invFun x := ⟨x.val.val, (generated_iff hgens).mpr ⟨x.val.on, x.property⟩⟩
  left_inv _ := rfl
  right_inv _ := rfl

namespace Chain

variable {n : Nat} {H : Subgroup (Signed n)} {gens : List SignedPerm} {wanted : List Nat}
  {c : Chain}

theorem order_eq_prod (c : Chain) : c.order = (c.levels.map (·.orbit.length)).prod :=
  List.prod_eq_foldl.symm

theorem isTrivial_iff_order (c : Chain) : c.isTrivial = true ↔ c.order = 1 := by
  rw [isTrivial, order_eq_prod]
  induction c.levels with
  | nil => simp
  | cons level below ih =>
      rw [List.all_cons, Bool.and_eq_true, ih, beq_iff_eq, List.map_cons, List.prod_cons,
        mul_eq_one]

theorem Finished.order_eq (hc : c.Finished n H wanted) : c.order = Nat.card H := by
  rw [order_eq_prod, ← hc.complete.card_topGroup, hc.stacked.top]

theorem Finished.isTrivial_iff (hc : c.Finished n H wanted) : c.isTrivial = true ↔ H = ⊥ := by
  rw [isTrivial_iff_order, hc.order_eq, Subgroup.card_eq_one]

theorem span_eq_bot_iff (hgens : ∀ g ∈ gens, g.On n) :
    Signed.span n gens = ⊥ ↔ ∀ p, Generated n gens p ↔ p = SignedPerm.id n := by
  rw [Subgroup.eq_bot_iff_forall]
  constructor
  · intro h p
    constructor
    · intro hp
      obtain ⟨hon, hmem⟩ := (generated_iff hgens).mp hp
      exact congrArg Signed.val (h _ hmem)
    · rintro rfl
      exact .one
  · intro h x hx
    exact Signed.eq_of_val ((h x.val).mp ((generated_iff hgens).mpr ⟨x.on, hx⟩))

/-- Every element of the group is a product of transversal elements in exactly one way, every
    such product is an element, and the order of the chain counts them. -/
theorem unique_factorization (hgens : ∀ g ∈ gens, g.On n) (hlt : ∀ b ∈ wanted, b < n)
    (hc : buildWithBase n gens wanted = .ok c) :
    (∀ p, Generated n gens p →
        ∃! qs, List.Forall₂ (fun level q => level.orbit.contains q = true) c.levels qs
          ∧ transversalProduct n c.levels qs = some p)
      ∧ (∀ qs, List.Forall₂ (fun level q => level.orbit.contains q = true) c.levels qs →
        ∃ p, transversalProduct n c.levels qs = some p ∧ Generated n gens p)
      ∧ Finite {p : SignedPerm // Generated n gens p}
      ∧ c.order = Nat.card {p : SignedPerm // Generated n gens p}
      ∧ (c.isTrivial = true ↔ ∀ p, Generated n gens p ↔ p = SignedPerm.id n) := by
  have hfinished := finished_of_ok hgens hlt hc
  have hcomplete := hfinished.complete
  have htop := hfinished.stacked.top
  refine ⟨?_, ?_, Finite.of_equiv _ (generatedEquiv hgens).symm, ?_, ?_⟩
  · intro p hp
    obtain ⟨hon, hmem⟩ := (generated_iff hgens).mp hp
    rw [← htop] at hmem
    obtain ⟨qs, hqs⟩ := hcomplete.exists_points hmem
    refine ⟨qs, ⟨points_of_product hqs, hqs⟩, ?_⟩
    rintro qs' ⟨-, hqs'⟩
    exact hcomplete.points_unique hqs' hqs
  · intro qs hqs
    obtain ⟨p, hp⟩ := hcomplete.exists_product hqs
    obtain ⟨x, hx, rfl⟩ := hcomplete.mem_of_product hp
    rw [htop] at hx
    exact ⟨x.val, hp, (generated_iff hgens).mpr ⟨x.on, hx⟩⟩
  · rw [hfinished.order_eq, Nat.card_congr (generatedEquiv hgens)]
  · rw [hfinished.isTrivial_iff, span_eq_bot_iff hgens]

/-- The swap of two of three points, after a wanted point that it fixes. -/
theorem unique_factorization_swap :
    Nat.card {p : SignedPerm // Generated 3 [SignedGroup.firstSwap 3 true] p} = 2 := by
  have hgens : ∀ g ∈ [SignedGroup.firstSwap 3 true], g.On 3 := by decide +kernel
  have horder : (buildWithBase 3 [SignedGroup.firstSwap 3 true] [2]).toOption.map order
      = some 2 := by
    decide +kernel
  cases hc : buildWithBase 3 [SignedGroup.firstSwap 3 true] [2] with
  | error e =>
      rw [hc] at horder
      exact nomatch horder
  | ok c =>
      rw [hc] at horder
      have hcount := (unique_factorization hgens (by decide) hc).2.2.2.1
      exact hcount.symm.trans (Option.some.inj horder)

end Chain

end SlotSymmetry
