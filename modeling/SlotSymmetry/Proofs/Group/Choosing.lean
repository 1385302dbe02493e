import SlotSymmetry.Proofs.Group.Canonical

/-! # Choosing one element of every coset

    Elements are offered one after another, and an element is chosen if the
    canonical element of its coset is new.  What the choice keeps (`Chosen`) is
    that no two elements chosen share a right coset, and that every element
    offered shares one with an element that was offered no later.  When there
    are as many elements chosen as there are cosets, all further offers are
    refused, so a search may stop there. -/

namespace SlotSymmetry

namespace SignedGroup

/-! ## Offers -/

/-- The canonical element of the left coset of the inverse.  It tells right cosets apart. -/
def cosetKey (c : Chain) (p : SignedPerm) : SignedPerm := c.canonicalLeftCosetElement p.inverse

/-- Two elements have the same key exactly if they lie in one right coset. -/
theorem cosetKey_eq_iff {n : Nat} {H : Subgroup (Signed n)} {wanted : List Nat} {c : Chain}
    (hc : c.Finished n H wanted) (x y : Signed n) :
    cosetKey c x.val = cosetKey c y.val ↔ x * y⁻¹ ∈ H := by
  have hiff := Chain.canonicalFrom_eq_iff hc.complete x⁻¹ y⁻¹
  rw [inv_inv, hc.stacked.top] at hiff
  exact hiff

theorem cosetKey_mul_left {n : Nat} {H : Subgroup (Signed n)} {wanted : List Nat} {c : Chain}
    (hc : c.Finished n H wanted) {h : Signed n} (hh : h ∈ H) (x : Signed n) :
    cosetKey c (h * x).val = cosetKey c x.val := by
  rw [cosetKey_eq_iff hc, mul_inv_cancel_right]
  exact hh

/-- What was chosen from the elements offered, where an element that is offered before another
    stands in the relation `R` to it. -/
structure Chosen (c : Chain) (R : SignedPerm → SignedPerm → Prop) (offered : List SignedPerm)
    (r : Representatives) : Prop where
  sublist : r.chosen.toList.Sublist offered
  canonical : ∀ k, r.canonical.contains k = true ↔ ∃ y ∈ r.chosen.toList, cosetKey c y = k
  differ : r.chosen.toList.Pairwise fun y y' => cosetKey c y ≠ cosetKey c y'
  first : ∀ x ∈ offered, ∃ y ∈ r.chosen.toList, cosetKey c y = cosetKey c x ∧ (y = x ∨ R y x)

section Offers

variable {c : Chain} {R : SignedPerm → SignedPerm → Prop} {offered : List SignedPerm}
  {r : Representatives} {x : SignedPerm}

theorem offer_of_known (h : r.canonical.contains (cosetKey c x) = true) : r.offer c x = r := by
  show (if r.canonical.contains (cosetKey c x) = true then r else _) = r
  rw [if_pos h]

theorem offer_of_new (h : ¬ r.canonical.contains (cosetKey c x) = true) :
    r.offer c x = ⟨r.chosen.push x, r.canonical.insert (cosetKey c x)⟩ := by
  show (if r.canonical.contains (cosetKey c x) = true then r else _) = _
  rw [if_neg h]
  rfl

theorem Chosen.none : Chosen c R [] ⟨#[], ∅⟩ := by
  refine ⟨List.Sublist.refl _, fun k => ?_, .nil, nofun⟩
  rw [Std.HashSet.contains_empty]
  exact ⟨nofun, fun ⟨y, hy, _⟩ => absurd hy List.not_mem_nil⟩

/-- One more offer. -/
theorem Chosen.offer (h : Chosen c R offered r) (hR : ∀ y ∈ offered, R y x) :
    Chosen c R (offered ++ [x]) (r.offer c x) := by
  by_cases hknown : r.canonical.contains (cosetKey c x) = true
  · rw [offer_of_known hknown]
    refine ⟨h.sublist.trans (List.sublist_append_left _ _), h.canonical, h.differ, ?_⟩
    refine List.forall_mem_append.mpr ⟨h.first, List.forall_mem_singleton.mpr ?_⟩
    obtain ⟨y, hy, hkey⟩ := (h.canonical _).mp hknown
    exact ⟨y, hy, hkey, Or.inr (hR y (h.sublist.subset hy))⟩
  · have hnew : ∀ y ∈ r.chosen.toList, cosetKey c y ≠ cosetKey c x :=
      fun y hy heq => hknown ((h.canonical _).mpr ⟨y, hy, heq⟩)
    rw [offer_of_new hknown]
    constructor
    · rw [Array.toList_push]
      exact h.sublist.append_right [x]
    · intro k
      rw [Std.HashSet.contains_insert, Bool.or_eq_true, beq_iff_eq, h.canonical, Array.toList_push]
      simp only [List.mem_append, List.mem_singleton, or_and_right, exists_or, exists_eq_left]
      exact or_comm
    · rw [Array.toList_push, List.pairwise_append]
      refine ⟨h.differ, List.pairwise_singleton _ _, fun y hy x' hx' => ?_⟩
      rw [List.mem_singleton.mp hx']
      exact hnew y hy
    · rw [Array.toList_push]
      refine List.forall_mem_append.mpr ⟨fun x' hx' => ?_, List.forall_mem_singleton.mpr ?_⟩
      · obtain ⟨y, hy, hfirst⟩ := h.first x' hx'
        exact ⟨y, List.mem_append_left _ hy, hfirst⟩
      · exact ⟨x, List.mem_append_right _ List.mem_cons_self, rfl, Or.inl rfl⟩

/-- All offers, one after another. -/
theorem chosen_foldl (hR : offered.Pairwise R) :
    Chosen c R offered (offered.foldl (Representatives.offer c) ⟨#[], ∅⟩) := by
  induction offered using List.reverseRecOn with
  | nil => exact .none
  | append_singleton offered x ih =>
      obtain ⟨hoffered, -, hlast⟩ := List.pairwise_append.mp hR
      rw [List.foldl_append]
      exact (ih hoffered).offer fun y hy => hlast y hy x List.mem_cons_self

/-- If the coset of everything that is offered is known, nothing changes. -/
theorem foldl_offer_of_known {rest : List SignedPerm}
    (h : ∀ x ∈ rest, r.canonical.contains (cosetKey c x) = true) :
    rest.foldl (Representatives.offer c) r = r := by
  induction rest with
  | nil => rfl
  | cons x rest ih =>
      obtain ⟨hx, hrest⟩ := List.forall_mem_cons.mp h
      rw [List.foldl_cons, offer_of_known hx]
      exact ih hrest

end Offers

/-! ## Counting -/

section Counting

variable {n : Nat} {H K : Subgroup (Signed n)} {c : Chain} {wanted : List Nat}
  {rs : List SignedPerm}

/-- Elements of `K` whose keys differ. -/
structure Apart (c : Chain) (K : Subgroup (Signed n)) (rs : List SignedPerm) : Prop where
  mem : ∀ r ∈ rs, ∃ hon : r.On n, (⟨r, hon⟩ : Signed n) ∈ K
  differ : rs.Pairwise fun r r' => cosetKey c r ≠ cosetKey c r'

/-- The element at a place of the list. -/
def Apart.rep (h : Apart c K rs) (i : Fin rs.length) : Signed n :=
  ⟨rs[i], (h.mem _ (List.getElem_mem _)).fst⟩

theorem Apart.rep_mem (h : Apart c K rs) (i : Fin rs.length) : h.rep i ∈ K :=
  (h.mem _ (List.getElem_mem _)).snd

theorem Apart.rep_injective (h : Apart c K rs) {i j : Fin rs.length}
    (heq : cosetKey c (h.rep i).val = cosetKey c (h.rep j).val) : i = j := by
  have hpair := List.pairwise_iff_getElem.mp h.differ
  rcases Nat.lt_trichotomy i j with hlt | hsame | hlt
  · exact absurd heq (hpair i j i.isLt j.isLt hlt)
  · exact Fin.ext hsame
  · exact absurd heq.symm (hpair j i j.isLt i.isLt hlt)

theorem Apart.eq_of_key (h : Apart c K rs) {r r' : SignedPerm} (hr : r ∈ rs) (hr' : r' ∈ rs)
    (hkey : cosetKey c r = cosetKey c r') : r = r' := by
  obtain ⟨i, hi, rfl⟩ := List.getElem_of_mem hr
  obtain ⟨j, hj, rfl⟩ := List.getElem_of_mem hr'
  have hplace : (⟨i, hi⟩ : Fin rs.length) = ⟨j, hj⟩ := h.rep_injective hkey
  obtain rfl := Fin.mk.inj hplace
  rfl

/-- An element of the subgroup `H` times an element of the list. -/
def Apart.product (h : Apart c K rs) (hle : H ≤ K) (z : Fin rs.length × H) : K :=
  ⟨z.2.val * h.rep z.1, K.mul_mem (hle z.2.property) (h.rep_mem z.1)⟩

theorem card_le_of_index_le (hle : H ≤ K) {m : Nat} (hm : Nat.card K / Nat.card H ≤ m) :
    Nat.card K ≤ m * Nat.card H := by
  rw [← Nat.div_mul_cancel (Subgroup.card_dvd_of_le hle)]
  exact Nat.mul_le_mul_right _ hm

theorem card_products (H : Subgroup (Signed n)) (m : Nat) : Nat.card (Fin m × H) = m * Nat.card H := by
  rw [Nat.card_prod, Nat.card_fin]

section Products

variable (hc : c.Finished n H wanted) (h : Apart c K rs) (hle : H ≤ K)
include hc h hle

/-- The cosets of the elements do not meet. -/
theorem Apart.product_injective : Function.Injective (h.product hle) := by
  rintro ⟨i, a, ha⟩ ⟨j, b, hb⟩ heq
  have hprod : a * h.rep i = b * h.rep j := congrArg Subtype.val heq
  have hquot : h.rep i * (h.rep j)⁻¹ = a⁻¹ * b := by
    rw [mul_inv_eq_iff_eq_mul, mul_assoc, ← hprod, inv_mul_cancel_left]
  have hkey : cosetKey c (h.rep i).val = cosetKey c (h.rep j).val := by
    rw [cosetKey_eq_iff hc, hquot]
    exact H.mul_mem (H.inv_mem ha) hb
  obtain rfl := h.rep_injective hkey
  obtain rfl := mul_right_cancel hprod
  rfl

/-- When there are as many of them as there are cosets, every coset has one. -/
theorem Apart.exists_key (hcard : Nat.card K ≤ rs.length * Nat.card H) {x : Signed n}
    (hx : x ∈ K) : ∃ r ∈ rs, cosetKey c r = cosetKey c x.val := by
  rw [← card_products] at hcard
  have hbij := (h.product_injective hc hle).bijective_of_nat_card_le hcard
  obtain ⟨⟨i, a, ha⟩, heq⟩ := hbij.surjective ⟨x, hx⟩
  have hprod : a * h.rep i = x := congrArg Subtype.val heq
  refine ⟨rs[i], List.getElem_mem _, (cosetKey_eq_iff hc (h.rep i) x).mpr ?_⟩
  rw [← hprod, mul_inv_rev, mul_inv_cancel_left]
  exact H.inv_mem ha

/-- When every coset has one of them, there are as many as there are cosets. -/
theorem Apart.card_eq (hcover : ∀ x ∈ K, ∃ r ∈ rs, cosetKey c r = cosetKey c x.val) :
    rs.length * Nat.card H = Nat.card K := by
  rw [← card_products]
  refine Nat.card_eq_of_bijective _ ⟨h.product_injective hc hle, ?_⟩
  rintro ⟨x, hx⟩
  obtain ⟨r, hr, hkey⟩ := hcover x hx
  obtain ⟨i, hi, rfl⟩ := List.getElem_of_mem hr
  have hmem : h.rep ⟨i, hi⟩ * x⁻¹ ∈ H := (cosetKey_eq_iff hc (h.rep ⟨i, hi⟩) x).mp hkey
  refine ⟨⟨⟨i, hi⟩, _, H.inv_mem hmem⟩, Subtype.ext ?_⟩
  show (h.rep ⟨i, hi⟩ * x⁻¹)⁻¹ * h.rep ⟨i, hi⟩ = x
  rw [mul_inv_rev, inv_inv, inv_mul_cancel_right]

end Products

end Counting

end SignedGroup

end SlotSymmetry
