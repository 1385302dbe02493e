import Mathlib.GroupTheory.Index
import SlotSymmetry.Proofs.Group.Derived
import SlotSymmetry.Proofs.Perm.Parts

/-! # The elements with a symmetric sign

    Without an antisymmetric generator no element is antisymmetric.  With one,
    say `f`, every element is symmetric or `f` after a symmetric one, and
    straightening turns it into the symmetric one.  An element of the group is a
    product of generators; straightened, it is a product of the straightened
    `g` and `g * f`, one for each of its factors, which depends on whether what
    follows the factor is symmetric.  So these generate the whole kernel, which
    has half of the elements. -/

namespace SlotSymmetry

open Signed (symmetricPart mem_symmetricPart)

namespace SignedGroup

variable {n : Nat} {H : Subgroup (Signed n)} {G M : SignedGroup} {gens : List SignedPerm}
  {f x y : Signed n}

/-! ## Straightening -/

/-- The element itself if it is symmetric, and the element after `f` backwards if it is not. -/
def straight (f x : Signed n) : Signed n := if x.val.flips then f⁻¹ * x else x

theorem straighten_eq (f x : Signed n) : straighten f.val x.val = (straight f x).val := by
  rw [straighten, straight]
  split <;> rfl

theorem straight_of_symmetric (hx : x ∈ symmetricPart n) : straight f x = x := by
  rw [straight, mem_symmetricPart.mp hx]
  rfl

theorem straight_mem (hf : f ∉ symmetricPart n) : straight f x ∈ symmetricPart n := by
  rw [mem_symmetricPart, Bool.not_eq_false] at hf
  rw [mem_symmetricPart, straight]
  cases hx : x.val.flips with
  | false => exact hx
  | true =>
      show (f.val.flips != x.val.flips) = false
      rw [hf, hx]
      rfl

/-- A symmetric factor on the right stays as it is. -/
theorem straight_mul (hy : y ∈ symmetricPart n) : straight f (x * y) = straight f x * y := by
  have hflips : (x * y).val.flips = x.val.flips := by
    rw [Signed.flips_mul, mem_symmetricPart.mp hy, Bool.bne_false]
  rw [straight, straight, hflips]
  split
  · rw [mul_assoc]
  · rfl

/-- An element is symmetric, or `f` after its straightened form. -/
theorem eq_or_eq_mul_straight (f x : Signed n) : x = straight f x ∨ x = f * straight f x := by
  rw [straight]
  split
  · exact Or.inr (mul_inv_cancel_left f x).symm
  · exact Or.inl rfl

theorem straight_mem_of_mem (hf : f ∈ H) (hx : x ∈ H) : straight f x ∈ H := by
  rw [straight]
  split
  · exact H.mul_mem (H.inv_mem hf) hx
  · exact hx

/-! ## The generators of the kernel -/

theorem mem_kernelGenerators (hgens : ∀ g ∈ gens, g.On n) {s : SignedPerm} :
    s ∈ kernelGenerators f.val gens ↔
      (∃ g : Signed n, g.val ∈ gens ∧ (s = (straight f g).val ∨ s = (straight f (g * f)).val))
        ∧ s.isIdentity = false := by
  rw [kernelGenerators, SignedPerm.mem_distinct, List.mem_filter, List.mem_flatMap,
    Bool.not_eq_true']
  refine and_congr_left fun _ => ?_
  constructor
  · rintro ⟨g, hg, hs⟩
    refine ⟨⟨g, hgens g hg⟩, hg, ?_⟩
    rw [← straighten_eq, ← straighten_eq]
    simpa using hs
  · rintro ⟨g, hg, hs⟩
    refine ⟨g.val, hg, ?_⟩
    rw [← straighten_eq, ← straighten_eq] at hs
    simpa using hs

/-- What is left out of the list is the symmetric identity. -/
theorem straight_mem_span (hgens : ∀ g ∈ gens, g.On n) (hf : f ∉ symmetricPart n) {g : Signed n}
    (hg : g.val ∈ gens) (hx : x = g ∨ x = g * f) :
    straight f x ∈ Signed.span n (kernelGenerators f.val gens) := by
  cases hid : (straight f x).val.isIdentity with
  | true =>
      rw [Signed.eq_one_of_isIdentity hid (mem_symmetricPart.mp (straight_mem hf))]
      exact Subgroup.one_mem _
  | false =>
      refine mem_span_of_mem (straight f x).on ((mem_kernelGenerators hgens).mpr ⟨⟨g, hg, ?_⟩, hid⟩)
      rcases hx with rfl | rfl
      · exact Or.inl rfl
      · exact Or.inr rfl

/-- Straightened, every element of the group is a product of the listed generators. -/
theorem straight_mem_span_of_mem (hgens : ∀ g ∈ gens, g.On n) (hf : f ∉ symmetricPart n)
    (hx : x ∈ Signed.span n gens) :
    straight f x ∈ Signed.span n (kernelGenerators f.val gens) := by
  refine span_induction (P := fun x =>
    straight f x ∈ Signed.span n (kernelGenerators f.val gens)) ?_ ?_ hx
  · rw [straight_of_symmetric (Subgroup.one_mem _)]
    exact Subgroup.one_mem _
  · intro g y hg _ ih
    have hy : straight f y ∈ symmetricPart n := straight_mem hf
    -- whether `f` comes between the factors depends on the sign of what follows
    rcases eq_or_eq_mul_straight f y with heq | heq
    · rw [heq, straight_mul hy]
      exact Subgroup.mul_mem _ (straight_mem_span hgens hf hg (Or.inl rfl)) ih
    · rw [heq, ← mul_assoc, straight_mul hy]
      exact Subgroup.mul_mem _ (straight_mem_span hgens hf hg (Or.inr rfl)) ih

theorem span_kernelGenerators (hgens : ∀ g ∈ gens, g.On n) (hf : f.val ∈ gens)
    (hflips : f ∉ symmetricPart n) :
    Signed.span n (kernelGenerators f.val gens) = Signed.span n gens ⊓ symmetricPart n := by
  have hfmem := mem_span_of_mem f.on hf
  refine le_antisymm (span_le.mpr ?_) ?_
  · intro s hs
    obtain ⟨⟨g, hg, heq⟩, -⟩ := (mem_kernelGenerators hgens).mp hs
    have hgmem : g ∈ Signed.span n gens := mem_span_of_mem g.on hg
    rcases heq with heq | heq
    · rw [Signed.eq_of_val heq]
      exact ⟨straight_mem_of_mem hfmem hgmem, straight_mem hflips⟩
    · rw [Signed.eq_of_val heq]
      exact ⟨straight_mem_of_mem hfmem (Subgroup.mul_mem _ hgmem hfmem), straight_mem hflips⟩
  · rintro x ⟨hx, hsym⟩
    rw [← straight_of_symmetric (f := f) hsym]
    exact straight_mem_span_of_mem hgens hflips hx

/-! ## The group -/

/-- Half of the elements are symmetric, or all of them. -/
theorem card_eq_two_mul (hx : x ∈ H) (hflips : x ∉ symmetricPart n) :
    Nat.card H = 2 * Nat.card (H ⊓ symmetricPart n : Subgroup (Signed n)) := by
  have hindex : (symmetricPart n).relIndex H = 2 := by
    rw [Subgroup.relIndex_eq_two_iff_exists_notMem_and]
    refine ⟨x, hx, hflips, fun y _ => ?_⟩
    rw [mem_symmetricPart, mem_symmetricPart, Signed.flips_mul]
    rw [mem_symmetricPart, Bool.not_eq_false] at hflips
    rw [hflips]
    cases y.val.flips <;> decide
  have hcard := Subgroup.relIndex_mul_relIndex ⊥ (H ⊓ symmetricPart n) H bot_le inf_le_left
  rw [Subgroup.inf_relIndex_left, Subgroup.relIndex_bot_left, Subgroup.relIndex_bot_left,
    hindex] at hcard
  rw [← hcard, Nat.mul_comm]

theorem le_symmetricPart_of_find (hG : G.Presents n H)
    (hfind : G.generators.find? (·.flips) = none) : H ≤ symmetricPart n := by
  rw [← hG.span_eq, span_le]
  intro g hg
  have hflips := List.find?_eq_none.mp hfind g.val hg
  rw [mem_symmetricPart]
  simpa using hflips

theorem Presents.exists_signPreserving (hG : G.Presents n H) :
    ∃ M, G.signPreserving = .ok M ∧ M.Presents n (H ⊓ symmetricPart n) := by
  rw [signPreserving]
  cases hfind : G.generators.find? (·.flips) with
  | none =>
      refine ⟨G, rfl, ?_⟩
      rwa [inf_eq_left.mpr (le_symmetricPart_of_find hG hfind)]
  | some f =>
      have hmem : f ∈ G.generators := List.mem_of_find?_eq_some hfind
      have hf := hG.on f hmem
      have hflips : (⟨f, hf⟩ : Signed n) ∉ symmetricPart n := by
        have := List.find?_some hfind
        rw [mem_symmetricPart]
        simpa using this
      have hspan := span_kernelGenerators hG.on (f := ⟨f, hf⟩) hmem hflips
      rw [hG.span_eq] at hspan
      -- the antisymmetric identity is not symmetric, so the new group has no clash
      have hflip : Signed.flip n ∉ Signed.span n (kernelGenerators f G.generators) := by
        intro h
        rw [hspan] at h
        exact hG.flip_not_mem h.1
      obtain ⟨M, hM, hpresents⟩ := exists_generate (kernelGenerators_on hf hG.on) hflip
      rw [hspan] at hpresents
      refine ⟨M, ?_, hpresents⟩
      rw [hG.degree_eq]
      exact hM

/-- The symmetric elements of a group are a group, and the request for it never fails.  It has half
    of the elements if any of them is antisymmetric, and else all. -/
theorem signPreserving_exact (hG : G.Reachable) :
    ∃ M, G.signPreserving = .ok M
      ∧ (∀ p : SignedPerm, p.Valid →
        (M.contains p = true ↔ G.contains p = true ∧ p.flips = false))
      ∧ ((∃ p : SignedPerm, p.Valid ∧ G.contains p = true ∧ p.flips = true) →
        G.order = 2 * M.order)
      ∧ ((∀ p : SignedPerm, p.Valid → G.contains p = true → p.flips = false) →
        G.order = M.order) := by
  have hp := hG.presents
  obtain ⟨M, hM, hpresents⟩ := hp.exists_signPreserving
  refine ⟨M, hM, ?_, ?_, ?_⟩
  · intro p hvalid
    rw [hp.contains_inf_iff hpresents hvalid]
    refine and_congr_right fun hmem => ?_
    obtain ⟨hon, -⟩ := (hp.contains_iff hvalid).mp hmem
    rw [exists_prop_of_true hon, mem_symmetricPart]
  · rintro ⟨p, hvalid, hmem, hflips⟩
    obtain ⟨hon, hx⟩ := (hp.contains_iff hvalid).mp hmem
    rw [hp.order_eq, hpresents.order_eq]
    refine card_eq_two_mul hx ?_
    rw [mem_symmetricPart, Bool.not_eq_false]
    exact hflips
  · intro hall
    have hle : G.subgroup ≤ symmetricPart G.degree := by
      intro x hx
      rw [mem_symmetricPart]
      exact hall x.val x.on.valid ((hp.contains_val_iff x).mpr hx)
    rw [hp.order_eq, hpresents.order_eq, inf_eq_left.mpr hle]

/-- All permutations of three points, the odd ones antisymmetric. -/
theorem signPreserving_exact_three :
    ∃ G M, generate 3 [rotation 3 false, firstSwap 3 true] = .ok G ∧ G.signPreserving = .ok M
      ∧ M.contains (rotation 3 false) = true ∧ M.contains (firstSwap 3 true) = false
      ∧ G.order = 2 * M.order := by
  have hvalid : ∀ g ∈ [rotation 3 false, firstSwap 3 true], g.Valid := by decide +kernel
  have hmade : (generate 3 [rotation 3 false, firstSwap 3 true]).toOption.map
      (fun G => (G.contains (rotation 3 false), G.contains (firstSwap 3 true)))
      = some (true, true) := by
    decide +kernel
  obtain ⟨G, hG, heq⟩ := Chain.exists_of_map_toOption hmade
  obtain ⟨hrotation, hswap⟩ := Prod.mk.inj heq
  obtain ⟨M, hM, hexact, hhalf, -⟩ := signPreserving_exact (.generate hvalid hG)
  have hvalid' : (firstSwap 3 true).Valid := hvalid _ (by simp)
  refine ⟨G, M, hG, hM, ?_, ?_, hhalf ⟨firstSwap 3 true, hvalid', hswap, rfl⟩⟩
  · exact (hexact _ (hvalid _ List.mem_cons_self)).mpr ⟨hrotation, rfl⟩
  · rw [Bool.eq_false_iff, ne_eq, hexact _ hvalid']
    rintro ⟨-, hsym⟩
    exact nomatch hsym

end SignedGroup

end SlotSymmetry
