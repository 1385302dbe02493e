import SlotSymmetry.Proofs.Group.Choosing
import SlotSymmetry.Proofs.Group.Pruning
import SlotSymmetry.Proofs.Group.Reachable

/-! # Coset representatives

    The search of the group offers its elements in ascending order of base
    images, except for some that are not least in their right cosets.  So the
    first element that is offered of a right coset is its least one, and it is
    the one that is chosen.  The search stops when there is an element for every
    coset; by then, all that is left to offer would be refused.  Inverses turn
    right cosets into left ones. -/

namespace SlotSymmetry

namespace SignedGroup

variable {n : Nat} {H K : Subgroup (Signed n)} {G G' : SignedGroup}

/-! ## Offers of the search -/

/-- The elements of the group that pass the test on the first base image, in the order of the
    search. -/
def offers (G G' : SignedGroup) : List SignedPerm :=
  harvest (startsAtMinimum G'.orbitMinima) (fun _ => true) G.chain.levels [] (.id G.degree)

theorem mem_offers_iff (hG : G.Presents n K) {p : SignedPerm} :
    p ∈ offers G G' ↔ ∃ x ∈ K, p = x.val
      ∧ ∀ v, v <+: baseImages G.chain.levels p → startsAtMinimum G'.orbitMinima v = true := by
  rw [offers, hG.degree_eq, mem_harvest_root_iff hG.chain.complete, hG.chain.stacked.top]
  simp only [and_true]

theorem least_mem_offers (hG : G.Presents n K) (hG' : G'.Presents n H) {x : Signed n} (hx : x ∈ K)
    (hleast : LeastInCoset H G.chain.levels x) : x.val ∈ offers G G' := by
  refine (mem_offers_iff hG).mpr ⟨x, hx, rfl, hleast.startsAtMinimum hG' ?_⟩
  exact fun level hlevel => (hG.chain.stacked.sound level hlevel).basePoint_lt

theorem pairwise_offers (hG : G.Presents n K) :
    (offers G G').Pairwise
      fun p q => baseImages G.chain.levels p < baseImages G.chain.levels q := by
  rw [offers, hG.degree_eq, ← Signed.val_one]
  exact pairwise_harvest hG.chain.complete 1

/-! ## What is chosen -/

/-- What is chosen when all elements are offered. -/
def chosenOf (G G' : SignedGroup) : Representatives :=
  (offers G G').foldl (Representatives.offer G'.chain) ⟨#[], ∅⟩

/-- The elements chosen, in the order of the search. -/
def rightRepresentatives (G G' : SignedGroup) : List SignedPerm := (chosenOf G G').chosen.toList

theorem chosen_of_prefix (hG : G.Presents n K) {part : List SignedPerm}
    (hpart : part <+: offers G G') :
    Chosen G'.chain (fun p q => baseImages G.chain.levels p < baseImages G.chain.levels q) part
      (part.foldl (Representatives.offer G'.chain) ⟨#[], ∅⟩) :=
  chosen_foldl ((pairwise_offers hG).sublist hpart.sublist)

theorem Chosen.apart (hG : G.Presents n K) {R : SignedPerm → SignedPerm → Prop}
    {part : List SignedPerm} (hpart : part <+: offers G G') {r : Representatives}
    (h : Chosen G'.chain R part r) : Apart G'.chain K r.chosen.toList := by
  refine ⟨fun p hp => ?_, h.differ⟩
  obtain ⟨x, hx, rfl, -⟩ := (mem_offers_iff hG).mp (hpart.subset (h.sublist.subset hp))
  exact ⟨x.on, hx⟩

section Choice

variable (hG : G.Presents n K) (hG' : G'.Presents n H) (hle : H ≤ K)
include hG hG' hle

/-- The search may stop when there are enough representatives. -/
theorem representRightCosets_eq :
    (representRightCosets G G' .unlimited).2.meter.Free
      ∧ (representRightCosets G G' .unlimited).1 = chosenOf G G' := by
  refine ⟨Search.free_foldWhile Meter.start_free, ?_⟩
  rw [representRightCosets, Search.foldWhile_eq_gather _ Meter.start_free, Chain.search,
    Search.agendaHarvest_start, hG.chain.degree_eq, ← hG.degree_eq]
  show gather _ _ _ (offers G G') = _
  obtain ⟨part, rest, hoffers, hgather, hend⟩ := exists_gather
    (fun r : Representatives => decide (r.chosen.size < G.order / G'.order))
    (Representatives.offer G'.chain) (offers G G') ⟨#[], ∅⟩
  rw [hgather, chosenOf, hoffers, List.foldl_append]
  rcases hend with rfl | henough
  · rfl
  · have hpart : part <+: offers G G' := ⟨rest, hoffers.symm⟩
    have hchosen := chosen_of_prefix hG hpart
    refine (foldl_offer_of_known fun p hp => ?_).symm
    -- there are as many representatives as cosets, so the coset of `p` has one
    have hindex := Nat.le_of_not_lt (of_decide_eq_false henough)
    rw [hG.order_eq, hG'.order_eq, ← Array.length_toList] at hindex
    have hcard := card_le_of_index_le hle hindex
    have hmem : p ∈ offers G G' := hoffers ▸ List.mem_append_right part hp
    obtain ⟨x, hx, rfl, -⟩ := (mem_offers_iff hG).mp hmem
    exact (hchosen.canonical _).mpr
      ((hchosen.apart hG hpart).exists_key hG'.chain hle hcard hx)

omit hG' hle in
theorem chosen_offers :
    Chosen G'.chain (fun p q => baseImages G.chain.levels p < baseImages G.chain.levels q)
      (offers G G') (chosenOf G G') :=
  chosen_of_prefix hG List.prefix_rfl

omit hG' hle in
theorem apart_rightRepresentatives : Apart G'.chain K (rightRepresentatives G G') :=
  (chosen_offers hG).apart hG List.prefix_rfl

/-- The least element of every right coset is offered. -/
theorem exists_least_offer {x : Signed n} (hx : x ∈ K) :
    ∃ h ∈ H, LeastInCoset H G.chain.levels (h * x) ∧ (h * x).val ∈ offers G G' := by
  have htop := hG.chain.stacked.top
  obtain ⟨h, hh, hleast⟩ := exists_leastInCoset hG.chain.complete (hle.trans_eq htop.symm)
    (htop.symm ▸ hx)
  exact ⟨h, hh, hleast, least_mem_offers hG hG' (K.mul_mem (hle hh) hx) hleast⟩

/-- Every right coset has a representative. -/
theorem exists_representative {x : Signed n} (hx : x ∈ K) :
    ∃ r ∈ rightRepresentatives G G', cosetKey G'.chain r = cosetKey G'.chain x.val := by
  obtain ⟨h, hh, -, hoffered⟩ := exists_least_offer hG hG' hle hx
  obtain ⟨r, hr, hkey, -⟩ := (chosen_offers hG).first _ hoffered
  exact ⟨r, hr, hkey.trans (cosetKey_mul_left hG'.chain hh x)⟩

/-- Every representative is the least element of its right coset. -/
theorem least_of_mem {x : Signed n} (hx : x.val ∈ rightRepresentatives G G') :
    LeastInCoset H G.chain.levels x := by
  have hapart : Apart G'.chain K (rightRepresentatives G G') := apart_rightRepresentatives hG
  have hxK : x ∈ K := (hapart.mem _ hx).snd
  obtain ⟨h, hh, hleast, hoffered⟩ := exists_least_offer hG hG' hle hxK
  -- the representative of the coset is `x`, and it was offered no later than the least element
  obtain ⟨r, hr, hkey, hfirst⟩ := (chosen_offers hG).first _ hoffered
  obtain rfl := hapart.eq_of_key hr hx (hkey.trans (cosetKey_mul_left hG'.chain hh x))
  have hback := hleast h⁻¹ (H.inv_mem hh)
  rw [inv_mul_cancel_left] at hback
  rcases hback with heq | hlt
  · rw [heq]
    exact hleast
  · rcases hfirst with hval | hlt'
    · rw [← hval] at hlt
      exact absurd hlt (List.lt_irrefl _)
    · exact absurd hlt' (List.lt_asymm hlt)

theorem length_rightRepresentatives : (rightRepresentatives G G').length * G'.order = G.order := by
  rw [hG.order_eq, hG'.order_eq]
  exact (apart_rightRepresentatives hG).card_eq hG'.chain hle
    fun x hx => exists_representative hG hG' hle hx

end Choice

/-! ## Transversals -/

/-- The list has the least element of every right coset of the second group in the first, by the
    images of the base points of the first and in ascending order of them. -/
structure RightTransversal (G G' : SignedGroup) (rs : List SignedPerm) : Prop where
  mem : ∀ r ∈ rs, r.Valid ∧ G.contains r = true
  one : ∀ p : SignedPerm, p.Valid → G.contains p = true →
    ∃! r, r ∈ rs ∧ ∃ h : SignedPerm, h.Valid ∧ G'.contains h = true ∧ r = h * p
  least : ∀ r ∈ rs, ∀ h : SignedPerm, h.Valid → G'.contains h = true →
    h * r = r ∨ G.base.map r.act < G.base.map (h * r).act
  ascending : rs.Pairwise fun r r' => G.base.map r.act < G.base.map r'.act
  length_mul : rs.length * G'.order = G.order

theorem base_map_act (G : SignedGroup) (p : SignedPerm) :
    G.base.map p.act = baseImages G.chain.levels p :=
  (baseImages_drop G.chain 0 p).symm

/-- Every right coset has exactly one representative. -/
theorem exists_right_representative (hG : G.Presents n K) (hG' : G'.Presents n H) (hle : H ≤ K)
    {p : SignedPerm} (hvalid : p.Valid) (hp : G.contains p = true) :
    ∃! r, r ∈ rightRepresentatives G G'
      ∧ ∃ h : SignedPerm, h.Valid ∧ G'.contains h = true ∧ r = h * p := by
  have hapart : Apart G'.chain K (rightRepresentatives G G') := apart_rightRepresentatives hG
  obtain ⟨hon, hmem⟩ := (hG.contains_iff hvalid).mp hp
  obtain ⟨r, hr, hkey⟩ := exists_representative hG hG' hle hmem
  obtain ⟨hron, -⟩ := hapart.mem r hr
  have hquot : ⟨r, hron⟩ * (⟨p, hon⟩ : Signed n)⁻¹ ∈ H :=
    (cosetKey_eq_iff hG'.chain ⟨r, hron⟩ ⟨p, hon⟩).mp hkey
  refine ⟨r, ⟨hr, _, (_ : Signed n).on.valid, (hG'.contains_val_iff _).mpr hquot, ?_⟩, ?_⟩
  · exact congrArg Signed.val (inv_mul_cancel_right (⟨r, hron⟩ : Signed n) ⟨p, hon⟩).symm
  · rintro r' ⟨hr', h, hh, hhmem, rfl⟩
    obtain ⟨hhon, hhH⟩ := (hG'.contains_iff hh).mp hhmem
    refine hapart.eq_of_key hr' hr (Eq.trans ?_ hkey.symm)
    exact cosetKey_mul_left hG'.chain hhH ⟨p, hon⟩

theorem rightTransversal_spec (hG : G.Presents n K) (hG' : G'.Presents n H) (hle : H ≤ K) :
    RightTransversal G G' (rightRepresentatives G G') := by
  have hapart : Apart G'.chain K (rightRepresentatives G G') := apart_rightRepresentatives hG
  refine ⟨fun r hr => ?_, fun p hvalid hp => exists_right_representative hG hG' hle hvalid hp,
    fun r hr h hvalid hh => ?_, ?_, length_rightRepresentatives hG hG' hle⟩
  · obtain ⟨hon, hmem⟩ := hapart.mem r hr
    exact ⟨hon.valid, (hG.contains_iff hon.valid).mpr ⟨hon, hmem⟩⟩
  · obtain ⟨hron, -⟩ := hapart.mem r hr
    obtain ⟨hhon, hhmem⟩ := (hG'.contains_iff hvalid).mp hh
    have hleast : LeastInCoset H G.chain.levels ⟨r, hron⟩ := least_of_mem hG hG' hle hr
    rw [base_map_act, base_map_act]
    exact (hleast ⟨h, hhon⟩ hhmem).imp_left (congrArg Signed.val)
  · simp only [base_map_act]
    exact (pairwise_offers hG).sublist (chosen_offers hG).sublist

/-- The inverses have one element of every left coset. -/
theorem exists_left_representative (hG : G.Presents n K) (hG' : G'.Presents n H) (hle : H ≤ K)
    {p : SignedPerm} (hvalid : p.Valid) (hp : G.contains p = true) :
    ∃! l, l ∈ (rightRepresentatives G G').map (·.inverse)
      ∧ ∃ h : SignedPerm, h.Valid ∧ G'.contains h = true ∧ l = p * h := by
  obtain ⟨hon, hp'⟩ := hG.inverse_mem hvalid hp
  -- the representative of the right coset of the inverse, turned around
  obtain ⟨r, ⟨hr, h, hh, hmem, hrp⟩, hunique⟩ :=
    exists_right_representative hG hG' hle hon.inverse.valid hp'
  obtain ⟨hhon, hmem'⟩ := hG'.inverse_mem hh hmem
  refine ⟨r.inverse, ⟨List.mem_map_of_mem hr, h.inverse, hhon.inverse.valid, hmem', ?_⟩, ?_⟩
  · rw [hrp, SignedPerm.inverse_mul hhon hon.inverse]
    rfl
  · rintro l ⟨hl, k, hk, hkmem, rfl⟩
    obtain ⟨r', hr', hrk⟩ := List.mem_map.mp hl
    obtain ⟨hkon, hkmem'⟩ := hG'.inverse_mem hk hkmem
    have hturn : r' = k.inverse * p.inverse := by
      rw [← SignedPerm.inverse_mul hon hkon]
      exact congrArg SignedPerm.inverse hrk
    rw [← hrk, hunique r' ⟨hr', k.inverse, hkon.inverse.valid, hkmem', hturn⟩]

/-! ## Requests -/

theorem requireSubgroup_of_ne (h : G.degree ≠ G'.degree) :
    requireSubgroup G G' = .error (.perm (.degreeMismatch G.degree G'.degree)) := by
  rw [requireSubgroup, sameDegree, if_neg h]
  rfl

theorem requireSubgroup_of_not (h : G.degree = G'.degree) (hsub : G'.isSubgroupOf G = false) :
    requireSubgroup G G' = .error .notASubgroup := by
  rw [requireSubgroup, sameDegree_of_eq h, hsub]
  rfl

theorem requireSubgroup_of_subgroup (h : G.degree = G'.degree) (hsub : G'.isSubgroupOf G = true) :
    requireSubgroup G G' = .ok () := by
  rw [requireSubgroup, sameDegree_of_eq h, hsub]
  rfl

theorem cosets_of_error {e : GroupError} (h : requireSubgroup G G' = .error e) (budget : Budget) :
    G.rightCosets G' budget = .error e ∧ G.leftCosets G' budget = .error e := by
  have hright : G.rightCosets G' budget = .error e := by
    rw [rightCosets, h]
    rfl
  refine ⟨hright, ?_⟩
  rw [leftCosets, hright]
  rfl

/-- The requests without limits, for a subgroup. -/
theorem cosets_of_subgroup (hG : G.Presents n K) (hG' : G'.Presents n H) (hle : H ≤ K) :
    G.rightCosets G' .unlimited = .ok (.complete (rightRepresentatives G G'))
      ∧ G.leftCosets G' .unlimited
        = .ok (.complete ((rightRepresentatives G G').map (·.inverse))) := by
  have hsub := requireSubgroup_of_subgroup (hG.degree_eq.trans hG'.degree_eq.symm)
    ((hG'.isSubgroupOf_iff hG).mpr hle)
  obtain ⟨hfree, hchosen⟩ := representRightCosets_eq hG hG' hle
  have hright : G.rightCosets G' .unlimited = .ok (.complete (rightRepresentatives G G')) := by
    rw [rightCosets, hsub]
    show Except.ok ((representRightCosets G G' .unlimited).2.meter.outcome
      (representRightCosets G G' .unlimited).1.chosen.toList) = _
    rw [hfree.outcome, hchosen]
    rfl
  refine ⟨hright, ?_⟩
  rw [leftCosets, hright]
  rfl

/-- For a subgroup, the representatives of right cosets are a transversal of least elements in
    ascending order, and those of left cosets are their inverses.  No other group has any. -/
theorem cosets_exact (hG : G.Reachable) (hG' : G'.Reachable) :
    (G.degree = G'.degree →
        (∀ p : SignedPerm, p.Valid → G'.contains p = true → G.contains p = true) →
        ∃ rs, (G.rightCosets G' .unlimited >>= Outcome.toResult) = .ok rs
          ∧ RightTransversal G G' rs
          ∧ (G.leftCosets G' .unlimited >>= Outcome.toResult) = .ok (rs.map (·.inverse))
          ∧ ∀ p : SignedPerm, p.Valid → G.contains p = true →
            ∃! l, l ∈ rs.map (·.inverse)
              ∧ ∃ h : SignedPerm, h.Valid ∧ G'.contains h = true ∧ l = p * h)
      ∧ (G.degree = G'.degree →
        ¬ (∀ p : SignedPerm, p.Valid → G'.contains p = true → G.contains p = true) →
        (G.rightCosets G' .unlimited >>= Outcome.toResult) = .error .notASubgroup
          ∧ (G.leftCosets G' .unlimited >>= Outcome.toResult) = .error .notASubgroup)
      ∧ (G.degree ≠ G'.degree →
        (G.rightCosets G' .unlimited >>= Outcome.toResult)
            = .error (.perm (.degreeMismatch G.degree G'.degree))
          ∧ (G.leftCosets G' .unlimited >>= Outcome.toResult)
            = .error (.perm (.degreeMismatch G.degree G'.degree))) := by
  have hp := hG.presents
  refine ⟨fun hsame hsub => ?_, fun hsame hsub => ?_, fun hne => ?_⟩
  · have hp' := hG'.presents.at_degree hsame.symm
    have hle := (hp'.le_iff_contains hp).mpr hsub
    obtain ⟨hright, hleft⟩ := cosets_of_subgroup hp hp' hle
    rw [hright, hleft]
    exact ⟨_, rfl, rightTransversal_spec hp hp' hle, rfl,
      fun p hvalid hmem => exists_left_representative hp hp' hle hvalid hmem⟩
  · have hp' := hG'.presents.at_degree hsame.symm
    have hnot : G'.isSubgroupOf G = false := by
      rw [Bool.eq_false_iff, ne_eq, hp'.isSubgroupOf_iff hp, hp'.le_iff_contains hp]
      exact hsub
    obtain ⟨hright, hleft⟩ := cosets_of_error (requireSubgroup_of_not hsame hnot) .unlimited
    rw [hright, hleft]
    exact ⟨rfl, rfl⟩
  · obtain ⟨hright, hleft⟩ := cosets_of_error (requireSubgroup_of_ne hne) .unlimited
    rw [hright, hleft]
    exact ⟨rfl, rfl⟩

/-- A swap has three right cosets in the group of all permutations of three points. -/
theorem cosets_exact_swap :
    ∃ G G' rs, generate 3 [rotation 3 false, firstSwap 3 false] = .ok G
      ∧ generate 3 [firstSwap 3 false] = .ok G'
      ∧ (G.rightCosets G' .unlimited >>= Outcome.toResult) = .ok rs ∧ rs.length = 3 := by
  have hvalid : ∀ g ∈ [rotation 3 false, firstSwap 3 false], g.Valid := by decide +kernel
  have hswap : ∀ g ∈ [firstSwap 3 false], g.Valid :=
    fun g hg => hvalid g (List.mem_cons_of_mem _ hg)
  have hall : (generate 3 [rotation 3 false, firstSwap 3 false]).toOption.map
      (fun G => (G.degree, G.order)) = some (3, 6) := by
    decide +kernel
  have htwo : (generate 3 [firstSwap 3 false]).toOption.map (fun G => (G.degree, G.order))
      = some (3, 2) := by
    decide +kernel
  obtain ⟨G, hG, heq⟩ := Chain.exists_of_map_toOption hall
  obtain ⟨G', hG', heq'⟩ := Chain.exists_of_map_toOption htwo
  simp only [Prod.mk.injEq] at heq heq'
  obtain ⟨hdegree, horder⟩ := heq
  obtain ⟨hdegree', horder'⟩ := heq'
  have hp := generate_presents hvalid hG
  have hp' := generate_presents hswap hG'
  have hle : Signed.span 3 [firstSwap 3 false]
      ≤ Signed.span 3 [rotation 3 false, firstSwap 3 false] :=
    span_mono fun g hg => List.mem_cons_of_mem _ hg
  obtain ⟨rs, hrs, htransversal, -⟩ := (cosets_exact (.generate hvalid hG) (.generate hswap hG')).1
    (hdegree.trans hdegree'.symm) ((hp'.le_iff_contains hp).mp hle)
  have hlength := htransversal.length_mul
  rw [horder, horder'] at hlength
  exact ⟨G, G', rs, hG, hG', hrs, by omega⟩

end SignedGroup

end SlotSymmetry
