import SlotSymmetry.Proofs.Group.Odometer
import SlotSymmetry.Proofs.Group.Reachable

/-! # The enumeration of a group

    The element at a number is the product of the transversal elements at its
    digits.  Different numbers have different digits, and different choices of
    points make different products; as there are as many numbers below the
    product of the lengths of the orbits as there are elements, every element
    comes up exactly once. -/

namespace SlotSymmetry

open Elements

section

variable {n : Nat} {level : Level} {levels : List Level}

/-! ## Elements at indices -/

/-- The transversal of a level, in the order of its orbit. -/
theorem Level.Sound.filterMap_transversal (h : level.Sound n) :
    level.orbit.points.toList.filterMap level.transversal
      = level.orbit.points.toList.map level.carrier := by
  refine List.filterMap_eq_map_iff_forall_eq_some.mpr ?_
  intro q hq
  exact h.transversal_eq ((h.stage.contains_iff q).mpr (Array.mem_toList_iff.mp hq))

/-- The transversals of the levels, as an enumeration holds them. -/
def transversals (levels : List Level) : List (List SignedPerm) :=
  levels.map fun level => level.orbit.points.toList.filterMap level.transversal

theorem lengths_transversals (h : ∀ level ∈ levels, level.Sound n) :
    (transversals levels).map List.length = levels.map (·.orbit.length) := by
  rw [transversals, List.map_map]
  refine List.map_congr_left ?_
  intro level hlevel
  show (level.orbit.points.toList.filterMap level.transversal).length = _
  rw [(h level hlevel).filterMap_transversal, List.length_map, Array.length_toList]
  rfl

/-- The last of the products is the product of the transversal elements at the indices. -/
theorem getLastD_productsFrom (h : ∀ level ∈ levels, level.Sound n) (is : List Nat) :
    ∀ g, (productsFrom g (transversals levels) is).getLastD g = Chain.productAt g levels is := by
  induction levels generalizing is with
  | nil => intro g; rfl
  | cons level below ih =>
      intro g
      obtain ⟨hlevel, hbelow⟩ := List.forall_mem_cons.mp h
      cases is with
      | nil => rfl
      | cons i is =>
          rw [transversals, List.map_cons, hlevel.filterMap_transversal, productsFrom,
            Chain.productAt, List.getElem?_map, Array.getElem?_toList]
          cases level.orbit.points[i]? with
          | none => rfl
          | some q =>
              show ((g * level.carrier q) :: productsFrom _ (transversals below) is).getLastD g = _
              rw [List.getLastD_cons, ih hbelow]

/-- The points of the orbits at these indices. -/
def pointsAt (levels : List Level) (is : List Nat) : List (Option Nat) :=
  List.zipWith (fun level i => level.orbit.points[i]?) levels is

/-- The product at indices is the transversal product of the points at them. -/
theorem Complete.exists_productAt (h : Complete n levels) {is : List Nat}
    (his : List.Forall₂ (fun (level : Level) i => i < level.orbit.length) levels is) :
    ∃ qs, ∃ x ∈ topGroup n levels, qs.map some = pointsAt levels is
      ∧ transversalProduct n levels qs = some x.val
      ∧ ∀ g : Signed n, Chain.productAt g.val levels is = (g * x).val := by
  induction his with
  | nil => exact ⟨[], 1, Subgroup.one_mem _, rfl, rfl, fun g => by rw [mul_one]; rfl⟩
  | @cons level i below is hi _ ih =>
      obtain ⟨qs, x, hx, hqs, hprod, hat⟩ := ih h.2.2
      have hpoint : level.orbit.points[i]? = some level.orbit.points[i] :=
        Array.getElem?_eq_getElem hi
      have hq := h.1.stage.contains_of_getElem? hpoint
      refine ⟨level.orbit.points[i] :: qs, h.1.transporter level.orbit.points[i] * x,
        (level.group n).mul_mem (h.1.transporter_mem _) (h.top_below_le hx), ?_, ?_, ?_⟩
      · rw [List.map_cons, hqs, pointsAt, pointsAt, List.zipWith_cons_cons, hpoint]
      · rw [transversalProduct_cons h.1 hq, hprod]
        rfl
      · intro g
        rw [Chain.productAt, hpoint, ← mul_assoc]
        exact hat (g * h.1.transporter level.orbit.points[i])

/-- The first point of an orbit is its base point, and the way there is the identity. -/
theorem productAt_zeros (h : ∀ level ∈ levels, level.Sound n) (g : Signed n) :
    Chain.productAt g.val levels (levels.map fun _ => 0) = g.val := by
  induction levels with
  | nil => rfl
  | cons level below ih =>
      obtain ⟨hlevel, hbelow⟩ := List.forall_mem_cons.mp h
      have hcarrier : g.val * level.carrier level.basePoint = g.val := by
        show (g * hlevel.transporter level.basePoint).val = g.val
        rw [Level.Sound.transporter, hlevel.stage.transporter_seed hlevel.on, mul_one]
      rw [List.map_cons, Chain.productAt, hlevel.stage.first]
      show Chain.productAt (g.val * level.carrier level.basePoint) below _ = g.val
      rw [hcarrier, ih hbelow]

/-- Different indices pick different points. -/
theorem pointsAt_injective (h : ∀ level ∈ levels, level.Sound n) {is js : List Nat}
    (his : List.Forall₂ (fun (level : Level) i => i < level.orbit.length) levels is)
    (hjs : List.Forall₂ (fun (level : Level) j => j < level.orbit.length) levels js)
    (heq : pointsAt levels is = pointsAt levels js) : is = js := by
  induction his generalizing js with
  | nil => cases hjs; rfl
  | @cons level i below is hi _ ih =>
      cases hjs with
      | @cons _ j _ js hj hjs =>
          obtain ⟨hlevel, hbelow⟩ := List.forall_mem_cons.mp h
          obtain ⟨hpoint, hrest⟩ := List.cons.inj heq
          have hpoint' : level.orbit.points.toList[i]? = level.orbit.points.toList[j]? := by
            simpa using hpoint
          have hi' : i < level.orbit.points.toList.length := by
            rw [Array.length_toList]
            exact hi
          rw [(List.getElem?_inj hi' hlevel.stage.nodup).mp hpoint', ih hbelow hjs hrest]

end

/-! ## The items -/

namespace SignedGroup

/-- What the enumeration of the group returns after `k` other requests. -/
def item (G : SignedGroup) (k : Nat) : Option SignedPerm := ((ofGroup G).after k).next?.1

variable {n : Nat} {H : Subgroup (Signed n)} {G : SignedGroup} {k : Nat}

theorem Presents.lengths_eq (hG : G.Presents n H) :
    (transversals G.chain.levels).map List.length = G.chain.lengths :=
  lengths_transversals hG.chain.complete.sound

theorem Presents.prod_lengths (hG : G.Presents n H) :
    ((transversals G.chain.levels).map List.length).prod = G.order := by
  rw [hG.lengths_eq, order, Chain.order_eq_prod]
  rfl

theorem Presents.order_pos (hG : G.Presents n H) : 0 < G.order := by
  rw [hG.order_eq]
  exact Nat.card_pos

theorem Presents.ofGroup_eq (hG : G.Presents n H) :
    ofGroup G = standing (transversals G.chain.levels) (.id n) 0 := by
  rw [standing, digits_zero, List.map_map, ← hG.degree_eq]
  rfl

/-- The digits of a number below the order are indices into the orbits. -/
theorem digits_lt_length (hk : k < G.order) :
    List.Forall₂ (fun (level : Level) i => i < level.orbit.length) G.chain.levels
      (digits G.chain.lengths k) := by
  refine digits_lt_map (fun level : Level => level.orbit.length) G.chain.levels ?_
  rwa [order, Chain.order_eq_prod] at hk

/-- Below the order, the digits of the number pick the item. -/
theorem Presents.item_eq (hG : G.Presents n H) (hk : k < G.order) :
    G.item k = some (G.chain.elementAt (digits G.chain.lengths k)) := by
  rw [item, hG.ofGroup_eq, after_standing (hG.prod_lengths.symm ▸ hk), ← hG.lengths_eq,
    Chain.elementAt, hG.chain.degree_eq, ← getLastD_productsFrom hG.chain.complete.sound]
  rfl

/-- The element at indices into the orbits is a member, as the product of the points at them. -/
theorem Presents.exists_elementAt (hG : G.Presents n H) {is : List Nat}
    (his : List.Forall₂ (fun (level : Level) i => i < level.orbit.length) G.chain.levels is) :
    ∃ qs, ∃ x ∈ H, qs.map some = pointsAt G.chain.levels is
      ∧ transversalProduct n G.chain.levels qs = some x.val
      ∧ G.chain.elementAt is = x.val := by
  obtain ⟨qs, x, hx, hqs, hprod, hat⟩ := hG.chain.complete.exists_productAt his
  rw [hG.chain.stacked.top] at hx
  refine ⟨qs, x, hx, hqs, hprod, ?_⟩
  rw [Chain.elementAt, hG.chain.degree_eq, ← Signed.val_one, hat 1, one_mul]

/-- Different indices make different elements. -/
theorem Presents.elementAt_injective (hG : G.Presents n H) {is js : List Nat}
    (his : List.Forall₂ (fun (level : Level) i => i < level.orbit.length) G.chain.levels is)
    (hjs : List.Forall₂ (fun (level : Level) j => j < level.orbit.length) G.chain.levels js)
    (heq : G.chain.elementAt is = G.chain.elementAt js) : is = js := by
  obtain ⟨qs, x, -, hqs, hprod, hat⟩ := hG.exists_elementAt his
  obtain ⟨qs', x', -, hqs', hprod', hat'⟩ := hG.exists_elementAt hjs
  rw [hat, hat'] at heq
  rw [← heq] at hprod'
  -- the same element comes from the same points, at the same indices
  rw [hG.chain.complete.points_unique hprod hprod', hqs'] at hqs
  exact pointsAt_injective hG.chain.complete.sound his hjs hqs.symm

theorem Presents.item_of_lt (hG : G.Presents n H) (hk : k < G.order) :
    ∃ qs, ∃ x ∈ H, qs.map some = pointsAt G.chain.levels (digits G.chain.lengths k)
      ∧ transversalProduct n G.chain.levels qs = some x.val ∧ G.item k = some x.val := by
  obtain ⟨qs, x, hx, hqs, hprod, hat⟩ := hG.exists_elementAt (digits_lt_length hk)
  exact ⟨qs, x, hx, hqs, hprod, (hG.item_eq hk).trans (congrArg some hat)⟩

theorem Presents.item_zero (hG : G.Presents n H) : G.item 0 = some (.id n) := by
  have hzeros : digits G.chain.lengths 0 = G.chain.levels.map fun _ => 0 := by
    rw [digits_zero, Chain.lengths, List.map_map]
    rfl
  rw [hG.item_eq hG.order_pos, hzeros, Chain.elementAt, hG.chain.degree_eq, ← Signed.val_one,
    productAt_zeros hG.chain.complete.sound]

theorem Presents.item_of_le (hG : G.Presents n H) (hk : G.order ≤ k) : G.item k = none := by
  have hpos := hG.order_pos
  rw [← hG.prod_lengths] at hpos hk
  rw [item, hG.ofGroup_eq, next?, if_pos (done_after hpos hk)]

theorem Presents.item_injective (hG : G.Presents n H) {j : Nat} (hj : j < G.order)
    (hk : k < G.order) (heq : G.item j = G.item k) : j = k := by
  rw [hG.item_eq hj, hG.item_eq hk] at heq
  have hdigits := hG.elementAt_injective (digits_lt_length hj) (digits_lt_length hk)
    (Option.some.inj heq)
  rw [← hG.lengths_eq] at hdigits
  rw [← hG.prod_lengths] at hj hk
  exact digits_injective _ j k hj hk hdigits

/-- Every element comes up: there are as many items as elements. -/
theorem Presents.exists_item (hG : G.Presents n H) {x : Signed n} (hx : x ∈ H) :
    ∃ k, k < G.order ∧ G.item k = some x.val := by
  choose! qs y hy _ _ hitem using fun k (hk : k < G.order) => hG.item_of_lt hk
  let pick : Fin G.order → H := fun k => ⟨y k, hy k k.isLt⟩
  have hinjective : Function.Injective pick := by
    intro j k hjk
    have heq : y j = y k := congrArg Subtype.val hjk
    refine Fin.ext (hG.item_injective j.isLt k.isLt ?_)
    rw [hitem j j.isLt, hitem k k.isLt, heq]
  have hcard : Nat.card H ≤ Nat.card (Fin G.order) := by
    rw [Nat.card_fin, hG.order_eq]
  obtain ⟨k, hk⟩ := (hinjective.bijective_of_nat_card_le hcard).surjective ⟨x, hx⟩
  refine ⟨k, k.isLt, ?_⟩
  rw [hitem k k.isLt, show y k = x from congrArg Subtype.val hk]

/-- The enumeration returns every element of the group exactly once, as many items as the group has
    elements, and nothing ever after.  The item at `k` is the product of one transversal element
    per level, for the points at the digits of `k` in the radix of the lengths of the orbits, so
    the first item is the symmetric identity. -/
theorem enumeration_exact (hG : G.Reachable) :
    (∀ p : SignedPerm, p.Valid → G.contains p = true → ∃! k, G.item k = some p)
      ∧ (∀ k p, G.item k = some p → k < G.order ∧ p.Valid ∧ G.contains p = true)
      ∧ (∀ k, G.order ≤ k → G.item k = none)
      ∧ (∀ k, k < G.order → ∃ qs p,
        qs.map some = pointsAt G.chain.levels (digits G.chain.lengths k)
          ∧ transversalProduct G.degree G.chain.levels qs = some p ∧ G.item k = some p)
      ∧ G.item 0 = some (.id G.degree) := by
  have hp := hG.presents
  have hlt : ∀ {k p}, G.item k = some p → k < G.order := by
    intro k p hk
    by_contra hle
    rw [hp.item_of_le (Nat.le_of_not_lt hle)] at hk
    exact nomatch hk
  refine ⟨?_, ?_, fun k hk => hp.item_of_le hk, ?_, ?_⟩
  · intro p hvalid hmem
    obtain ⟨hon, hx⟩ := (hp.contains_iff hvalid).mp hmem
    obtain ⟨k, hk, hitem⟩ := hp.exists_item hx
    refine ⟨k, hitem, ?_⟩
    intro j hj
    exact hp.item_injective (hlt hj) hk (hj.trans hitem.symm)
  · intro k p hitem
    obtain ⟨qs, x, hx, -, -, hitem'⟩ := hp.item_of_lt (hlt hitem)
    obtain rfl : p = x.val := Option.some.inj (hitem.symm.trans hitem')
    exact ⟨hlt hitem, x.on.valid, (hp.contains_val_iff x).mpr hx⟩
  · intro k hk
    obtain ⟨qs, x, -, hqs, hprod, hitem⟩ := hp.item_of_lt hk
    exact ⟨qs, x.val, hqs, hprod, hitem⟩
  · exact hp.item_zero

/-- All permutations of three points: the rotation comes up once, and there is no seventh item. -/
theorem enumeration_exact_three :
    ∃ G, generate 3 [rotation 3 false, firstSwap 3 false] = .ok G
      ∧ (∃! k, G.item k = some (rotation 3 false)) ∧ G.item 0 = some (.id 3)
      ∧ G.item 6 = none ∧ ∃ p, G.item 5 = some p := by
  have hvalid : ∀ g ∈ [rotation 3 false, firstSwap 3 false], g.Valid := by decide +kernel
  have hmade : (generate 3 [rotation 3 false, firstSwap 3 false]).toOption.map
      (fun G => (G.degree, G.order, G.contains (rotation 3 false))) = some (3, 6, true) := by
    decide +kernel
  obtain ⟨G, hG, heq⟩ := Chain.exists_of_map_toOption hmade
  obtain ⟨hdegree, heq⟩ := Prod.mk.inj heq
  obtain ⟨horder, hmem⟩ := Prod.mk.inj heq
  obtain ⟨honce, -, hnone, hsome, hzero⟩ := enumeration_exact (.generate hvalid hG)
  obtain ⟨-, p, -, -, hlast⟩ := hsome 5 (by rw [horder]; decide)
  rw [hdegree] at hzero
  exact ⟨G, hG, honce _ (hvalid _ List.mem_cons_self) hmem, hzero,
    hnone 6 (by rw [horder]), p, hlast⟩

end SignedGroup

end SlotSymmetry
