import SlotSymmetry.Proofs.Perm.OverlappingCycles

/-! # Transpositions

    A cycle is split into the transpositions of its first point with each of the
    others, from the last one down to the second one.  Its product grows by one
    factor on the right with every point that is put in after the first one
    (`formPerm_cons_cons_right`), so the transpositions of a cycle multiply to it, and
    all of them to the permutation (`On.product_transpositions`).  Going through
    them in the other direction gives the inverse, as each of them is its own. -/

namespace SlotSymmetry

namespace SignedPerm

variable {n : Nat} {p : SignedPerm} {cycle : List Nat} {cycles : List (List Nat)}
  {t : Nat × Nat} {ts : List (Nat × Nat)} {q : Nat}

/-! ## Transpositions of a cycle -/

/-- The transpositions as cycles of two points. -/
def asCycles (ts : List (Nat × Nat)) : List (List Nat) := ts.map fun t => [t.1, t.2]

theorem formPerm_cons_cons_right {a b : Nat} {rest : List Nat} (hnodup : (a :: b :: rest).Nodup) :
    (a :: b :: rest).formPerm = (a :: rest).formPerm * Equiv.swap a b := by
  have hshort : (a :: rest).Nodup := hnodup.sublist (by simp)
  calc (a :: b :: rest).formPerm
      = (rest ++ [a, b]).formPerm := by
        rw [← List.formPerm_rotate _ hnodup 2]
        simp only [List.rotate_cons_succ, List.rotate_zero, List.append_assoc, List.cons_append,
          List.nil_append]
    _ = (rest ++ [a]).formPerm * Equiv.swap a b := List.formPerm_append_pair rest a b
    _ = (a :: rest).formPerm * Equiv.swap a b := by
        rw [← List.formPerm_rotate_one _ hshort, List.rotate_cons_succ, List.rotate_zero]

theorem product_asCycles_append (ts us : List (Nat × Nat)) :
    product (asCycles (ts ++ us)) = product (asCycles ts) * product (asCycles us) := by
  rw [asCycles, List.map_append, product_append]
  rfl

/-- The transpositions of a cycle multiply to it. -/
theorem product_transpositionsOfCycle (hnodup : cycle.Nodup) :
    product (asCycles (transpositionsOfCycle cycle)) = cycle.formPerm := by
  cases cycle with
  | nil => rfl
  | cons first rest =>
      induction rest with
      | nil => rfl
      | cons point rest ih =>
          have hshort : (first :: rest).Nodup := hnodup.sublist (by simp)
          rw [formPerm_cons_cons_right hnodup, ← ih hshort, transpositionsOfCycle, List.reverse_cons,
            List.map_append, product_asCycles_append]
          refine congrArg (_ * ·) ?_
          exact (product_singleton _).trans (List.formPerm_pair first point)

theorem product_flatMap_transpositionsOfCycle (hnodup : ∀ cycle ∈ cycles, cycle.Nodup) :
    product (asCycles (cycles.flatMap transpositionsOfCycle)) = product cycles := by
  induction cycles with
  | nil => rfl
  | cons cycle cycles ih =>
      rw [List.forall_mem_cons] at hnodup
      rw [List.flatMap_cons, product_asCycles_append, product_transpositionsOfCycle hnodup.1,
        ih hnodup.2, product_cons]

/-- Going through transpositions in the other direction takes back what they do. -/
theorem product_reverse_asCycles (ts : List (Nat × Nat)) :
    product (asCycles ts).reverse = (product (asCycles ts))⁻¹ := by
  induction ts with
  | nil => rfl
  | cons t ts ih =>
      have hinv : ([t.1, t.2].formPerm)⁻¹ = [t.1, t.2].formPerm := by
        rw [List.formPerm_pair, Equiv.swap_inv]
      rw [asCycles, List.map_cons, List.reverse_cons, product_append, product_singleton,
        product_cons, mul_inv_rev, hinv]
      exact congrArg (· * _) ih

theorem mem_transpositionsOfCycle (hnodup : cycle.Nodup) (ht : t ∈ transpositionsOfCycle cycle) :
    t.1 ≠ t.2 ∧ t.1 ∈ cycle ∧ t.2 ∈ cycle := by
  cases cycle with
  | nil => exact absurd ht List.not_mem_nil
  | cons first rest =>
      obtain ⟨point, hpoint, rfl⟩ := List.mem_map.mp ht
      rw [List.mem_reverse] at hpoint
      refine ⟨?_, List.mem_cons_self, List.mem_cons_of_mem first hpoint⟩
      show first ≠ point
      rintro rfl
      exact (List.nodup_cons.mp hnodup).1 hpoint

/-- Every point of a cycle of several points is exchanged by one of its transpositions. -/
theorem exists_mem_transpositionsOfCycle {r : Nat} (hq : q ∈ cycle) (hr : r ∈ cycle) (hne : q ≠ r) :
    ∃ t ∈ transpositionsOfCycle cycle, t.1 = q ∨ t.2 = q := by
  cases cycle with
  | nil => exact absurd hq List.not_mem_nil
  | cons first rest =>
      have hmem {point : Nat} (hpoint : point ∈ rest) :
          (first, point) ∈ transpositionsOfCycle (first :: rest) :=
        List.mem_map.mpr ⟨point, List.mem_reverse.mpr hpoint, rfl⟩
      rcases List.mem_cons.mp hq with rfl | hlater
      · have hother := (List.mem_cons.mp hr).resolve_left hne.symm
        exact ⟨_, hmem hother, Or.inl rfl⟩
      · exact ⟨_, hmem hlater, Or.inr rfl⟩

theorem length_transpositionsOfCycle (hne : cycle ≠ []) :
    (transpositionsOfCycle cycle).length + 1 = cycle.length := by
  obtain ⟨first, rest, rfl⟩ := List.exists_cons_of_ne_nil hne
  rw [transpositionsOfCycle, List.length_map, List.length_reverse, List.length_cons]

theorem length_flatMap_transpositionsOfCycle (hne : ∀ cycle ∈ cycles, cycle ≠ []) :
    (cycles.flatMap transpositionsOfCycle).length + cycles.length = cycles.flatten.length := by
  induction cycles with
  | nil => rfl
  | cons cycle cycles ih =>
      rw [List.forall_mem_cons] at hne
      rw [List.flatMap_cons, List.length_append, List.length_cons, List.flatten_cons,
        List.length_append, ← length_transpositionsOfCycle hne.1, ← ih hne.2]
      omega

/-! ## Transpositions of a permutation -/

theorem On.nodup_of_mem_cycles (hp : p.On n) (hcycle : cycle ∈ p.cycles) : cycle.Nodup := by
  obtain ⟨a, rfl⟩ := hp.exists_cycleOf_eq hcycle
  exact nodup_cycleOf p a

theorem On.product_transpositions (hp : p.On n) :
    product (asCycles p.transpositions) = hp.points := by
  rw [transpositions, product_flatMap_transpositionsOfCycle fun _ => hp.nodup_of_mem_cycles,
    hp.product_cycles]

theorem On.mem_transpositions (hp : p.On n) (ht : t ∈ p.transpositions) :
    t.1 ≠ t.2 ∧ t.1 < n ∧ t.2 < n := by
  obtain ⟨cycle, hcycle, hmem⟩ := List.mem_flatMap.mp ht
  obtain ⟨hne, hfst, hsnd⟩ := mem_transpositionsOfCycle (hp.nodup_of_mem_cycles hcycle) hmem
  have hlt {q : Nat} (hq : q ∈ cycle) : q < n :=
    hp.mem_flatten_cycles.mp (List.mem_flatten.mpr ⟨cycle, hcycle, hq⟩)
  exact ⟨hne, hlt hfst, hlt hsnd⟩

/-- The points that are exchanged are those that move. -/
theorem On.exists_mem_transpositions_iff (hp : p.On n) :
    (∃ t ∈ p.transpositions, t.1 = q ∨ t.2 = q) ↔ p.act q ≠ q := by
  constructor
  · rintro ⟨t, ht, heither⟩ hfixed
    obtain ⟨cycle, hcycle, hmem⟩ := List.mem_flatMap.mp ht
    obtain ⟨hne, hfst, hsnd⟩ := mem_transpositionsOfCycle (hp.nodup_of_mem_cycles hcycle) hmem
    -- a fixed point is the only one of its cycle
    have hq : q ∈ cycle := by
      rcases heither with rfl | rfl
      · exact hfst
      · exact hsnd
    have halone {r : Nat} (hr : r ∈ cycle) : r = q := by
      obtain ⟨k, rfl⟩ := hp.mem_cycleOf.mp ((hp.mem_iff_of_mem_cycles hcycle hq).mp hr)
      exact Function.iterate_fixed hfixed k
    exact hne ((halone hfst).trans (halone hsnd).symm)
  · intro hmoved
    have hlt : q < n := Nat.lt_of_not_le fun hle => hmoved (hp.act_of_le hle)
    obtain ⟨cycle, hcycle, hq⟩ := List.mem_flatten.mp (hp.mem_flatten_cycles.mpr hlt)
    have hnext : p.act q ∈ cycle := by
      rw [hp.mem_iff_of_mem_cycles hcycle hq, hp.act_mem_cycleOf]
      exact hp.self_mem_cycleOf q
    obtain ⟨t, ht, heither⟩ := exists_mem_transpositionsOfCycle hq hnext hmoved.symm
    exact ⟨t, List.mem_flatMap.mpr ⟨cycle, hcycle, ht⟩, heither⟩

theorem On.length_transpositions (hp : p.On n) :
    p.transpositions.length + p.cycles.length = n := by
  rw [transpositions, length_flatMap_transpositionsOfCycle fun _ => hp.ne_nil_of_mem_cycles,
    hp.flatten_cycles_perm.length_eq, List.length_range]

/-! ## Recomposing -/

theorem On.nodup_of_mem_asCycles (hp : p.On n) (hcycle : cycle ∈ asCycles p.transpositions) :
    cycle.Nodup := by
  obtain ⟨t, ht, rfl⟩ := List.mem_map.mp hcycle
  simpa using (hp.mem_transpositions ht).1

theorem On.lt_of_mem_asCycles (hp : p.On n) {a : Nat}
    (ha : a ∈ (asCycles p.transpositions).flatten) : a < n := by
  obtain ⟨cycle, hcycle, ha⟩ := List.mem_flatten.mp ha
  obtain ⟨t, ht, rfl⟩ := List.mem_map.mp hcycle
  obtain ⟨-, hfst, hsnd⟩ := hp.mem_transpositions ht
  rcases List.mem_pair.mp ha with rfl | rfl
  · exact hfst
  · exact hsnd

/-- The transpositions of a valid permutation exchange two different points each, there are as many
    as there are points more than cycles, and applied one after another, the last one first, they
    give the permutation back with a symmetric sign.  Applied the first one first, they give its
    inverse. -/
theorem transpositions_recompose {p : SignedPerm} (hp : p.Valid) :
    (∀ t ∈ p.transpositions, t.1 ≠ t.2 ∧ t.1 < p.degree ∧ t.2 < p.degree)
      ∧ p.transpositions.length = p.degree - p.cycles.length
      ∧ p.cycles.length ≤ p.degree
      ∧ ofCycles p.degree (p.transpositions.map fun t => [t.1, t.2]) .lastFirst
        = .ok (p.withFlips false)
      ∧ ofCycles p.degree (p.transpositions.map fun t => [t.1, t.2]) .firstFirst
        = .ok (p.inverse.withFlips false) := by
  have hon : p.On p.degree := ⟨hp, rfl⟩
  have hlength := hon.length_transpositions
  have hreadable : (∀ a ∈ (asCycles p.transpositions).flatten, a < p.degree)
      ∧ ∀ cycle ∈ asCycles p.transpositions, cycle.Nodup :=
    ⟨fun _ => hon.lt_of_mem_asCycles, fun _ => hon.nodup_of_mem_asCycles⟩
  refine ⟨fun t => hon.mem_transpositions, by omega, by omega, ?_, ?_⟩
  · refine ofCycles_eq_ok_iff.mpr ⟨hreadable, ?_⟩
    rw [CycleOrder.arrange, List.reverse_reverse]
    exact hon.product_transpositions ▸ hon.actsAs
  · refine ofCycles_eq_ok_iff.mpr ⟨hreadable, ?_⟩
    refine (product_reverse_asCycles p.transpositions).symm ▸ ?_
    exact hon.product_transpositions ▸ hon.actsAs.inverse

/-- A rotation of three of five points, which reading in the wrong direction would turn round. -/
theorem transpositions_recompose_rotation :
    ∃ p, p = ofImage #[2, 0, 1, 4, 3] true ∧ p.transpositions.length = 3
      ∧ ofCycles 5 (p.transpositions.map fun t => [t.1, t.2]) .lastFirst = .ok (p.withFlips false)
      ∧ ofCycles 5 (p.transpositions.map fun t => [t.1, t.2]) .firstFirst
        = .ok (p.inverse.withFlips false)
      ∧ p.inverse.withFlips false ≠ p.withFlips false := by
  obtain ⟨-, hlength, -, hlast, hfirst⟩ :=
    transpositions_recompose (p := ofImage #[2, 0, 1, 4, 3] true) (by decide +kernel)
  exact ⟨_, rfl, hlength.trans (by decide +kernel), hlast, hfirst, by decide +kernel⟩

end SignedPerm

end SlotSymmetry
