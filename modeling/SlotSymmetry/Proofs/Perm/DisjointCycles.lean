import SlotSymmetry.Proofs.Perm.GivenCycles

/-! # Disjoint cycles

    A permutation is written as its cycles and read back from them.  Read from a
    list, disjoint cycles of points make a permutation that moves the points like
    their product (`ofDisjointCycles_eq_ok_iff`), and a valid permutation moves
    them like the product of its own cycles, so it comes back up to its sign.
    Written again, the permutation of a list of cycles has those of them that
    have a point, each from its smallest point on, and a cycle for every point
    that was left out, in the order of their first points
    (`ActsAs.cycles_eq_byFirst`). -/

namespace SlotSymmetry

open Function (minimalPeriod IsPeriodicPt)

/-! ## Order of the cycles -/

/-- The cycles in ascending order of their first points. -/
def byFirst (cycles : List (List Nat)) : List (List Nat) :=
  cycles.mergeSort fun c d => decide (c.headD 0 ≤ d.headD 0)

theorem Classes.headD_eq {n : Nat} {cls : Nat → List Nat} (h : Classes n cls) {a : Nat}
    (ha : a ∈ leading n cls) : (cls a).headD 0 = a := by
  rw [List.headD_eq_head?_getD, h.head (mem_leading.mp ha).1, Option.getD_some]

/-- Classes that are listed in any order are put in the order of their smallest points. -/
theorem Classes.listed_eq_byFirst {n : Nat} {cls : Nat → List Nat} (h : Classes n cls)
    {lists : List (List Nat)} (hperm : lists.Perm (listed n cls)) :
    listed n cls = byFirst lists := by
  have hsorted : (byFirst lists).Pairwise fun c d => decide (c.headD 0 ≤ d.headD 0) = true := by
    refine List.pairwise_mergeSort ?_ ?_ lists
    · simp only [decide_eq_true_eq]
      omega
    · simp only [Bool.or_eq_true, decide_eq_true_eq]
      omega
  refine List.Perm.eq_of_pairwise ?_ ?_ hsorted (hperm.symm.trans (List.mergeSort_perm _ _).symm)
  · -- two classes with the same smallest point are one
    intro c d hc hd hcd hdc
    obtain ⟨a, ha, rfl⟩ := mem_listed.mp hc
    obtain ⟨b, hb, rfl⟩ := mem_listed.mp (hperm.mem_iff.mp (List.mem_mergeSort.mp hd))
    rw [decide_eq_true_eq, h.headD_eq ha, h.headD_eq hb] at hcd hdc
    rw [Nat.le_antisymm hcd hdc]
  · rw [listed, List.pairwise_map]
    refine (pairwise_leading n cls).imp_of_mem fun ha hb hlt => ?_
    rw [h.headD_eq ha, h.headD_eq hb]
    exact decide_eq_true (Nat.le_of_lt hlt)

namespace SignedPerm

variable {n : Nat} {p : SignedPerm} {cycle : List Nat} {cycles : List (List Nat)} {a q : Nat}

/-! ## Cycles that are read -/

theorem firstFault_eq_none_iff (points : List Nat) : ∀ earlier : List Nat,
    firstFault n earlier points = none
      ↔ points.Nodup ∧ ∀ a ∈ points, a < n ∧ a ∉ earlier := by
  induction points with
  | nil => simp [firstFault]
  | cons a points ih =>
      intro earlier
      rw [firstFault, List.nodup_cons, List.forall_mem_cons]
      split_ifs with hrange hearlier
      · exact iff_of_false nofun fun h => Nat.not_lt.mpr hrange h.2.1.1
      · exact iff_of_false nofun fun h => h.2.1.2 hearlier
      · rw [ih]
        simp only [List.mem_cons, not_or]
        grind

theorem ofDisjointCycles_eq_ok_iff : ofDisjointCycles n cycles = .ok p
    ↔ (cycles.flatten.Nodup ∧ ∀ a ∈ cycles.flatten, a < n) ∧ p.ActsAs n (product cycles) := by
  have hfault := firstFault_eq_none_iff (n := n) cycles.flatten []
  simp only [List.not_mem_nil, not_false_eq_true, and_true] at hfault
  rw [← hfault, ofDisjointCycles]
  split
  · next fault hsome => simp [hsome]
  · next hnone =>
      obtain ⟨hnodup, hlt⟩ := hfault.mp hnone
      have hacts := ofImage_actsAs hnodup hlt
      constructor
      · rintro ⟨⟩
        exact ⟨hnone, hacts⟩
      · rintro ⟨-, hp⟩
        rw [hp.eq hacts]

theorem exists_ofDisjointCycles_iff : (∃ p, ofDisjointCycles n cycles = .ok p)
    ↔ cycles.flatten.Nodup ∧ ∀ a ∈ cycles.flatten, a < n := by
  simp only [ofDisjointCycles_eq_ok_iff]
  exact ⟨fun ⟨_, h, _⟩ => h, fun h => ⟨_, h, ofImage_actsAs h.1 h.2⟩⟩

/-! ## Cycles that are written -/

/-- A cycle lists successive images, and the image of its last point is its first one. -/
theorem getElem_cycleOf_succ (p : SignedPerm) (a : Nat) {i : Nat}
    (hi : i < (p.cycleOf a).length) :
    (p.cycleOf a)[(i + 1) % (p.cycleOf a).length]? = some (p.act (p.cycleOf a)[i]) := by
  have hpos : 0 < (p.cycleOf a).length := Nat.zero_lt_of_lt hi
  rw [List.getElem?_eq_getElem (Nat.mod_lt _ hpos)]
  simp only [cycleOf, List.getElem_iterate, List.length_iterate]
  rw [Function.iterate_mod_minimalPeriod_eq, Function.iterate_succ_apply']

theorem formPerm_cycleOf (hq : q ∈ p.cycleOf a) :
    (p.cycleOf a).formPerm q = p.act q := by
  obtain ⟨i, hi, rfl⟩ := List.getElem_of_mem hq
  have hnext := getElem_cycleOf_succ p a hi
  rw [List.getElem?_eq_some_iff] at hnext
  rw [List.formPerm_apply_getElem _ (nodup_cycleOf p a), hnext.2]

/-- A permutation moves the points like the product of its cycles. -/
theorem On.product_cycles (hp : p.On n) : product p.cycles = hp.points := by
  refine Equiv.ext fun q => ?_
  by_cases hq : q ∈ p.cycles.flatten
  · obtain ⟨cycle, hcycle, hmem⟩ := List.mem_flatten.mp hq
    rw [product_of_mem hp.nodup_flatten_cycles hcycle hmem]
    obtain ⟨a, rfl⟩ := hp.exists_cycleOf_eq hcycle
    exact formPerm_cycleOf hmem
  · rw [product_of_not_mem hq]
    exact (hp.act_of_le (Nat.not_lt.mp (mt hp.mem_flatten_cycles.mpr hq))).symm

theorem On.ofDisjointCycles_cycles (hp : p.On n) :
    ofDisjointCycles n p.cycles = .ok (p.withFlips false) := by
  rw [ofDisjointCycles_eq_ok_iff, hp.product_cycles]
  exact ⟨⟨hp.nodup_flatten_cycles, fun a => hp.mem_flatten_cycles.mp⟩, hp.actsAs⟩

/-! ## Cycles that are read and written again -/

/-- The cycle from its smallest point on. -/
def leastFirst (cycle : List Nat) : List Nat := cycle.rotate (cycle.idxOf (cycle.min?.getD 0))

/-- The cycles that have a point, each from its smallest point on, and one for every point of
    `0..n` that is on none of them. -/
def completed (n : Nat) (cycles : List (List Nat)) : List (List Nat) :=
  (cycles.filter fun cycle => !cycle.isEmpty).map leastFirst
    ++ ((List.range n).filter (· ∉ cycles.flatten)).map ([·])

/-- Going on from a point of a given cycle leads through the places after it. -/
theorem ActsAs.iterate_eq (h : p.ActsAs n (product cycles)) (hnodup : cycles.flatten.Nodup)
    (hcycle : cycle ∈ cycles) {k : Nat} (hk : k < cycle.length) (j : Nat) :
    p.act^[j] cycle[k] = cycle.get ⟨(k + j) % cycle.length, Nat.mod_lt _ (by omega)⟩ := by
  have hcyclic := (List.nodup_flatten.mp hnodup).1 cycle hcycle
  induction j with
  | zero => simp only [Nat.add_zero, Nat.mod_eq_of_lt hk, Function.iterate_zero, id_eq,
      List.get_eq_getElem]
  | succ j ih =>
      rw [Function.iterate_succ_apply', ih, h.act, product_of_mem hnodup hcycle (List.get_mem _ _),
        List.get_eq_getElem, List.formPerm_apply_getElem _ hcyclic]
      simp only [Nat.mod_add_mod, Nat.add_assoc, List.get_eq_getElem]

/-- The period of a point of a given cycle is the number of its points. -/
theorem ActsAs.minimalPeriod_eq (h : p.ActsAs n (product cycles)) (hnodup : cycles.flatten.Nodup)
    (hcycle : cycle ∈ cycles) {k : Nat} (hk : k < cycle.length) :
    minimalPeriod p.act cycle[k] = cycle.length := by
  have hcyclic := (List.nodup_flatten.mp hnodup).1 cycle hcycle
  have hperiodic : ∀ j, IsPeriodicPt p.act j cycle[k] ↔ cycle.length ∣ j := by
    intro j
    rw [IsPeriodicPt, Function.IsFixedPt, h.iterate_eq hnodup hcycle hk, List.get_eq_getElem,
      hcyclic.getElem_inj_iff]
    show (k + j) % cycle.length = k ↔ cycle.length ∣ j
    nth_rewrite 2 [← Nat.mod_eq_of_lt hk]
    exact Nat.add_modEq_left_iff
  refine Nat.dvd_antisymm ?_ ((hperiodic _).mp (Function.isPeriodicPt_minimalPeriod _ _))
  exact ((hperiodic _).mpr (Nat.dvd_refl _)).minimalPeriod_dvd

/-- The cycle of a point of a given cycle is this one from the point on. -/
theorem ActsAs.cycleOf_of_mem (h : p.ActsAs n (product cycles)) (hnodup : cycles.flatten.Nodup)
    (hcycle : cycle ∈ cycles) (ha : a ∈ cycle) :
    p.cycleOf a = cycle.rotate (cycle.idxOf a) := by
  have hcyclic := (List.nodup_flatten.mp hnodup).1 cycle hcycle
  obtain ⟨k, hk, rfl⟩ := List.getElem_of_mem ha
  rw [hcyclic.idxOf_getElem k hk]
  refine List.ext_getElem ?_ fun j hj _ => ?_
  · rw [length_cycleOf, h.minimalPeriod_eq hnodup hcycle hk, List.length_rotate]
  · simp only [cycleOf, List.getElem_iterate, List.getElem_rotate, Nat.add_comm j,
      h.iterate_eq hnodup hcycle hk, List.get_eq_getElem]

theorem ActsAs.cycleOf_of_not_mem (h : p.ActsAs n (product cycles)) (ha : a ∉ cycles.flatten) :
    p.cycleOf a = [a] := by
  have hfixed : Function.IsFixedPt p.act a := (h.act a).trans (product_of_not_mem ha)
  rw [cycleOf, Function.minimalPeriod_eq_one_iff_isFixedPt.mpr hfixed]
  rfl

theorem ActsAs.cycleOf_min (h : p.ActsAs n (product cycles)) (hnodup : cycles.flatten.Nodup)
    (hcycle : cycle ∈ cycles) (ha : cycle.min? = some a) : p.cycleOf a = leastFirst cycle := by
  rw [h.cycleOf_of_mem hnodup hcycle (List.min?_mem ha), leastFirst, ha, Option.getD_some]

/-- The completed cycles are the cycles of the points that are the smallest ones of theirs. -/
theorem ActsAs.mem_completed_iff (h : p.ActsAs n (product cycles)) (hnodup : cycles.flatten.Nodup)
    (hlt : ∀ a ∈ cycles.flatten, a < n) {c : List Nat} :
    c ∈ completed n cycles ↔ c ∈ listed n p.cycleOf := by
  rw [Classes.mem_listed]
  simp only [Classes.mem_leading, completed, List.mem_append, List.mem_map, List.mem_filter,
    List.mem_range, decide_eq_true_eq]
  constructor
  · rintro (⟨cycle, ⟨hcycle, hne⟩, rfl⟩ | ⟨a, ⟨ha, hout⟩, rfl⟩)
    · obtain ⟨a, ha⟩ := Option.isSome_iff_exists.mp
        (List.isSome_min?_iff.mpr (by simpa using hne : cycle ≠ []))
      obtain ⟨hmem, hleast⟩ := List.min?_eq_some_iff.mp ha
      refine ⟨a, ⟨hlt a (List.mem_flatten.mpr ⟨cycle, hcycle, hmem⟩), ?_⟩,
        h.cycleOf_min hnodup hcycle ha⟩
      rw [h.cycleOf_min hnodup hcycle ha]
      exact fun q hq => hleast q (List.mem_rotate.mp hq)
    · refine ⟨a, ⟨ha, ?_⟩, h.cycleOf_of_not_mem hout⟩
      rw [h.cycleOf_of_not_mem hout]
      exact fun q hq => (List.mem_singleton.mp hq).ge
  · rintro ⟨a, ⟨ha, hleast⟩, rfl⟩
    by_cases hmem : a ∈ cycles.flatten
    · obtain ⟨cycle, hcycle, hac⟩ := List.mem_flatten.mp hmem
      have hmin : cycle.min? = some a := by
        refine List.min?_eq_some_iff.mpr ⟨hac, fun q hq => hleast q ?_⟩
        rw [h.cycleOf_of_mem hnodup hcycle hac]
        exact List.mem_rotate.mpr hq
      refine Or.inl ⟨cycle, ⟨hcycle, ?_⟩, (h.cycleOf_min hnodup hcycle hmin).symm⟩
      simpa using List.ne_nil_of_mem hac
    · exact Or.inr ⟨a, ⟨ha, hmem⟩, (h.cycleOf_of_not_mem hmem).symm⟩

/-- Disjoint lists that have a point are different ones. -/
theorem nodup_of_nodup_flatten (hne : ∀ cycle ∈ cycles, cycle ≠ [])
    (hnodup : cycles.flatten.Nodup) : cycles.Nodup := by
  refine (List.nodup_flatten.mp hnodup).2.imp_of_mem ?_
  rintro c d hc - hdisjoint rfl
  obtain ⟨a, ha⟩ := List.exists_mem_of_ne_nil c (hne c hc)
  exact hdisjoint ha ha

theorem flatten_completed_perm (n : Nat) (cycles : List (List Nat)) :
    (completed n cycles).flatten.Perm
      (cycles.flatten ++ (List.range n).filter (· ∉ cycles.flatten)) := by
  rw [completed, List.flatten_append, ← List.flatten_filter_not_isEmpty (L := cycles)]
  refine List.Perm.append ?_ (by rw [← List.flatMap_def, List.flatMap_singleton'])
  refine List.Perm.flatten_congr (List.forall₂_map_left_iff.mpr (List.forall₂_same.mpr ?_))
  exact fun cycle _ => List.rotate_perm cycle _

theorem nodup_completed (n : Nat) (hnodup : cycles.flatten.Nodup) :
    (completed n cycles).Nodup := by
  refine nodup_of_nodup_flatten ?_ ((flatten_completed_perm n cycles).nodup_iff.mpr ?_)
  · intro c hc
    simp only [completed, List.mem_append, List.mem_map, List.mem_filter] at hc
    rcases hc with ⟨cycle, ⟨-, hne⟩, rfl⟩ | ⟨a, -, rfl⟩
    · rw [leastFirst, ne_eq, List.rotate_eq_nil_iff]
      simpa using hne
    · exact List.cons_ne_nil a []
  · refine List.nodup_append'.mpr ⟨hnodup, List.nodup_range.filter _, fun a ha hout => ?_⟩
    exact of_decide_eq_true (List.mem_filter.mp hout).2 ha

/-- The cycles of the permutation of a list of disjoint cycles are the completed ones. -/
theorem ActsAs.cycles_eq_byFirst (h : p.ActsAs n (product cycles)) (hnodup : cycles.flatten.Nodup)
    (hlt : ∀ a ∈ cycles.flatten, a < n) : p.cycles = byFirst (completed n cycles) := by
  have hcycles : p.cycles.Nodup :=
    nodup_of_nodup_flatten (fun _ => h.on.ne_nil_of_mem_cycles) h.on.nodup_flatten_cycles
  rw [h.on.cycles_eq_listed] at hcycles ⊢
  refine h.on.classes.listed_eq_byFirst ?_
  rw [List.perm_ext_iff_of_nodup (nodup_completed n hnodup) hcycles]
  exact fun c => h.mem_completed_iff hnodup hlt

/-! ## Writing and reading -/

/-- The cycles of a valid permutation contain every point once, start with their smallest points,
    list successive images and come in the order of their first points, and reading them gives the
    permutation back with a symmetric sign.  A list of cycles can be read exactly if they are
    disjoint cycles of points below `n`, and then the cycles of the permutation that is read are
    the given ones that have a point, each from its smallest point on, and one for every point that
    is not mentioned. -/
theorem cycles_round_trip (n : Nat) :
    (∀ p : SignedPerm, p.Valid → p.degree = n →
      p.cycles.flatten.Perm (List.range n)
        ∧ (∀ cycle ∈ p.cycles, cycle.head? = cycle.min?
          ∧ ∀ i (hi : i < cycle.length), cycle[(i + 1) % cycle.length]? = some (p.act cycle[i]))
        ∧ (∃ firsts : List Nat, p.cycles.map List.head? = firsts.map some
          ∧ firsts.Pairwise (· < ·))
        ∧ ofDisjointCycles n p.cycles = .ok (p.withFlips false))
      ∧ ∀ cycles : List (List Nat),
        ((∃ p, ofDisjointCycles n cycles = .ok p)
          ↔ cycles.flatten.Nodup ∧ ∀ a ∈ cycles.flatten, a < n)
        ∧ ∀ p, ofDisjointCycles n cycles = .ok p →
          p.On n ∧ p.flips = false ∧ p.cycles = byFirst (completed n cycles) := by
  constructor
  · intro p hvalid hdegree
    have hp : p.On n := ⟨hvalid, hdegree⟩
    refine ⟨hp.flatten_cycles_perm, ?_, ?_, hp.ofDisjointCycles_cycles⟩
    · intro cycle hcycle
      refine ⟨hp.classes.head_eq_min (hp.cycles_eq_listed ▸ hcycle), fun i hi => ?_⟩
      obtain ⟨a, rfl⟩ := hp.exists_cycleOf_eq hcycle
      exact getElem_cycleOf_succ p a hi
    · rw [hp.cycles_eq_listed]
      exact ⟨_, hp.classes.map_head_listed, Classes.pairwise_leading _ _⟩
  · intro cycles
    refine ⟨exists_ofDisjointCycles_iff, fun p hp => ?_⟩
    obtain ⟨⟨hnodup, hlt⟩, hacts⟩ := ofDisjointCycles_eq_ok_iff.mp hp
    exact ⟨hacts.on, hacts.symmetric, hacts.cycles_eq_byFirst hnodup hlt⟩

/-- Cycles that start anywhere, one of them without a point, and two points left out. -/
theorem cycles_round_trip_six :
    ∃ p, ofDisjointCycles 6 [[3, 1], [], [5, 2, 4]] = .ok p
      ∧ p.cycles = [[0], [1, 3], [2, 4, 5]]
      ∧ ofDisjointCycles 6 p.cycles = .ok p := by
  obtain ⟨hwritten, hread⟩ := cycles_round_trip 6
  obtain ⟨p, hp⟩ := (hread [[3, 1], [], [5, 2, 4]]).1.mpr (by decide)
  obtain ⟨hon, hflips, hcycles⟩ := (hread _).2 p hp
  obtain ⟨-, -, -, hback⟩ := hwritten p hon.valid hon.degree_eq
  refine ⟨p, hp, hcycles.trans (by cbv), hback.trans ?_⟩
  rw [withFlips, ← hflips]

end SignedPerm

end SlotSymmetry
