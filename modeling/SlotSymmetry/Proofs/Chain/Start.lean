import SlotSymmetry.Proofs.Chain.Stack

/-! # The base to start from

    The generators are checked, and those that move no point are left out; they
    are the identity.  The base is extended by points that some generator moves
    while it fixes all points before, until every generator moves one (`Based`).
    So the levels start with exactly the generators that fix the earlier base
    points, and all of them at the first level. -/

namespace SlotSymmetry

/-- Both parts of a computation that ended well did. -/
theorem exists_of_bind_ok {α β : Type} {x : Except GroupError α} {f : α → Except GroupError β}
    {b : β} (h : (x >>= f) = .ok b) : ∃ a, x = .ok a ∧ f a = .ok b := by
  cases x with
  | error e => exact nomatch h
  | ok a => exact ⟨a, rfl, h⟩

/-- The same for a check, which has no value. -/
theorem of_check_ok {β : Type} {x : Except GroupError Unit} {f : Unit → Except GroupError β}
    {b : β} (h : (x >>= f) = .ok b) : x = .ok () ∧ f () = .ok b := by
  cases x with
  | error e => exact nomatch h
  | ok a => exact ⟨rfl, h⟩

namespace Chain

variable {n : Nat} {gens : List SignedPerm}

/-! ## The checks -/

theorem startingBase_eq {wanted : List Nat} (h : ∀ b ∈ wanted, b < n) :
    startingBase n wanted = .ok wanted.eraseDups := by
  rw [startingBase, SignedPerm.find_outside_eq_none h]

/-- Valid generators pass unless one of them is the antisymmetric identity. -/
theorem forM_admissible (hgens : ∀ g ∈ gens, g.On n) :
    ((∃ g ∈ gens, g.isInconsistent = true)
        ∧ gens.forM (admissible n) = .error .inconsistentGenerators)
      ∨ ((∀ g ∈ gens, g.isInconsistent = false) ∧ gens.forM (admissible n) = .ok ()) := by
  induction gens with
  | nil => exact Or.inr ⟨nofun, rfl⟩
  | cons g gens ih =>
      obtain ⟨hg, hrest⟩ := List.forall_mem_cons.mp hgens
      have hdegree : ¬ g.degree ≠ n := not_not.mpr hg.degree_eq
      have hstep : (g :: gens).forM (admissible n)
          = (admissible n g >>= fun _ => gens.forM (admissible n)) := rfl
      rw [hstep, admissible, if_neg hdegree]
      cases hbad : g.isInconsistent with
      | true => exact Or.inl ⟨⟨g, List.mem_cons_self, hbad⟩, rfl⟩
      | false =>
          rcases ih hrest with ⟨⟨g', hg', hbad'⟩, herr⟩ | ⟨hall, hok⟩
          · exact Or.inl ⟨⟨g', List.mem_cons_of_mem _ hg', hbad'⟩, herr⟩
          · exact Or.inr ⟨List.forall_mem_cons.mpr ⟨hbad, hall⟩, hok⟩

theorem degree_of_forM_admissible (h : gens.forM (admissible n) = .ok ()) :
    ∀ g ∈ gens, g.degree = n := by
  induction gens with
  | nil => exact nofun
  | cons g gens ih =>
      obtain ⟨hg, hrest⟩ := of_check_ok h
      refine List.forall_mem_cons.mpr ⟨?_, ih hrest⟩
      by_contra hne
      rw [admissible, if_pos hne] at hg
      cases hg

/-- A chain is only built on generators of its degree, over wanted points below it. -/
theorem inputs_of_ok {wanted : List Nat} {c : Chain}
    (h : buildWithBase n gens wanted = .ok c) :
    (∀ b ∈ wanted, b < n) ∧ ∀ g ∈ gens, g.degree = n := by
  obtain ⟨base, hbase, h⟩ := exists_of_bind_ok h
  obtain ⟨hgens, -⟩ := of_check_ok h
  refine ⟨fun b hb => ?_, degree_of_forM_admissible hgens⟩
  by_contra hge
  rw [startingBase] at hbase
  cases hfind : wanted.find? (n ≤ ·) with
  | some point =>
      rw [hfind] at hbase
      cases hbase
  | none =>
      have hnot := List.find?_eq_none.mp hfind b hb
      exact hnot (decide_eq_true (Nat.le_of_not_lt hge))

theorem mem_moving {g : SignedPerm} : g ∈ moving gens ↔ g ∈ gens ∧ g.isIdentity = false := by
  rw [moving, SignedPerm.mem_distinct, List.mem_filter]
  simp

/-- The generators that are left out are the identity. -/
theorem span_moving (hgood : ∀ g ∈ gens, g.isInconsistent = false) :
    Signed.span n (moving gens) = Signed.span n gens := by
  refine le_antisymm (span_mono fun g hg => (mem_moving.mp hg).1) (span_le.mpr ?_)
  intro g hg
  cases hfix : g.val.isIdentity with
  | false => exact mem_span_of_mem g.on (mem_moving.mpr ⟨hg, hfix⟩)
  | true =>
      have hsign : g.val.flips = false := by
        have := hgood _ hg
        rwa [SignedPerm.isInconsistent, hfix, Bool.and_true] at this
      rw [Signed.eq_one_of_isIdentity hfix hsign]
      exact Subgroup.one_mem _

/-! ## Extending the base -/

theorem fixesAll_iff {g : SignedPerm} {points : List Nat} :
    fixesAll g points = true ↔ ∀ b ∈ points, g.act b = b := by
  rw [fixesAll, List.all_eq_true]
  simp

/-- A base that starts with the wanted points and goes on with points that some generator
    moves while it fixes all points before. -/
structure Based (n : Nat) (gens : List SignedPerm) (wanted base : List Nat) : Prop where
  starts : wanted <+: base
  nodup : base.Nodup
  lt : ∀ b ∈ base, b < n
  earned : ∀ j b : Nat, wanted.length ≤ j → base[j]? = some b →
    ∃ g ∈ gens, fixesAll g (base.take j) = true ∧ g.act b ≠ b

variable {wanted base : List Nat}

theorem Based.concat (h : Based n gens wanted base) {g : SignedPerm} (hg : g ∈ gens) {b : Nat}
    (hb : b < n) (hfix : fixesAll g base = true) (hmoves : g.act b ≠ b) :
    Based n gens wanted (base ++ [b]) := by
  have hnew : b ∉ base := fun hmem => hmoves (fixesAll_iff.mp hfix b hmem)
  refine ⟨h.starts.trans (List.prefix_append _ _), ?_, ?_, ?_⟩
  · rw [← List.concat_eq_append]
    exact h.nodup.concat hnew
  · intro b' hb'
    rcases List.mem_append.mp hb' with hb' | hb'
    · exact h.lt b' hb'
    · rw [List.mem_singleton.mp hb']
      exact hb
  · -- the points before a place stay the same, whether the place is old or the new one
    intro j b' hj hb'
    rcases Nat.lt_or_ge j base.length with hlt | hge
    · rw [List.getElem?_append_left hlt] at hb'
      rw [List.take_append_of_le_length (Nat.le_of_lt hlt)]
      exact h.earned j b' hj hb'
    · have hjeq : j = base.length := by
        have := (List.getElem?_eq_some_iff.mp hb').1
        rw [List.length_append, List.length_singleton] at this
        omega
      subst hjeq
      obtain rfl : b = b' := by simpa using hb'
      exact ⟨g, hg, by rwa [List.take_left], hmoves⟩

theorem Based.extend (h : Based n gens wanted base) {g : SignedPerm} (hg : g ∈ gens)
    (hon : g.On n) : Based n gens wanted (extendBase base g) := by
  rw [extendBase]
  split
  · rename_i hfix
    cases hpoint : g.firstMoved with
    | none =>
        rw [Option.toList_none, List.append_nil]
        exact h
    | some b =>
        have hb : b < n := hon.degree_eq ▸ SignedPerm.lt_of_firstMoved hpoint
        exact h.concat hg hb hfix (SignedPerm.act_ne_of_firstMoved hpoint)
  · exact h

theorem prefix_extendBase (base : List Nat) (g : SignedPerm) : base <+: extendBase base g := by
  rw [extendBase]
  split
  · exact List.prefix_append _ _
  · exact List.prefix_rfl

theorem fixesAll_extendBase {g : SignedPerm} (hmoves : g.isIdentity = false) (base : List Nat) :
    fixesAll g (extendBase base g) = false := by
  rw [extendBase]
  split
  · cases hpoint : g.firstMoved with
    | none =>
        rw [SignedPerm.firstMoved_eq_none_iff.mp hpoint] at hmoves
        exact nomatch hmoves
    | some b =>
        refine Bool.eq_false_iff.mpr fun hfix => ?_
        refine SignedPerm.act_ne_of_firstMoved hpoint (fixesAll_iff.mp hfix b ?_)
        exact List.mem_append_right _ (List.mem_singleton_self b)
  · rename_i hfix
    exact Bool.eq_false_iff.mpr hfix

theorem fixesAll_of_prefix {g : SignedPerm} {base base' : List Nat} (hstart : base <+: base')
    (h : fixesAll g base' = true) : fixesAll g base = true :=
  fixesAll_iff.mpr fun b hb => fixesAll_iff.mp h b (hstart.subset hb)

/-- Going through some of the generators, each of them is left with a point that it moves. -/
theorem foldl_extendBase (hgens : ∀ g ∈ gens, g.On n) (todo : List SignedPerm) :
    ∀ base : List Nat, (∀ g ∈ todo, g ∈ gens) → Based n gens wanted base →
      base <+: todo.foldl extendBase base
        ∧ Based n gens wanted (todo.foldl extendBase base)
        ∧ ∀ g ∈ todo, g.isIdentity = false → fixesAll g (todo.foldl extendBase base) = false := by
  induction todo with
  | nil => exact fun base _ hbased => ⟨List.prefix_rfl, hbased, nofun⟩
  | cons g todo ih =>
      -- later extensions keep the point that `g` moves
      intro base htodo hbased
      obtain ⟨hg, hrest⟩ := List.forall_mem_cons.mp htodo
      obtain ⟨hstart, hbased', hmoved⟩ := ih _ hrest (hbased.extend hg (hgens g hg))
      refine ⟨(prefix_extendBase base g).trans hstart, hbased', ?_⟩
      refine List.forall_mem_cons.mpr ⟨?_, hmoved⟩
      intro hmoves
      refine Bool.eq_false_iff.mpr fun hfix => ?_
      have := fixesAll_of_prefix hstart hfix
      rw [fixesAll_extendBase hmoves] at this
      exact nomatch this

/-- The base before any generator has extended it. -/
theorem based_start (hgens : ∀ g ∈ gens, g.On n) (hnodup : wanted.Nodup)
    (hlt : ∀ b ∈ wanted, b < n) :
    Based n gens wanted
      (if wanted.isEmpty then (gens.filterMap (·.firstMoved)).min?.toList else wanted) := by
  have hself : Based n gens wanted wanted := by
    refine ⟨List.prefix_rfl, hnodup, hlt, ?_⟩
    intro j b hj hb
    exact absurd (List.getElem?_eq_some_iff.mp hb).1 (Nat.not_lt.mpr hj)
  split
  · rename_i hempty
    obtain rfl := List.isEmpty_iff.mp hempty
    cases hmin : (gens.filterMap (·.firstMoved)).min? with
    | none => exact hself
    | some b =>
        obtain ⟨g, hg, hpoint⟩ := List.mem_filterMap.mp (List.min?_mem hmin)
        have hb : b < n := (hgens g hg).degree_eq ▸ SignedPerm.lt_of_firstMoved hpoint
        exact hself.concat hg hb rfl (SignedPerm.act_ne_of_firstMoved hpoint)
  · exact hself

theorem movedBase_based (hgens : ∀ g ∈ gens, g.On n) (hnodup : wanted.Nodup)
    (hlt : ∀ b ∈ wanted, b < n) : Based n gens wanted (movedBase wanted gens) :=
  (foldl_extendBase hgens gens _ (fun _ hg => hg) (based_start hgens hnodup hlt)).2.1

theorem fixesAll_movedBase (hgens : ∀ g ∈ gens, g.On n) (hnodup : wanted.Nodup)
    (hlt : ∀ b ∈ wanted, b < n) {g : SignedPerm} (hg : g ∈ gens) (hmoves : g.isIdentity = false) :
    fixesAll g (movedBase wanted gens) = false :=
  (foldl_extendBase hgens gens _ (fun _ hg => hg) (based_start hgens hnodup hlt)).2.2 g hg hmoves

/-! ## The levels to start from -/

theorem getElem?_startingLevels (points : List Nat) : ∀ (earlier : List Nat) (j : Nat),
    (startingLevels n gens earlier points)[j]? = points[j]?.map fun b =>
      Level.ofGenerators n (gens.filter (fixesAll · (earlier ++ points.take j))) b := by
  induction points with
  | nil => exact fun _ _ => rfl
  | cons b points ih =>
      intro earlier j
      cases j with
      | zero =>
          rw [List.take_zero, List.append_nil]
          rfl
      | succ j =>
          rw [List.getElem?_cons_succ, List.take_succ_cons, List.append_cons]
          exact ih (earlier ++ [b]) j

/-- The level that stands at a place at the start. -/
theorem exists_of_startingLevels {base : List Nat} {j : Nat} {level : Level}
    (hlevel : (startingLevels n gens [] base)[j]? = some level) :
    ∃ b, base[j]? = some b
      ∧ level = .ofGenerators n (gens.filter (fixesAll · (base.take j))) b := by
  rw [getElem?_startingLevels, List.nil_append] at hlevel
  obtain ⟨b, hb, heq⟩ := Option.map_eq_some_iff.mp hlevel
  exact ⟨b, hb, heq.symm⟩

/-- All generators stand at the first level. -/
theorem startingLevels_top (hmoved : ∀ g ∈ gens, fixesAll g base = false) :
    topGroup n (startingLevels n gens [] base) = Signed.span n gens := by
  cases base with
  | nil =>
      have hnil : gens = [] := by
        refine List.eq_nil_iff_forall_not_mem.mpr fun g hg => ?_
        exact nomatch hmoved g hg
      rw [hnil, span_nil]
      rfl
  | cons b points =>
      have hall : gens.filter (fixesAll · []) = gens :=
        List.filter_eq_self.mpr fun g _ => rfl
      show Signed.span n (gens.filter (fixesAll · [])) = Signed.span n gens
      rw [hall]

section Levels

variable (hgens : ∀ g ∈ gens, g.On n) (hbased : Based n gens wanted base)
include hbased

theorem basePoint_startingLevel {j b : Nat} (hb : base[j]? = some b) :
    (Level.ofGenerators n (gens.filter (fixesAll · (base.take j))) b).basePoint = b :=
  Level.basePoint_ofGenerators (hbased.lt b (List.mem_of_getElem? hb))

theorem startingLevels_basePoints :
    (startingLevels n gens [] base).map (·.basePoint) = base := by
  refine List.ext_getElem? ?_
  intro j
  rw [List.getElem?_map, getElem?_startingLevels, List.nil_append]
  cases hb : base[j]? with
  | none => rfl
  | some b => exact congrArg some (basePoint_startingLevel hbased hb)

theorem startingLevels_above :
    (startingLevels n gens [] base).Pairwise (Level.Above n) := by
  refine pairwise_of_getElem? ?_
  intro i j upper lower hij hupper hlower
  obtain ⟨b, hb, rfl⟩ := exists_of_startingLevels hupper
  obtain ⟨c, hc, rfl⟩ := exists_of_startingLevels hlower
  have htake : base.take i <+: base.take j := List.take_prefix_take_left (Nat.le_of_lt hij)
  refine ⟨span_mono ?_, span_le.mpr ?_, ?_⟩
  · intro g hg
    obtain ⟨hmem, hfix⟩ := List.mem_filter.mp hg
    exact List.mem_filter.mpr ⟨hmem, fixesAll_of_prefix htake hfix⟩
  · -- the base point above is one of those that the generators below fix
    intro g hg
    have hfix := fixesAll_iff.mp (List.mem_filter.mp hg).2
    rw [basePoint_startingLevel hbased hb]
    refine MulAction.mem_stabilizer_iff.mpr (hfix b ?_)
    refine List.mem_iff_getElem?.mpr ⟨i, ?_⟩
    rw [List.getElem?_take_of_lt hij]
    exact hb
  · rw [basePoint_startingLevel hbased hb, basePoint_startingLevel hbased hc]
    rintro rfl
    have hi := (List.getElem?_eq_some_iff.mp hb).1
    exact Nat.ne_of_lt hij ((List.getElem?_inj hi hbased.nodup).mp (hb.trans hc.symm))

include hgens

theorem startingLevel_sound {j b : Nat} (hb : base[j]? = some b) :
    (Level.ofGenerators n (gens.filter (fixesAll · (base.take j))) b).Sound n :=
  Level.ofGenerators_sound (fun g hg => hgens g (List.mem_filter.mp hg).1)
    (hbased.lt b (List.mem_of_getElem? hb))

theorem startingLevels_stacked (hnodup : gens.Nodup) (hmoves : ∀ g ∈ gens, g.isIdentity = false)
    (hmoved : ∀ g ∈ gens, fixesAll g base = false) :
    Stacked n (Signed.span n gens) (startingLevels n gens [] base) := by
  refine ⟨?_, startingLevels_above hbased, ?_, startingLevels_top hmoved⟩
  · intro level hmem
    obtain ⟨j, hj⟩ := List.mem_iff_getElem?.mp hmem
    obtain ⟨b, hb, rfl⟩ := exists_of_startingLevels hj
    exact startingLevel_sound hgens hbased hb
  · intro level hmem
    obtain ⟨j, hj⟩ := List.mem_iff_getElem?.mp hmem
    obtain ⟨b, hb, rfl⟩ := exists_of_startingLevels hj
    exact ⟨hnodup.filter _, fun g hg => hmoves g (List.mem_filter.mp hg).1⟩

/-- The points that were added have orbits of more than one point. -/
theorem startingLevels_long {j : Nat} {level : Level} (hj : wanted.length ≤ j)
    (hlevel : (startingLevels n gens [] base)[j]? = some level) : 2 ≤ level.orbit.length := by
  obtain ⟨b, hb, rfl⟩ := exists_of_startingLevels hlevel
  obtain ⟨g, hg, hfix, hmoves⟩ := hbased.earned j b hj hb
  have hs := startingLevel_sound hgens hbased hb
  refine hs.two_le_length (x := ⟨g, hgens g hg⟩) ?_ ?_
  · exact mem_span_of_mem (hgens g hg) (List.mem_filter.mpr ⟨hg, hfix⟩)
  · rw [basePoint_startingLevel hbased hb]
    exact hmoves

end Levels

end Chain

end SlotSymmetry
