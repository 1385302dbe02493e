import SlotSymmetry.Proofs.Chain.Tail

/-! # The check of a chain

    Let every level lie in the group of the level before and fix the base points
    before (`Layered`).  Such levels pass the check exactly if they are complete.
    From the deepest level up, the check finds that the Schreier generators of a
    level belong to the levels below, so these hold its whole stabilizer
    (`Layered.complete_of_verifyLevels`).  Levels that accept every element of the
    first group are complete too: an element that fixes the base point of a level
    passes it as it is and sifts to the identity through the levels below, so it
    is a product of elements from there (`Layered.complete_of_sifts`).  So the
    check tells whether sifting decides membership, and a finished chain passes
    it. -/

namespace SlotSymmetry

open SignedPerm (Generated)

/-- Levels whose groups lie in the groups before and fix the base points before. -/
structure Layered (n : Nat) (levels : List Level) : Prop where
  sound : ∀ level ∈ levels, level.Sound n
  nested : levels.Pairwise fun upper lower =>
    lower.group n ≤ upper.group n ⊓ MulAction.stabilizer (Signed n) upper.basePoint

section

variable {n : Nat} {level : Level} {below levels : List Level}

theorem Layered.tail (h : Layered n (level :: below)) : Layered n below :=
  ⟨(List.forall_mem_cons.mp h.sound).2, (List.pairwise_cons.mp h.nested).2⟩

theorem Layered.head (h : Layered n (level :: below)) : level.Sound n :=
  (List.forall_mem_cons.mp h.sound).1

theorem Layered.head_le (h : Layered n (level :: below)) : ∀ lower ∈ below,
    lower.group n ≤ level.group n ⊓ MulAction.stabilizer (Signed n) level.basePoint :=
  (List.pairwise_cons.mp h.nested).1

theorem Layered.act_eq (h : Layered n (level :: below)) :
    ∀ lower ∈ below, ∀ g ∈ lower.generators, g.act level.basePoint = level.basePoint := by
  intro lower hlower g hg
  have hmem := h.head_le lower hlower (mem_span_of_mem ((h.tail.sound lower hlower).on g hg) hg)
  exact MulAction.mem_stabilizer_iff.mp hmem.2

/-! ## Complete levels pass -/

theorem not_flip_mem_group (hcomplete : Complete n (level :: below)) :
    Signed.flip n ∉ level.group n := fun hmem =>
  Signed.flip_ne_one (hcomplete.eq_one_of_fixes hmem fun _ _ => Signed.flip_smul _)

open Chain in
/-- A level above complete ones passes, if its generators fix the base points before. -/
theorem verifyLevel_of_complete {earlier : List Nat} (hcomplete : Complete n (level :: below))
    (hfix : ∀ g ∈ level.generators, ∀ b ∈ earlier, g.act b = b) :
    verifyLevel earlier level below = true := by
  have hs := hcomplete.1
  rw [verifyLevel, Bool.and_eq_true, Bool.and_eq_true]
  refine ⟨⟨?_, ?_⟩, ?_⟩
  · rw [List.all_eq_true]
    intro g hg
    rw [List.all_eq_true]
    exact fun b hb => beq_iff_eq.mpr (hfix g hg b hb)
  · rw [List.all_eq_true]
    intro g hg
    exact (hcomplete.siftsToIdentity_iff ⟨g, hs.on g hg⟩).mpr (mem_span_of_mem _ hg)
  · rw [hs.orbit_eq]
    cases hls : (Orbit.grow n level.generators level.basePoint).schreierGenerators
        level.generators with
    | error e =>
        have hflip := (Orbit.flip_mem_of_schreierGenerators_error hs.on hs.basePoint_lt hls).2
        exact absurd hflip (not_flip_mem_group hcomplete)
    | ok ls =>
        show ls.all (siftsToIdentity below) = true
        rw [List.all_eq_true]
        intro s hmem
        obtain ⟨x, rfl, hx, hseed⟩ := Orbit.mem_of_mem_loops hs.on hs.basePoint_lt
          ((Orbit.mem_schreierGenerators_iff hls).mp hmem).1
        exact (hcomplete.2.2.siftsToIdentity_iff x).mpr (hcomplete.mem_top_below_iff.mpr ⟨hx, hseed⟩)

theorem Layered.verifyLevels_of_complete (h : Layered n levels) (hcomplete : Complete n levels) :
    ∀ earlier : List Nat,
      (∀ level ∈ levels, ∀ g ∈ level.generators, ∀ b ∈ earlier, g.act b = b) →
        Chain.verifyLevels earlier levels = true := by
  induction levels with
  | nil => exact fun _ _ => rfl
  | cons level below ih =>
      intro earlier hfix
      rw [Chain.verifyLevels, Bool.and_eq_true]
      refine ⟨verifyLevel_of_complete hcomplete (hfix level List.mem_cons_self), ?_⟩
      refine ih h.tail hcomplete.2.2 _ ?_
      intro lower hlower g hg b hb
      rcases List.mem_append.mp hb with hb | hb
      · exact hfix lower (List.mem_cons_of_mem _ hlower) g hg b hb
      · -- the levels below fix this base point
        rw [List.mem_singleton.mp hb]
        exact h.act_eq lower hlower g hg

/-! ## Levels that pass are complete -/

theorem Layered.complete_of_verifyLevels (h : Layered n levels) {earlier : List Nat}
    (hpass : Chain.verifyLevels earlier levels = true) : Complete n levels := by
  induction levels generalizing earlier with
  | nil => exact True.intro
  | cons level below ih =>
      rw [Chain.verifyLevels, Bool.and_eq_true] at hpass
      obtain ⟨hlevel, hrest⟩ := hpass
      rw [Chain.verifyLevel, Bool.and_eq_true] at hlevel
      have hschreier := hlevel.2
      cases hls : level.orbit.schreierGenerators level.generators with
      | error e =>
          rw [hls] at hschreier
          exact nomatch hschreier
      | ok ls =>
          rw [hls] at hschreier
          exact (ih h.tail hrest).cons h.head h.head_le hls (List.all_eq_true.mp hschreier)

theorem Layered.verifyLevels_iff (h : Layered n levels) :
    Chain.verifyLevels [] levels = true ↔ Complete n levels :=
  ⟨h.complete_of_verifyLevels,
    fun hcomplete => h.verifyLevels_of_complete hcomplete [] fun _ _ _ _ _ hb => nomatch hb⟩

/-! ## Levels that accept their group are complete -/

/-- What sifts to the identity is a product of elements of the levels. -/
theorem Layered.mem_of_siftsToIdentity (h : Layered n levels) {x : Signed n}
    (hx : siftsToIdentity levels x.val = true) : x ∈ topGroup n levels := by
  obtain ⟨r, k, hsift, hrun⟩ := exists_sifts h.sound x
  rw [siftsToIdentity, hsift, Bool.and_eq_true, Bool.and_eq_true, Bool.not_eq_true'] at hx
  obtain ⟨⟨-, hfix⟩, hsign⟩ := hx
  have hle : ∀ level ∈ levels, level.group n ≤ topGroup n levels := fun level hlevel =>
    group_le_topGroup (h.nested.imp fun hlower => hlower.trans inf_le_left) hlevel
  rw [← hrun.mem_iff hle, Signed.eq_one_of_isIdentity hfix hsign]
  exact Subgroup.one_mem _

/-- An element that fixes the base point passes the level as it is. -/
theorem siftsToIdentity_cons_of_fixes (hs : level.Sound n) {x : Signed n}
    (hfix : x • level.basePoint = level.basePoint) :
    siftsToIdentity (level :: below) x.val = siftsToIdentity below x.val := by
  have hseed : level.orbit.contains (x • level.basePoint) = true := by
    rw [hfix]
    exact hs.stage.contains_seed
  have hremainder : hs.remainder x = x := by
    rw [Level.Sound.remainder, hfix, Level.Sound.transporter, hs.stage.transporter_seed, inv_one,
      one_mul]
  rw [siftsToIdentity_cons_of_contains hs hseed, hremainder]

theorem Layered.complete_of_sifts (h : Layered n levels)
    (hall : ∀ x ∈ topGroup n levels, siftsToIdentity levels x.val = true) :
    Complete n levels := by
  induction levels with
  | nil => exact True.intro
  | cons level below ih =>
      have hbelow : ∀ x ∈ level.group n ⊓ MulAction.stabilizer (Signed n) level.basePoint,
          siftsToIdentity below x.val = true := by
        rintro x ⟨hx, hfix⟩
        rw [← siftsToIdentity_cons_of_fixes h.head (MulAction.mem_stabilizer_iff.mp hfix)]
        exact hall x hx
      have hle := topGroup_le h.head_le
      refine ⟨h.head, le_antisymm hle fun x hx => ?_, ih h.tail fun x hx => hbelow x (hle hx)⟩
      exact h.tail.mem_of_siftsToIdentity (hbelow x hx)

end

namespace Chain

variable {n : Nat} {H : Subgroup (Signed n)} {wanted : List Nat} {c : Chain}

theorem Finished.layered (hc : c.Finished n H wanted) : Layered n c.levels :=
  ⟨hc.stacked.sound, hc.stacked.above.imp fun habove => le_inf habove.le habove.fixes⟩

/-- A finished chain passes the check. -/
theorem Finished.verify (hc : c.Finished n H wanted) : c.verify = true :=
  hc.layered.verifyLevels_iff.mpr hc.complete

/-! ## The check is exact -/

theorem topGroup_eq_span (n : Nat) (levels : List Level) :
    topGroup n levels = Signed.span n (levels.head?.elim [] (·.generators)) := by
  cases levels with
  | nil => exact span_nil.symm
  | cons level below => rfl

/-- Levels of a chain that lie below one another, told by their generators. -/
theorem layered_of_generators
    (hvalid : ∀ level ∈ c.levels, ∀ g ∈ level.generators, g.Valid)
    (horbit : ∀ level ∈ c.levels,
      Orbit.ofSeed c.degree level.generators level.basePoint = .ok level.orbit)
    (hfixes : c.levels.Pairwise fun upper lower =>
      ∀ g ∈ lower.generators, g.act upper.basePoint = upper.basePoint)
    (hnested : c.levels.IsChain fun upper lower =>
      ∀ g ∈ lower.generators, Generated c.degree upper.generators g) :
    Layered c.degree c.levels := by
  have hsound : ∀ level ∈ c.levels, level.Sound c.degree := by
    intro level hlevel
    obtain ⟨hlt, hdegree, horbit⟩ := Orbit.inputs_of_ofSeed (horbit level hlevel)
    exact ⟨fun g hg => ⟨hvalid level hlevel g hg, hdegree g hg⟩, hlt, horbit⟩
  -- from level to level the groups descend, so they do from any level to any level below
  have hdescend : (c.levels.map (Level.group c.degree)).IsChain (· ≥ ·) := by
    refine (List.isChain_map _).mpr (hnested.imp_of_mem_imp ?_)
    intro upper lower hupper hlower hgenerated
    refine span_le.mpr fun g hg => ?_
    obtain ⟨hon, hmem⟩ := (generated_iff (hsound upper hupper).on).mp (hgenerated g.val hg)
    exact hmem
  refine ⟨hsound, ((List.pairwise_map.mp hdescend.pairwise).and hfixes).imp ?_⟩
  rintro upper lower ⟨hle, hfix⟩
  refine le_inf hle (span_le.mpr fun g hg => ?_)
  exact MulAction.mem_stabilizer_iff.mpr (hfix g.val hg)

/-- The check is exact.  Let the orbit of every level be that of its base point under its
    generators, which are valid, fix the base points before and are generated by those of the
    level before.  Then the check passes if and only if sifting decides membership in the group
    that the generators of the first level generate. -/
theorem verify_exact
    (hvalid : ∀ level ∈ c.levels, ∀ g ∈ level.generators, g.Valid)
    (horbit : ∀ level ∈ c.levels,
      Orbit.ofSeed c.degree level.generators level.basePoint = .ok level.orbit)
    (hfixes : c.levels.Pairwise fun upper lower =>
      ∀ g ∈ lower.generators, g.act upper.basePoint = upper.basePoint)
    (hnested : c.levels.IsChain fun upper lower =>
      ∀ g ∈ lower.generators, Generated c.degree upper.generators g) :
    c.verify = true ↔ ∀ p : SignedPerm, p.Valid →
      (c.contains p = true ↔ Generated c.degree (c.levels.head?.elim [] (·.generators)) p) := by
  have hlayered := layered_of_generators hvalid horbit hfixes hnested
  have hgens : ∀ g ∈ c.levels.head?.elim [] (·.generators), g.On c.degree := by
    cases hlevels : c.levels with
    | nil => exact fun g hg => absurd hg List.not_mem_nil
    | cons level below =>
        refine (hlayered.sound level ?_).on
        rw [hlevels]
        exact List.mem_cons_self
  rw [verify, hlayered.verifyLevels_iff]
  constructor
  · intro hcomplete p hp
    rw [contains_iff_of_complete rfl hcomplete hp, topGroup_eq_span, generated_iff hgens]
  · intro hexact
    refine hlayered.complete_of_sifts fun x hx => ?_
    rw [← contains_val rfl x, hexact x.val x.on.valid, generated_iff hgens, ← topGroup_eq_span]
    exact ⟨x.on, hx⟩

theorem ofSeed_ofGenerators {gens : List SignedPerm} {b : Nat} (hgens : ∀ g ∈ gens, g.On n)
    (hb : b < n) : Orbit.ofSeed n gens (Level.ofGenerators n gens b).basePoint
      = .ok (Level.ofGenerators n gens b).orbit := by
  rw [Level.basePoint_ofGenerators hb]
  exact Orbit.ofSeed_eq_grow hgens hb

/-- The permutations of three points.  Two levels pass the check, so sifting through them decides
    membership.  The first of them alone does not pass, so it misjudges some permutation. -/
theorem verify_exact_three :
    (∀ p : SignedPerm, p.Valid →
      (Chain.contains ⟨3, [.ofGenerators 3 [SignedGroup.rotation 3 false,
          SignedGroup.firstSwap 3 false] 0, .ofGenerators 3 [.ofImage #[0, 2, 1] false] 1]⟩ p = true
        ↔ Generated 3 [SignedGroup.rotation 3 false, SignedGroup.firstSwap 3 false] p))
      ∧ ∃ p : SignedPerm, p.Valid
        ∧ ¬ (Chain.contains ⟨3, [.ofGenerators 3 [SignedGroup.rotation 3 false,
            SignedGroup.firstSwap 3 false] 0]⟩ p = true
          ↔ Generated 3 [SignedGroup.rotation 3 false, SignedGroup.firstSwap 3 false] p) := by
  have hgens : ∀ g ∈ [SignedGroup.rotation 3 false, SignedGroup.firstSwap 3 false], g.On 3 := by
    decide +kernel
  have hgens' : ∀ g ∈ [SignedPerm.ofImage #[0, 2, 1] false], g.On 3 := by decide +kernel
  have horbit := ofSeed_ofGenerators hgens (by decide : 0 < 3)
  have horbit' := ofSeed_ofGenerators hgens' (by decide : 1 < 3)
  constructor
  · refine (verify_exact ?_ ?_ ?_ ?_).mp (by decide +kernel)
    · exact List.forall_mem_cons.mpr ⟨fun g hg => (hgens g hg).valid,
        List.forall_mem_singleton.mpr fun g hg => (hgens' g hg).valid⟩
    · exact List.forall_mem_cons.mpr ⟨horbit, List.forall_mem_singleton.mpr horbit'⟩
    · decide +kernel
    · -- the swap of the last two points is the first swap between rotations
      refine .cons_cons (List.forall_mem_singleton.mpr ?_) (.singleton _)
      have hswap : SignedPerm.ofImage #[0, 2, 1] false
          = SignedGroup.rotation 3 false * (SignedGroup.firstSwap 3 false
            * (SignedGroup.rotation 3 false * (SignedGroup.rotation 3 false
              * SignedPerm.id 3))) := by decide +kernel
      rw [hswap]
      have hrotation : SignedGroup.rotation 3 false
          ∈ [SignedGroup.rotation 3 false, SignedGroup.firstSwap 3 false] := List.mem_cons_self
      have hfirst : SignedGroup.firstSwap 3 false
          ∈ [SignedGroup.rotation 3 false, SignedGroup.firstSwap 3 false] :=
        List.mem_cons_of_mem _ List.mem_cons_self
      exact .mul hrotation (.mul hfirst (.mul hrotation (.mul hrotation .one)))
  · by_contra hnone
    have hpasses : Chain.verify ⟨3, [.ofGenerators 3 [SignedGroup.rotation 3 false,
        SignedGroup.firstSwap 3 false] 0]⟩ = true := by
      refine (verify_exact ?_ ?_ (List.pairwise_singleton _ _) (.singleton _)).mpr ?_
      · exact List.forall_mem_singleton.mpr fun g hg => (hgens g hg).valid
      · exact List.forall_mem_singleton.mpr horbit
      · intro p hp
        by_contra hp'
        exact hnone ⟨p, hp, hp'⟩
    exact absurd hpasses (by decide +kernel)

end Chain

end SlotSymmetry
