import SlotSymmetry.Proofs.Chain.Residue

/-! # Completing the levels

    A draft keeps its invariant with every step and comes nearer to its end: a
    step either finds one more level complete or makes the orbits longer, and
    the orbits have a bounded number of points (`Draft.cost`).  So the round
    limit is enough, and the work ends with complete levels or with the
    antisymmetric identity found in the group. -/

namespace SlotSymmetry

namespace Chain.Draft

/-- What holds of a draft for the group `H` between two steps. -/
structure Invariant (n : Nat) (H : Subgroup (Signed n)) (wanted : List Nat) (d : Draft) :
    Prop where
  degree_eq : d.degree = n
  stacked : Stacked n H d.levels
  starts : wanted <+: d.levels.map (·.basePoint)
  long : ∀ (j : Nat) (level : Level), wanted.length ≤ j → d.levels[j]? = some level →
    2 ≤ level.orbit.length
  pending_le : d.pending ≤ d.levels.length
  complete : Complete n (d.levels.drop d.pending)

/-- What is left to do: points that orbits may still take in, and levels to look at. -/
def cost (n : Nat) (d : Draft) : Nat :=
  (n + 1) * (n * (n + 1) / 2 - orbitSum d.levels) + d.pending

variable {n : Nat} {H : Subgroup (Signed n)} {wanted : List Nat} {d d' : Draft}

theorem Invariant.length_le (hinv : d.Invariant n H wanted) : d.levels.length ≤ n :=
  length_levels_le hinv.stacked.sound hinv.stacked.above

/-- Longer orbits outweigh all levels that have to be looked at again. -/
theorem Invariant.cost_lt (hinv : d'.Invariant n H wanted) (hpending : 0 < d.pending)
    (hlt : orbitSum d.levels < orbitSum d'.levels) : d'.cost n < d.cost n := by
  have hle := orbitSum_le hinv.stacked.sound hinv.stacked.above
  -- one point more pays for looking at all levels again
  have hpending' : d'.pending ≤ n := Nat.le_trans hinv.pending_le hinv.length_le
  have hmul : (n + 1) * (n * (n + 1) / 2 - orbitSum d'.levels + 1)
      ≤ (n + 1) * (n * (n + 1) / 2 - orbitSum d.levels) :=
    Nat.mul_le_mul_left _ (by omega)
  rw [Nat.mul_add] at hmul
  show (n + 1) * (n * (n + 1) / 2 - orbitSum d'.levels) + d'.pending
    < (n + 1) * (n * (n + 1) / 2 - orbitSum d.levels) + d.pending
  omega

/-! ## One step -/

/-- What a step comes to. -/
inductive Stepped (n : Nat) (H : Subgroup (Signed n)) (wanted : List Nat) (d : Draft) :
    Except GroupError Draft → Prop where
  | clash (mem : Signed.flip n ∈ H) : Stepped n H wanted d (.error .inconsistentGenerators)
  | next {d' : Draft} (inv : d'.Invariant n H wanted) (less : d'.cost n < d.cost n) :
      Stepped n H wanted d (.ok d')

/-- Adjoining an element that fits leads back to the invariant. -/
theorem invariant_adjoin {i stop : Nat} {h : Signed n} (hd : d.degree = n)
    (hstack : Stacked n H d.levels) (hfit : Fits n d.levels i stop h)
    (hstarts : wanted <+: d.levels.map (·.basePoint))
    (hlong : ∀ (j : Nat) (level : Level), wanted.length ≤ j → j ≠ stop →
      d.levels[j]? = some level → 2 ≤ level.orbit.length)
    (hcomplete : Complete n (d.levels.drop (stop + 1))) :
    Invariant n H wanted
      { d with levels := d.adjoin h.val (i + 1) stop, pending := stop + 1 } := by
  obtain ⟨last, hlast, hleaves⟩ := hfit.leaves
  refine ⟨hd, adjoin_stacked hd hstack hfit, ?_, ?_, ?_, ?_⟩
  · show wanted <+: (d.adjoin h.val (i + 1) stop).map (·.basePoint)
    rw [adjoin_basePoints hd hstack]
    exact hstarts
  · intro j level' hj hlevel'
    obtain ⟨level, hlevel, htakes⟩ := adjoin_takes hd hstack hlevel'
    have hs := hstack.sound level (List.mem_of_getElem? hlevel)
    by_cases hstop : j = stop
    · subst hstop
      obtain rfl : last = level := Option.some.inj (hlast.symm.trans hlevel)
      have hlt := htakes.length_lt hs ⟨hfit.lt, Nat.le_refl _⟩ hleaves
      have hpos := hs.length_pos
      omega
    · exact Nat.le_trans (hlong j level hj hstop hlevel) (htakes.length_le hs)
  · show stop + 1 ≤ (d.levels.mapIdx _).length
    rw [List.length_mapIdx]
    exact (List.getElem?_eq_some_iff.mp hlast).1
  · show Complete n ((d.adjoin h.val (i + 1) stop).drop (stop + 1))
    rw [drop_adjoin]
    exact hcomplete

theorem stepped_adjoin {d₀ : Draft} {i stop : Nat} {h : Signed n} (hd : d.degree = n)
    (hstack : Stacked n H d.levels) (hfit : Fits n d.levels i stop h)
    (hinv : Invariant n H wanted
      { d with levels := d.adjoin h.val (i + 1) stop, pending := stop + 1 })
    (hpending : 0 < d₀.pending) (hsum : orbitSum d₀.levels ≤ orbitSum d.levels) :
    Stepped n H wanted d₀
      (.ok { d with levels := d.adjoin h.val (i + 1) stop, pending := stop + 1 }) :=
  .next hinv (hinv.cost_lt hpending
    (Nat.lt_of_le_of_lt hsum (orbitSum_lt_adjoin hd hstack hfit)))

/-- A residue that stops at a level is taken in by that one and those above it. -/
theorem absorb_within (hinv : d.Invariant n H wanted) {i stop : Nat} {r : Signed n}
    (hpending : d.pending = i + 1) (hfit : Fits n d.levels i stop r) :
    Stepped n H wanted d (d.absorb r.val (i + 1) stop) := by
  obtain ⟨last, hlast, -⟩ := hfit.leaves
  have hstop : stop ≠ d.levels.length :=
    Nat.ne_of_lt (List.getElem?_eq_some_iff.mp hlast).1
  rw [absorb, if_neg hstop]
  refine stepped_adjoin hinv.degree_eq hinv.stacked hfit ?_ (by omega) (Nat.le_refl _)
  refine invariant_adjoin hinv.degree_eq hinv.stacked hfit hinv.starts ?_ ?_
  · exact fun j l hj _ hl => hinv.long j l hj hl
  · -- the range ends below the pending levels
    have hi := hfit.lt
    have := hinv.complete.drop (stop - i)
    rwa [List.drop_drop, show d.pending + (stop - i) = stop + 1 by omega] at this

/-- A residue that passes all levels and moves a point goes into a new level. -/
theorem absorb_below (hinv : d.Invariant n H wanted) {i : Nat} {level : Level} {r : Signed n}
    (hpending : d.pending = i + 1) (hlevel : d.levels[i]? = some level)
    (hmem : r ∈ level.group n) (hfixes : ∀ l ∈ d.levels, r • l.basePoint = l.basePoint)
    (hmoves : r.val.isIdentity = false) :
    Stepped n H wanted d (d.absorb r.val (i + 1) d.levels.length) := by
  cases hpoint : r.val.firstMoved with
  | none =>
      rw [SignedPerm.firstMoved_eq_none_iff.mp hpoint] at hmoves
      exact nomatch hmoves
  | some point =>
      have hne : d.levels ≠ [] := List.ne_nil_of_mem (List.mem_of_getElem? hlevel)
      have hstack := deepen_stacked hpoint hfixes hinv.stacked hne
      have hfit := deepen_fits hpoint hfixes hlevel hmem
      rw [absorb, if_pos rfl, deepen, hpoint, hinv.degree_eq]
      -- the draft with the new level, which is not yet long enough for the invariant
      let d₁ : Draft := ⟨n, d.levels ++ [Level.ofGenerators n [] point], d.pending⟩
      show Stepped n H wanted d (.ok { d₁ with
        levels := d₁.adjoin r.val (i + 1) d.levels.length, pending := d.levels.length + 1 })
      refine stepped_adjoin rfl hstack hfit ?_ (by omega) ?_
      · refine invariant_adjoin rfl hstack hfit ?_ ?_ ?_
        · show wanted <+: (d.levels ++ [Level.ofGenerators n [] point]).map (·.basePoint)
          rw [List.map_append]
          exact hinv.starts.trans (List.prefix_append _ _)
        · intro j l hj hjnew hl
          have hjlt : j < d.levels.length := by
            have := (List.getElem?_eq_some_iff.mp hl).1
            rw [List.length_append, List.length_singleton] at this
            omega
          rw [List.getElem?_append_left hjlt] at hl
          exact hinv.long j l hj hl
        · rw [List.drop_of_length_le (by simp [d₁])]
          exact True.intro
      · show orbitSum d.levels ≤ orbitSum (d.levels ++ [Level.ofGenerators n [] point])
        rw [orbitSum, orbitSum, List.map_append, List.sum_append]
        exact Nat.le_add_right _ _

theorem step_stepped (hinv : d.Invariant n H wanted) (hpending : 0 < d.pending) :
    Stepped n H wanted d d.step := by
  obtain ⟨degree, levels, pending⟩ := d
  cases pending with
  | zero => exact absurd hpending (Nat.lt_irrefl 0)
  | succ i =>
      have hi : i < levels.length := hinv.pending_le
      have hlevel : levels[i]? = some levels[i] := List.getElem?_eq_getElem hi
      have hdrop : levels.drop i = levels[i] :: levels.drop (i + 1) :=
        List.drop_eq_getElem_cons hi
      have hlooked : Looked n levels[i] (levels.drop (i + 1)) (failingResidue (levels.drop i)) := by
        rw [hdrop]
        refine failingResidue_looked ?_ ?_ hinv.complete
        · rw [← hdrop]
          exact fun l hl => hinv.stacked.sound l (List.mem_of_mem_drop hl)
        · rw [← hdrop]
          exact hinv.stacked.above.drop
      show Stepped n H wanted ⟨degree, levels, i + 1⟩ (failingResidue (levels.drop i) >>= _)
      generalize failingResidue (levels.drop i) = result at hlooked
      cases hlooked with
      | clash hflip =>
          exact .clash (hinv.stacked.group_le (List.getElem_mem hi) hflip)
      | complete hdone =>
          rw [← hdrop] at hdone
          have hinv' : Invariant n H wanted ⟨degree, levels, i⟩ :=
            ⟨hinv.degree_eq, hinv.stacked, hinv.starts, hinv.long, Nat.le_of_lt hi, hdone⟩
          exact .next hinv' (Nat.lt_succ_self _)
      | @residue r k hmem hfixes hstops hpassed hleft =>
          rw [List.length_drop] at hpassed hleft
          -- the residue stopped at a level, or passed them all and moves a point
          show Stepped n H wanted _ (absorb _ r.val (i + 1) (i + 1 + k))
          have htake := hinv.stacked.fixes_take hlevel hmem hfixes
          by_cases hstop : i + 1 + k = levels.length
          · rw [hstop, List.take_length] at htake
            rw [hstop]
            exact absorb_below hinv rfl hlevel hmem htake (hleft.resolve_left (by omega))
          · refine absorb_within hinv rfl ⟨by omega, ?_, htake, ?_⟩
            · intro l hl
              rwa [← Option.some.inj (hlevel.symm.trans hl)]
            · have hlast : levels[i + 1 + k]? = some levels[i + 1 + k] :=
                List.getElem?_eq_getElem (by omega)
              exact ⟨_, hlast, hstops _ (by rw [List.getElem?_drop]; exact hlast)⟩

/-! ## All steps -/

/-- What completing the levels comes to. -/
inductive Ended (n : Nat) (H : Subgroup (Signed n)) (wanted : List Nat) :
    Except GroupError Draft → Prop where
  | clash (mem : Signed.flip n ∈ H) : Ended n H wanted (.error .inconsistentGenerators)
  | done {d : Draft} (inv : d.Invariant n H wanted) (nothing : d.pending = 0) :
      Ended n H wanted (.ok d)

/-- As many rounds as the draft costs are enough. -/
theorem complete_ended (rounds : Nat) : ∀ d : Draft, d.Invariant n H wanted →
    d.cost n ≤ rounds → Ended n H wanted (Draft.complete rounds d) := by
  -- a step costs at least one, so no round is missing at the end
  induction rounds with
  | zero =>
      intro d hinv hcost
      have hle : d.pending ≤ d.cost n := Nat.le_add_left _ _
      exact .done hinv (by omega)
  | succ rounds ih =>
      intro d hinv hcost
      rw [Draft.complete]
      by_cases hpending : d.pending = 0
      · rw [if_pos hpending]
        exact .done hinv hpending
      · rw [if_neg hpending]
        have hstepped := step_stepped hinv (by omega)
        generalize d.step = result at hstepped
        cases hstepped with
        | clash hflip => exact .clash hflip
        | @next d' hinv' hless => exact ih d' hinv' (by omega)

/-- The round limit covers the cost of every draft. -/
theorem Invariant.cost_le (hinv : d.Invariant n H wanted) : d.cost n ≤ roundLimit n := by
  have hpending : d.pending ≤ n := Nat.le_trans hinv.pending_le hinv.length_le
  have hmul : (n + 1) * (n * (n + 1) / 2 - orbitSum d.levels) ≤ (n + 1) * (n * (n + 1) / 2) :=
    Nat.mul_le_mul_left _ (Nat.sub_le _ _)
  have hlimit : roundLimit n = (n + 1) * (n * (n + 1) / 2) + (n + 1) := Nat.mul_succ _ _
  rw [hlimit, cost]
  omega

end Chain.Draft

end SlotSymmetry
