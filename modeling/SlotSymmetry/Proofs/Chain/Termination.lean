import SlotSymmetry.Proofs.Chain.Built

/-! # Every construction ends

    The loop over the levels is followed here without its round limit.  A round
    looks at the deepest pending level: either the level turns out complete, or
    a residue is taken in and the work goes on below.  The position goes up and
    down and the number of levels grows, but a residue always makes the orbits
    longer together, and between two residues the position only falls.  As the
    orbits of a chain have at most `n (n + 1) / 2` points together, the loop ends
    before the limit does, and the limit plays no part in the answer. -/

namespace SlotSymmetry

namespace Chain.Draft

/-! ## Rounds -/

/-- One round of the loop, with the number of residues that it takes in. -/
inductive Round (d : Draft) : Nat → Draft → Prop where
  | complete {i : Nat} (pending : d.pending = i + 1)
      (through : failingResidue (d.levels.drop i) = .ok none) : Round d 0 { d with pending := i }
  | residue {i passed : Nat} {h : SignedPerm} {d' : Draft} (pending : d.pending = i + 1)
      (left : failingResidue (d.levels.drop i) = .ok (some (h, passed)))
      (taken : d.absorb h (i + 1) (i + 1 + passed) = .ok d') : Round d 1 d'

/-- Some rounds of the loop, one after another, with the number of rounds and of the residues that
    they take in. -/
inductive Rounds : Draft → Nat → Nat → Draft → Prop where
  | none (d : Draft) : Rounds d 0 0 d
  | more {d d' e : Draft} {k r s : Nat} (first : Round d k d') (rest : Rounds d' r s e) :
      Rounds d (r + 1) (k + s) e

/-- The loop is at its end with this result. -/
inductive Ends (d : Draft) : Except GroupError Draft → Prop where
  | done (nothing : d.pending = 0) : Ends d (.ok d)
  | clash (pending : 0 < d.pending) (fails : d.step = .error .inconsistentGenerators) :
      Ends d (.error .inconsistentGenerators)

variable {n : Nat} {H : Subgroup (Signed n)} {wanted : List Nat} {d d' e : Draft} {k r s : Nat}

/-- A residue sends the work to the deepest level that takes it in. -/
theorem pending_absorb {h : SignedPerm} {first stop : Nat} (hd : d.absorb h first stop = .ok d') :
    d'.pending = stop + 1 := by
  rw [absorb] at hd
  by_cases hstop : stop = d.levels.length
  · rw [if_pos hstop] at hd
    cases hdeep : d.deepen h with
    | error _ =>
        rw [hdeep] at hd
        cases hd
    | ok deepened =>
        rw [hdeep] at hd
        rw [← Except.ok.inj hd]
  · rw [if_neg hstop] at hd
    rw [← Except.ok.inj hd]

theorem step_of_pending {i : Nat} (hpending : d.pending = i + 1) :
    d.step = failingResidue (d.levels.drop i) >>= fun left =>
      match left with
      | none => .ok { d with pending := i }
      | some (h, passed) => d.absorb h (i + 1) (i + 1 + passed) := by
  rw [step, hpending]
  rfl

theorem Round.pending_pos (h : Round d k d') : 0 < d.pending := by
  cases h with
  | complete hpending => omega
  | residue hpending => omega

/-- A round is a step of the construction. -/
theorem Round.step_eq (h : Round d k d') : d.step = .ok d' := by
  cases h with
  | complete hpending hthrough =>
      rw [step_of_pending hpending, hthrough]
      rfl
  | residue hpending hleft htaken =>
      rw [step_of_pending hpending, hleft]
      exact htaken

theorem exists_round (hpending : 0 < d.pending) (hstep : d.step = .ok d') :
    ∃ k, Round d k d' := by
  obtain ⟨i, hi⟩ := Nat.exists_eq_succ_of_ne_zero (Nat.ne_of_gt hpending)
  rw [step_of_pending hi] at hstep
  cases hlooked : failingResidue (d.levels.drop i) with
  | error _ =>
      rw [hlooked] at hstep
      exact nomatch hstep
  | ok left =>
      rw [hlooked] at hstep
      cases left with
      | none =>
          rw [← Except.ok.inj hstep]
          exact ⟨0, .complete hi hlooked⟩
      | some left => exact ⟨1, .residue hi hlooked hstep⟩

/-! ## What a round changes -/

theorem Round.next (h : Round d k d') (hinv : d.Invariant n H wanted) :
    d'.Invariant n H wanted ∧ d'.cost n < d.cost n := by
  have hstepped := step_stepped hinv h.pending_pos
  rw [h.step_eq] at hstepped
  cases hstepped with
  | next hinv' hless => exact ⟨hinv', hless⟩

/-- A residue sends the work further down, so what costs less are the orbits. -/
theorem Round.orbitSum_lt (h : Round d 1 d') (hinv : d.Invariant n H wanted) :
    orbitSum d.levels < orbitSum d'.levels := by
  have hless := (h.next hinv).2
  cases h with
  | residue hpending _ htaken =>
      have hdown : d.pending < d'.pending := by
        rw [pending_absorb htaken, hpending]
        omega
      have hroom : (n + 1) * (n * (n + 1) / 2 - orbitSum d'.levels)
          < (n + 1) * (n * (n + 1) / 2 - orbitSum d.levels) := by
        rw [cost, cost] at hless
        omega
      have := Nat.lt_of_mul_lt_mul_left hroom
      omega

theorem Round.orbitSum_add_le (h : Round d k d') (hinv : d.Invariant n H wanted) :
    orbitSum d.levels + k ≤ orbitSum d'.levels := by
  cases h with
  | complete => exact Nat.le_refl _
  | residue hpending hleft htaken => exact (Round.residue hpending hleft htaken).orbitSum_lt hinv

/-! ## What the rounds change together -/

theorem Rounds.invariant (h : Rounds d r s e) (hinv : d.Invariant n H wanted) :
    e.Invariant n H wanted := by
  induction h with
  | none => exact hinv
  | more first _ ih => exact ih (first.next hinv).1

/-- Every round costs something. -/
theorem Rounds.cost_add_le (h : Rounds d r s e) (hinv : d.Invariant n H wanted) :
    e.cost n + r ≤ d.cost n := by
  induction h with
  | none => exact Nat.le_refl _
  | more first _ ih =>
      obtain ⟨hinv', hless⟩ := first.next hinv
      have := ih hinv'
      omega

/-- Every residue makes the orbits longer together. -/
theorem Rounds.orbitSum_add_le (h : Rounds d r s e) (hinv : d.Invariant n H wanted) :
    orbitSum d.levels + s ≤ orbitSum e.levels := by
  induction h with
  | none => exact Nat.le_refl _
  | more first _ ih =>
      have hfirst := first.orbitSum_add_le hinv
      have hrest := ih (first.next hinv).1
      omega

/-- Without a residue the levels stay as they are. -/
theorem Rounds.levels_eq (h : Rounds d r s e) (hnone : s = 0) : e.levels = d.levels := by
  induction h with
  | none => rfl
  | more first _ ih =>
      obtain ⟨rfl, hrest⟩ := Nat.add_eq_zero_iff.mp hnone
      rw [ih hrest]
      cases first with
      | complete => rfl

/-- The rounds come to an end. -/
theorem exists_ends (cost : Nat) : ∀ d : Draft, d.Invariant n H wanted → d.cost n ≤ cost →
    ∃ r s e result, Rounds d r s e ∧ e.Ends result := by
  induction cost with
  | zero =>
      intro d _ hcost
      rw [Draft.cost] at hcost
      exact ⟨0, 0, d, _, .none d, .done (by omega)⟩
  | succ cost ih =>
      intro d hinv hcost
      by_cases hpending : d.pending = 0
      · exact ⟨0, 0, d, _, .none d, .done hpending⟩
      · have hpos : 0 < d.pending := Nat.pos_of_ne_zero hpending
        have hstepped := step_stepped hinv hpos
        cases hstep : d.step with
        | error err =>
            rw [hstep] at hstepped
            cases hstepped
            exact ⟨0, 0, d, _, .none d, .clash hpos hstep⟩
        | ok d' =>
            obtain ⟨k, hround⟩ := exists_round hpos hstep
            obtain ⟨hinv', hless⟩ := hround.next hinv
            obtain ⟨r, s, e, result, hrounds, hends⟩ := ih d' hinv' (by omega)
            exact ⟨r + 1, k + s, e, result, .more hround hrounds, hends⟩

/-- With enough rounds the limit plays no part. -/
theorem Rounds.complete_eq {result : Except GroupError Draft} (h : Rounds d r s e)
    (hends : e.Ends result) : ∀ limit, r + e.pending ≤ limit → Draft.complete limit d = result := by
  induction h with
  | none d =>
      intro limit hlimit
      cases hends with
      | done hnothing =>
          cases limit with
          | zero => rfl
          | succ limit => rw [Draft.complete, if_pos hnothing]
      | clash hpending hfails =>
          obtain ⟨limit, rfl⟩ := Nat.exists_eq_add_of_le' (Nat.le_trans (by omega) hlimit : 1 ≤ limit)
          rw [Draft.complete, if_neg (by omega), hfails]
          rfl
  | more first _ ih =>
      intro limit hlimit
      obtain ⟨limit, rfl⟩ := Nat.exists_eq_add_of_le' (Nat.le_trans (by omega) hlimit : 1 ≤ limit)
      have hpos := first.pending_pos
      rw [Draft.complete, if_neg (by omega), first.step_eq]
      exact ih hends limit (by omega)

end Chain.Draft

namespace Chain

open Draft

variable {n : Nat} {gens : List SignedPerm} {wanted : List Nat}

/-- The loop of the construction ends, and with the result that any limit on the rounds that is at
    least the round limit gives.  On the way every residue makes the orbits longer together.  They
    never have more than `n (n + 1) / 2` points, so that no more residues than that are taken in,
    and there are never more than `n` levels. -/
theorem construction_terminates (hgens : ∀ g ∈ gens, g.On n) (hlt : ∀ b ∈ wanted, b < n) :
    (∃ r s d result, Rounds (starting n gens wanted.eraseDups) r s d ∧ d.Ends result
        ∧ (∀ limit, roundLimit n ≤ limit →
          Draft.complete limit (starting n gens wanted.eraseDups) = result)
        ∧ ((∀ g ∈ gens, g.isInconsistent = false) →
          buildWithBase n gens wanted = result.map fun d => ⟨n, d.levels⟩))
      ∧ ∀ r s d, Rounds (starting n gens wanted.eraseDups) r s d →
        (∀ d', Round d 1 d' → orbitSum d.levels < orbitSum d'.levels)
          ∧ orbitSum d.levels ≤ n * (n + 1) / 2
          ∧ s ≤ n * (n + 1) / 2
          ∧ r ≤ roundLimit n
          ∧ d.levels.length ≤ n := by
  have hinv := starting_invariant hgens (nodup_eraseDups wanted)
    (fun b hb => hlt b (List.mem_eraseDups.mp hb))
  have hlimit := hinv.cost_le
  refine ⟨?_, ?_⟩
  · obtain ⟨r, s, d, result, hrounds, hends⟩ := exists_ends _ _ hinv (Nat.le_refl _)
    have hcost := hrounds.cost_add_le hinv
    have hpending : d.pending ≤ d.cost n := Nat.le_add_left _ _
    have hsame : ∀ limit, roundLimit n ≤ limit →
        Draft.complete limit (starting n gens wanted.eraseDups) = result :=
      fun limit hle => hrounds.complete_eq hends limit (by omega)
    refine ⟨r, s, d, result, hrounds, hends, hsame, ?_⟩
    intro hgood
    rcases forM_admissible hgens with ⟨⟨g, hg, hbad⟩, -⟩ | ⟨-, hok⟩
    · rw [hgood g hg] at hbad
      exact nomatch hbad
    · rw [buildWithBase_eq hgens hlt hok, hsame _ (Nat.le_refl _)]
  · intro r s d hrounds
    have hd := hrounds.invariant hinv
    have hsum := orbitSum_le hd.stacked.sound hd.stacked.above
    have hresidues := hrounds.orbitSum_add_le hinv
    have hcost := hrounds.cost_add_le hinv
    exact ⟨fun d' hround => hround.orbitSum_lt hd, hsum, by omega, by omega, hd.length_le⟩

/-- All permutations of three points.  Both generators move the first point, so the construction
    starts with one level, and takes in a residue for the other one. -/
theorem construction_terminates_three :
    ∃ r s d, Rounds (starting 3 [SignedGroup.rotation 3 false, SignedGroup.firstSwap 3 false] [])
        r s d
      ∧ d.pending = 0 ∧ 0 < s ∧ s ≤ 6 ∧ d.levels.length = 2
      ∧ buildWithBase 3 [SignedGroup.rotation 3 false, SignedGroup.firstSwap 3 false] []
        = .ok ⟨3, d.levels⟩ := by
  have hgens : ∀ g ∈ [SignedGroup.rotation 3 false, SignedGroup.firstSwap 3 false], g.On 3 := by
    decide +kernel
  have hgood : ∀ g ∈ [SignedGroup.rotation 3 false, SignedGroup.firstSwap 3 false],
      g.isInconsistent = false := by
    decide +kernel
  have hfew : (starting 3 [SignedGroup.rotation 3 false, SignedGroup.firstSwap 3 false]
      []).levels.length = 1 := by
    decide +kernel
  have hmade : (buildWithBase 3 [SignedGroup.rotation 3 false, SignedGroup.firstSwap 3 false]
      []).toOption.map (·.levels.length) = some 2 := by
    decide +kernel
  obtain ⟨⟨r, s, d, result, hrounds, hends, -, hbuilt⟩, hall⟩ :=
    construction_terminates hgens (List.forall_mem_nil _)
  obtain ⟨-, -, hresidues, -⟩ := hall r s d hrounds
  rw [hbuilt hgood] at hmade ⊢
  cases hends with
  | done hpending =>
      have hlevels : d.levels.length = 2 := Option.some.inj hmade
      refine ⟨r, s, d, hrounds, hpending, Nat.pos_of_ne_zero fun hnone => ?_, hresidues, hlevels,
        rfl⟩
      rw [hrounds.levels_eq hnone] at hlevels
      exact absurd (hlevels.symm.trans hfew) (by decide)
  | clash => exact nomatch hmade

end Chain

end SlotSymmetry
