import SlotSymmetry.Group.Basic
import SlotSymmetry.Proofs.Chain.Progress
import SlotSymmetry.Proofs.Chain.Start

/-! # The construction as a whole

    On valid generators and wanted points below `n`, building a chain ends in
    one of two ways (`Built`).  Either the antisymmetric identity is in the
    group, or there is a chain of complete levels for the group that starts with
    the wanted points. -/

namespace SlotSymmetry

namespace Chain

/-- A finished chain for the group `H`, its base starting with the wanted points. -/
structure Finished (n : Nat) (H : Subgroup (Signed n)) (wanted : List Nat) (c : Chain) :
    Prop where
  degree_eq : c.degree = n
  stacked : Stacked n H c.levels
  starts : wanted <+: c.base
  long : ∀ (j : Nat) (level : Level), wanted.length ≤ j → c.levels[j]? = some level →
    2 ≤ level.orbit.length
  complete : Complete n c.levels

/-- What building a chain comes to. -/
inductive Built (n : Nat) (gens : List SignedPerm) (wanted : List Nat) :
    Except GroupError Chain → Prop where
  | clash (mem : Signed.flip n ∈ Signed.span n gens) :
      Built n gens wanted (.error .inconsistentGenerators)
  | chain {c : Chain} (finished : c.Finished n (Signed.span n gens) wanted.eraseDups) :
      Built n gens wanted (.ok c)

variable {n : Nat} {gens : List SignedPerm} {wanted : List Nat}

/-- The draft that the construction starts from. -/
def Draft.starting (n : Nat) (gens : List SignedPerm) (wanted : List Nat) : Draft :=
  let levels := startingLevels n (moving gens) [] (movedBase wanted (moving gens))
  ⟨n, levels, levels.length⟩

theorem moving_on (hgens : ∀ g ∈ gens, g.On n) : ∀ g ∈ moving gens, g.On n :=
  fun g hg => hgens g (mem_moving.mp hg).1

theorem starting_invariant (hgens : ∀ g ∈ gens, g.On n) (hwanted : wanted.Nodup)
    (hlt : ∀ b ∈ wanted, b < n) :
    (Draft.starting n gens wanted).Invariant n (Signed.span n (moving gens)) wanted := by
  have hon := moving_on hgens
  have hmoves : ∀ g ∈ moving gens, g.isIdentity = false := fun g hg => (mem_moving.mp hg).2
  have hbased := movedBase_based hon hwanted hlt
  have hmoved : ∀ g ∈ moving gens, fixesAll g (movedBase wanted (moving gens)) = false :=
    fun g hg => fixesAll_movedBase hon hwanted hlt hg (hmoves g hg)
  have hstacked := startingLevels_stacked hon hbased (SignedPerm.nodup_distinct _) hmoves hmoved
  -- no level below the pending ones: they are trivially complete
  refine ⟨rfl, hstacked, ?_, ?_, Nat.le_refl _, ?_⟩
  · show wanted <+: (startingLevels n (moving gens) [] _).map (·.basePoint)
    rw [startingLevels_basePoints hbased]
    exact hbased.starts
  · exact fun j level hj hlevel => startingLevels_long hon hbased hj hlevel
  · have hnone : (Draft.starting n gens wanted).levels.drop (Draft.starting n gens wanted).pending
        = [] := List.drop_length
    rw [hnone]
    exact True.intro

/-- Generators that pass the checks are completed from there. -/
theorem buildWithBase_eq (hgens : ∀ g ∈ gens, g.On n) (hlt : ∀ b ∈ wanted, b < n)
    (hok : gens.forM (admissible n) = .ok ()) :
    buildWithBase n gens wanted
      = (Draft.complete (roundLimit n) (Draft.starting n gens wanted.eraseDups)).map
        fun d => ⟨n, d.levels⟩ := by
  have hrange : (moving gens).all (·.imageInRange) = true :=
    List.all_eq_true.mpr fun g hg => (moving_on hgens g hg).imageInRange
  rw [buildWithBase, startingBase_eq hlt]
  show (gens.forM (admissible n) >>= _) = _
  rw [hok]
  show (if (moving gens).all (·.imageInRange) then _ else _) = _
  rw [if_pos hrange]
  show (Draft.complete (roundLimit n) (Draft.starting n gens wanted.eraseDups) >>= _) = _
  cases Draft.complete (roundLimit n) (Draft.starting n gens wanted.eraseDups) with
  | error _ => rfl
  | ok _ => rfl

theorem buildWithBase_built (hgens : ∀ g ∈ gens, g.On n) (hlt : ∀ b ∈ wanted, b < n) :
    Built n gens wanted (buildWithBase n gens wanted) := by
  rcases forM_admissible hgens with ⟨⟨g, hg, hbad⟩, herr⟩ | ⟨hgood, hok⟩
  · -- a given generator is the antisymmetric identity
    rw [buildWithBase, startingBase_eq hlt]
    show Built n gens wanted (gens.forM (admissible n) >>= _)
    rw [herr]
    have hflip : (⟨g, hgens g hg⟩ : Signed n) = .flip n := (Signed.isInconsistent_iff _).mp hbad
    exact .clash (hflip ▸ mem_span_of_mem (hgens g hg) hg)
  · have hinv := starting_invariant hgens (nodup_eraseDups wanted)
      (fun b hb => hlt b (List.mem_eraseDups.mp hb))
    rw [span_moving hgood] at hinv
    have hended := Draft.complete_ended (roundLimit n) _ hinv hinv.cost_le
    rw [buildWithBase_eq hgens hlt hok]
    generalize Draft.complete (roundLimit n) _ = result at hended
    cases hended with
    | clash hflip => exact .clash hflip
    | @done d hinv hpending =>
        refine .chain ⟨rfl, hinv.stacked, hinv.starts, hinv.long, ?_⟩
        have := hinv.complete
        rwa [hpending] at this

end Chain

end SlotSymmetry
