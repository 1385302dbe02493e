import Mathlib.SetTheory.Cardinal.Finite
import SlotSymmetry.Proofs.Chain.Sift

/-! # Complete levels

    Levels are complete when below each of them stands exactly the stabilizer
    of its base point.  Then sifting decides membership in the group of the
    first level, the levels from any depth on describe the pointwise stabilizer
    of the base points before, and every element is a product of transversal
    elements, one per level, in one way. -/

namespace SlotSymmetry

/-- The group of the first level; only the identity if there is none. -/
def topGroup (n : Nat) : List Level → Subgroup (Signed n)
  | [] => ⊥
  | level :: _ => level.group n

/-- Below every level stands the stabilizer of its base point in the group of the level. -/
def Complete (n : Nat) : List Level → Prop
  | [] => True
  | level :: below =>
      level.Sound n
        ∧ topGroup n below = level.group n ⊓ MulAction.stabilizer (Signed n) level.basePoint
        ∧ Complete n below

section

variable {n : Nat} {level : Level} {below levels : List Level}

theorem topGroup_le {K : Subgroup (Signed n)} (hle : ∀ level ∈ levels, level.group n ≤ K) :
    topGroup n levels ≤ K := by
  cases levels with
  | nil => exact bot_le
  | cons level below => exact hle level List.mem_cons_self

/-- If the groups descend, the first one holds all. -/
theorem group_le_topGroup (h : levels.Pairwise fun upper lower => lower.group n ≤ upper.group n)
    (hlevel : level ∈ levels) : level.group n ≤ topGroup n levels := by
  cases levels with
  | nil => exact absurd hlevel List.not_mem_nil
  | cons first below =>
      rcases List.mem_cons.mp hlevel with rfl | hmem
      · exact le_refl _
      · exact (List.pairwise_cons.mp h).1 level hmem

theorem Complete.drop (h : Complete n levels) (d : Nat) : Complete n (levels.drop d) := by
  induction d generalizing levels with
  | zero => exact h
  | succ d ih =>
      cases levels with
      | nil => exact h
      | cons level below => exact ih h.2.2

theorem Complete.sound (h : Complete n levels) : ∀ level ∈ levels, level.Sound n := by
  induction levels with
  | nil => exact nofun
  | cons level below ih => exact List.forall_mem_cons.mpr ⟨h.1, ih h.2.2⟩

theorem Complete.mem_top_below_iff (h : Complete n (level :: below)) {x : Signed n} :
    x ∈ topGroup n below ↔ x ∈ level.group n ∧ x • level.basePoint = level.basePoint := by
  rw [h.2.1, Subgroup.mem_inf, MulAction.mem_stabilizer_iff]

/-! ## Membership -/

theorem siftsToIdentity_cons_of_contains (h : level.Sound n) {x : Signed n}
    (hx : level.orbit.contains (x • level.basePoint) = true) :
    siftsToIdentity (level :: below) x.val = siftsToIdentity below (h.remainder x).val := by
  rw [siftsToIdentity, siftsToIdentity, sift, h.strip_of_contains hx]
  simp

theorem siftsToIdentity_cons_of_not_contains {x : Signed n}
    (hx : level.orbit.contains (x • level.basePoint) = false) :
    siftsToIdentity (level :: below) x.val = false := by
  rw [siftsToIdentity, sift, Level.strip_of_not_contains hx]
  rfl

theorem siftsToIdentity_nil (x : Signed n) : siftsToIdentity [] x.val = true ↔ x = 1 := by
  have hsift : siftsToIdentity [] x.val = (x.val.isIdentity && !x.val.flips) := rfl
  rw [hsift, Bool.and_eq_true, Bool.not_eq_true']
  constructor
  · rintro ⟨hfix, hsign⟩
    exact Signed.eq_one_of_isIdentity hfix hsign
  · rintro rfl
    exact ⟨Signed.one_isIdentity, rfl⟩

/-- Sifting through complete levels decides membership. -/
theorem Complete.siftsToIdentity_iff (h : Complete n levels) (x : Signed n) :
    siftsToIdentity levels x.val = true ↔ x ∈ topGroup n levels := by
  induction levels generalizing x with
  | nil => rw [siftsToIdentity_nil, topGroup, Subgroup.mem_bot]
  | cons level below ih =>
      have hsound := h.1
      cases hx : level.orbit.contains (x • level.basePoint) with
      | false =>
          -- an element of the level would lead into its orbit
          rw [siftsToIdentity_cons_of_not_contains hx]
          refine ⟨nofun, fun hmem => ?_⟩
          rw [hsound.contains_smul hmem] at hx
          exact nomatch hx
      | true =>
          rw [siftsToIdentity_cons_of_contains hsound hx, ih h.2.2, h.mem_top_below_iff]
          constructor
          · rintro ⟨hmem, -⟩
            exact (hsound.remainder_mem_iff (le_refl _) x).mp hmem
          · intro hmem
            exact ⟨(hsound.remainder_mem_iff (le_refl _) x).mpr hmem,
              hsound.remainder_smul hx⟩

/-- A level stands complete above complete ones if these hold elements of its stabilizer only, and
    its Schreier generators sift to the identity through them. -/
theorem Complete.cons (hbelow : Complete n below) (hs : level.Sound n)
    (hle : ∀ lower ∈ below,
      lower.group n ≤ level.group n ⊓ MulAction.stabilizer (Signed n) level.basePoint)
    {loops : List SignedPerm}
    (hloops : level.orbit.schreierGenerators level.generators = .ok loops)
    (hall : ∀ s ∈ loops, siftsToIdentity below s = true) : Complete n (level :: below) := by
  rw [hs.orbit_eq] at hloops
  have hspan : Signed.span n loops
      = level.group n ⊓ MulAction.stabilizer (Signed n) level.basePoint :=
    Orbit.span_schreierGenerators hs.on hs.basePoint_lt hloops
  refine ⟨hs, le_antisymm (topGroup_le hle) ?_, hbelow⟩
  rw [← hspan]
  refine span_le.mpr fun s hs => ?_
  exact (hbelow.siftsToIdentity_iff s).mp (hall _ hs)

/-! ## Stabilizers -/

/-- The levels from a depth on describe the elements that fix the base points before. -/
theorem Complete.mem_top_drop_iff (h : Complete n levels) (d : Nat) {x : Signed n} :
    x ∈ topGroup n (levels.drop d) ↔
      x ∈ topGroup n levels ∧ ∀ level ∈ levels.take d, x • level.basePoint = level.basePoint := by
  induction d generalizing levels with
  | zero => simp
  | succ d ih =>
      cases levels with
      | nil => simp
      | cons level below =>
          rw [List.drop_succ_cons, ih h.2.2, h.mem_top_below_iff, List.take_succ_cons,
            List.forall_mem_cons, and_assoc]
          rfl

/-- Only the identity fixes every base point. -/
theorem Complete.eq_one_of_fixes (h : Complete n levels) {x : Signed n}
    (hx : x ∈ topGroup n levels)
    (hfix : ∀ level ∈ levels, x • level.basePoint = level.basePoint) : x = 1 := by
  have hdrop : x ∈ topGroup n (levels.drop levels.length) := by
    rw [h.mem_top_drop_iff, List.take_length]
    exact ⟨hx, hfix⟩
  rw [List.drop_length] at hdrop
  exact Subgroup.mem_bot.mp hdrop

end

end SlotSymmetry
