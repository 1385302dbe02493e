import Mathlib.GroupTheory.GroupAction.Defs
import SlotSymmetry.Chain.Basic
import SlotSymmetry.Proofs.Orbit.Schreier

/-! # Sifting

    A level is `Sound` when its generators are valid and its orbit was grown
    from them.  Stripping an element at a sound level takes off the transporter
    of the image of the base point.  `Sifts levels x r k` is the run of a sift:
    from `x` down to the residue `r` past `k` levels.  Everything that is known
    about residues follows by induction on the run: they stay in every subgroup
    that contains the levels, fix the base points that were passed, and leave
    the orbit at which they stop. -/

namespace SlotSymmetry

namespace Level

/-- The level of a base point with valid generators and the orbit grown from them. -/
structure Sound (n : Nat) (level : Level) : Prop where
  on : ∀ g ∈ level.generators, g.On n
  basePoint_lt : level.basePoint < n
  orbit_eq : level.orbit = .grow n level.generators level.basePoint

/-- The group that the generators of the level span. -/
def group (n : Nat) (level : Level) : Subgroup (Signed n) := Signed.span n level.generators

variable {n : Nat} {level : Level}

theorem basePoint_ofGenerators {gens : List SignedPerm} {b : Nat} (hb : b < n) :
    (ofGenerators n gens b).basePoint = b :=
  (Orbit.grow_stage gens hb).seed_eq

theorem ofGenerators_sound {gens : List SignedPerm} {b : Nat} (hgens : ∀ g ∈ gens, g.On n)
    (hb : b < n) : (ofGenerators n gens b).Sound n := by
  refine ⟨hgens, ?_, ?_⟩
  · rw [basePoint_ofGenerators hb]
    exact hb
  · rw [basePoint_ofGenerators hb]
    rfl

theorem Sound.stage (h : level.Sound n) :
    level.orbit.Stage n level.generators level.basePoint := by
  have := Orbit.grow_stage level.generators h.basePoint_lt
  rwa [← h.orbit_eq] at this

theorem Sound.contains_iff (h : level.Sound n) {q : Nat} :
    level.orbit.contains q = true ↔ ∃ x ∈ level.group n, x • level.basePoint = q := by
  rw [h.orbit_eq]
  exact Orbit.grow_contains_iff h.on h.basePoint_lt

theorem Sound.contains_smul (h : level.Sound n) {x : Signed n} (hx : x ∈ level.group n) :
    level.orbit.contains (x • level.basePoint) = true :=
  h.contains_iff.mpr ⟨x, hx, rfl⟩

/-- The transversal element that takes the base point to this point of the orbit. -/
def Sound.transporter (h : level.Sound n) (q : Nat) : Signed n := h.stage.transporter h.on q

theorem Sound.transporter_mem (h : level.Sound n) (q : Nat) :
    h.transporter q ∈ level.group n :=
  h.stage.transporter_mem h.on q

theorem Sound.transporter_smul (h : level.Sound n) {q : Nat}
    (hq : level.orbit.contains q = true) : h.transporter q • level.basePoint = q :=
  h.stage.transporter_smul h.on hq

theorem Sound.transversal_eq (h : level.Sound n) {q : Nat}
    (hq : level.orbit.contains q = true) :
    level.transversal q = some (h.transporter q).val :=
  h.stage.transversal_eq h.on hq

/-- What is left of an element when the transporter of its base image is taken off. -/
def Sound.remainder (h : level.Sound n) (x : Signed n) : Signed n :=
  (h.transporter (x • level.basePoint))⁻¹ * x

theorem Sound.transporter_mul_remainder (h : level.Sound n) (x : Signed n) :
    h.transporter (x • level.basePoint) * h.remainder x = x :=
  mul_inv_cancel_left _ _

theorem Sound.remainder_smul (h : level.Sound n) {x : Signed n}
    (hx : level.orbit.contains (x • level.basePoint) = true) :
    h.remainder x • level.basePoint = level.basePoint := by
  rw [remainder, mul_smul, inv_smul_eq_iff, h.transporter_smul hx]

theorem Sound.remainder_mem_iff (h : level.Sound n) {K : Subgroup (Signed n)}
    (hK : level.group n ≤ K) (x : Signed n) : h.remainder x ∈ K ↔ x ∈ K :=
  K.mul_mem_cancel_left (K.inv_mem (hK (h.transporter_mem _)))

theorem Sound.strip_of_contains (h : level.Sound n) {x : Signed n}
    (hx : level.orbit.contains (x • level.basePoint) = true) :
    level.strip x.val = some (h.remainder x).val := by
  have hact : x.val.act level.basePoint = x • level.basePoint := rfl
  rw [strip, hact]
  simp only [hx, if_true]
  exact congrArg some (h.stage.unwind_eq h.on _ x)

theorem strip_of_not_contains {x : Signed n}
    (hx : level.orbit.contains (x • level.basePoint) = false) : level.strip x.val = none := by
  have hact : x.val.act level.basePoint = x • level.basePoint := rfl
  rw [strip, hact]
  simp only [hx]
  rfl

end Level

/-- Every level of the chain is sound. -/
def Chain.Sound (c : Chain) : Prop := ∀ level ∈ c.levels, level.Sound c.degree

/-! ## Runs of a sift -/

/-- Sifting `x` through the levels passes `k` of them and leaves `r`. -/
inductive Sifts (n : Nat) : List Level → Signed n → Signed n → Nat → Prop where
  | done (x : Signed n) : Sifts n [] x x 0
  | stop {level : Level} {below : List Level} {x : Signed n} :
      level.orbit.contains (x • level.basePoint) = false → Sifts n (level :: below) x x 0
  | pass {level : Level} {below : List Level} {x r : Signed n} {k : Nat} (h : level.Sound n) :
      level.orbit.contains (x • level.basePoint) = true →
      Sifts n below (h.remainder x) r k → Sifts n (level :: below) x r (k + 1)

section Sift

variable {n : Nat} {levels : List Level} {x r : Signed n} {k : Nat}

/-- A run says what the sift returns. -/
theorem Sifts.sift_eq (h : Sifts n levels x r k) : sift levels x.val = (r.val, k) := by
  induction h with
  | done x => rfl
  | stop hx => rw [sift, Level.strip_of_not_contains hx]
  | pass hsound hx _ ih =>
      rw [sift, hsound.strip_of_contains hx]
      simp only [ih]

/-- The sift of a valid permutation is such a run. -/
theorem exists_sifts (hsound : ∀ level ∈ levels, level.Sound n) (x : Signed n) :
    ∃ r k, sift levels x.val = (r.val, k) ∧ Sifts n levels x r k := by
  suffices hrun : ∃ r k, Sifts n levels x r k by
    obtain ⟨r, k, hrun⟩ := hrun
    exact ⟨r, k, hrun.sift_eq, hrun⟩
  -- the element changes with every level that is passed
  induction levels generalizing x with
  | nil => exact ⟨x, 0, .done x⟩
  | cons level below ih =>
      have h := hsound level List.mem_cons_self
      cases hx : level.orbit.contains (x • level.basePoint) with
      | false => exact ⟨x, 0, .stop hx⟩
      | true =>
          obtain ⟨r, k, hrun⟩ :=
            ih (fun l hl => hsound l (List.mem_cons_of_mem _ hl)) (h.remainder x)
          exact ⟨r, k + 1, .pass h hx hrun⟩

theorem Sifts.passed_le (h : Sifts n levels x r k) : k ≤ levels.length := by
  induction h with
  | done x => exact Nat.le_refl 0
  | stop _ => exact Nat.zero_le _
  | pass _ _ _ ih => exact Nat.succ_le_succ ih

/-- The residue differs from the element by factors from the levels. -/
theorem Sifts.mem_iff {K : Subgroup (Signed n)} (h : Sifts n levels x r k)
    (hK : ∀ level ∈ levels, level.group n ≤ K) : r ∈ K ↔ x ∈ K := by
  induction h with
  | done x => exact Iff.rfl
  | stop _ => exact Iff.rfl
  | @pass level below x r k hsound _ _ ih =>
      have hlevel := hK level List.mem_cons_self
      exact (ih fun l hl => hK l (List.mem_cons_of_mem _ hl)).trans
        (hsound.remainder_mem_iff hlevel x)

theorem Sifts.not_contains (h : Sifts n levels x r k) {level : Level}
    (hlevel : levels[k]? = some level) :
    level.orbit.contains (r • level.basePoint) = false := by
  induction h with
  | done x => exact nomatch hlevel
  | stop hx =>
      obtain rfl := Option.some.inj hlevel
      exact hx
  | pass _ _ _ ih => exact ih hlevel

end Sift

/-! ## Levels below one another -/

/-- The elements of the lower level belong to the upper one and fix its base point, which is
    not the base point of the lower level. -/
structure Level.Above (n : Nat) (upper lower : Level) : Prop where
  le : lower.group n ≤ upper.group n
  fixes : lower.group n ≤ MulAction.stabilizer (Signed n) upper.basePoint
  ne : upper.basePoint ≠ lower.basePoint

section Pairwise

variable {n : Nat} {levels : List Level} {x r : Signed n} {k : Nat}

/-- The residue fixes the base points of the levels that were passed. -/
theorem Sifts.fixes (h : Sifts n levels x r k) (hpair : levels.Pairwise (Level.Above n)) :
    ∀ level ∈ levels.take k, r • level.basePoint = level.basePoint := by
  induction h with
  | done x => exact fun level hl => absurd hl List.not_mem_nil
  | stop _ => exact fun level hl => absurd hl List.not_mem_nil
  | @pass level below x r k hsound hx hrun ih =>
      obtain ⟨habove, hbelow⟩ := List.pairwise_cons.mp hpair
      intro l hl
      rcases List.mem_cons.mp hl with rfl | hmem
      · -- the lower levels only multiply by elements that fix this point
        have hfix : hsound.remainder x ∈ MulAction.stabilizer (Signed n) l.basePoint :=
          MulAction.mem_stabilizer_iff.mpr (hsound.remainder_smul hx)
        exact MulAction.mem_stabilizer_iff.mp
          ((hrun.mem_iff fun l' hl' => (habove l' hl').fixes).mpr hfix)
      · exact ih hbelow l hmem

end Pairwise

end SlotSymmetry
