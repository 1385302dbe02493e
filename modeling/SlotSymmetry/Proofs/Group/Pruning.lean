import Mathlib.Data.Fintype.Lattice
import Mathlib.Data.List.Lex
import SlotSymmetry.Proofs.Group.Canonical
import SlotSymmetry.Proofs.Group.Presents
import SlotSymmetry.Proofs.Orbit.Partition

/-! # Pruning a search for coset representatives

    The table of smallest points is written orbit by orbit; as all lists with a
    point in them have the same smallest one, it does not matter which of them
    is written last.  The element of a right coset `H x` with the least images
    of the base points sends the first of them to the smallest point of an
    orbit of `H`, or another element of the coset would have smaller images.
    So a search that refuses all other first images still meets it. -/

namespace SlotSymmetry

namespace SignedGroup

open SignedPerm (size_foldl_set getD_foldl_set)

variable {n : Nat} {H : Subgroup (Signed n)} {G : SignedGroup}

/-! ## Smallest points -/

/-- Writes the smallest point of an orbit at all of its points. -/
def writeLeast (table : Array Nat) (orbit : List Nat) : Array Nat :=
  orbit.foldl (fun table point => table.setIfInBounds point (orbit.min?.getD 0)) table

theorem orbitMinima_eq (G : SignedGroup) :
    G.orbitMinima = G.orbits.foldl writeLeast (Array.replicate G.degree 0) :=
  rfl

/-- What holds of the smallest points of all lists that have a point in them holds of the entry of
    this point. -/
theorem getD_foldl_writeLeast {P : Nat → Prop} {q : Nat} (orbits : List (List Nat)) :
    ∀ table : Array Nat, q < table.size →
      (∀ orbit ∈ orbits, q ∈ orbit → P (orbit.min?.getD 0)) →
      ((∃ orbit ∈ orbits, q ∈ orbit) ∨ P (table.getD q 0)) →
      P ((orbits.foldl writeLeast table).getD q 0) := by
  induction orbits with
  | nil =>
      rintro table - - (⟨orbit, horbit, -⟩ | hP)
      · exact absurd horbit List.not_mem_nil
      · exact hP
  | cons orbit orbits ih =>
      intro table hsize hall hsome
      obtain ⟨hfirst, hrest⟩ := List.forall_mem_cons.mp hall
      have hsize' : q < (writeLeast table orbit).size := by
        rwa [writeLeast, size_foldl_set]
      refine ih _ hsize' hrest ?_
      by_cases hlater : ∃ orbit ∈ orbits, q ∈ orbit
      · exact Or.inl hlater
      · right
        rw [writeLeast, getD_foldl_set _ _ _ hsize]
        by_cases hmem : q ∈ orbit
        · rw [if_pos hmem]
          exact hfirst hmem
        · -- no list has the point, so the table was right before
          rw [if_neg hmem]
          rcases hsome with ⟨orbit', horbit', hmem'⟩ | hP
          · rcases List.mem_cons.mp horbit' with rfl | horbit'
            · exact absurd hmem' hmem
            · exact absurd ⟨orbit', horbit', hmem'⟩ hlater
          · exact hP

/-- The table has the smallest point of the orbit of every point. -/
theorem orbitMinima_spec (hgens : ∀ g ∈ G.generators, g.On G.degree) {q : Nat}
    (hq : q < G.degree) :
    (∃ x ∈ Signed.span G.degree G.generators, x • q = G.orbitMinima.getD q 0)
      ∧ ∀ x ∈ Signed.span G.degree G.generators, G.orbitMinima.getD q 0 ≤ x • q := by
  rw [orbitMinima_eq]
  refine getD_foldl_writeLeast (P := fun v =>
    (∃ x ∈ Signed.span G.degree G.generators, x • q = v)
      ∧ ∀ x ∈ Signed.span G.degree G.generators, v ≤ x • q) G.orbits _
    (by rwa [Array.size_replicate]) ?_ (Or.inl (Orbit.exists_mem_partition hgens hq))
  intro orbit horbit hmem
  have horbit_iff := fun p => Orbit.mem_of_mem_partition hgens horbit hmem (q := p)
  obtain ⟨least, hleast⟩ := Option.isSome_iff_exists.mp
    (List.isSome_min?_of_mem hmem)
  rw [hleast, Option.getD_some]
  refine ⟨(horbit_iff least).mp (List.min?_mem hleast), fun x hx => ?_⟩
  exact (List.le_min?_iff hleast).mp (Nat.le_refl least) _ ((horbit_iff _).mpr ⟨x, hx, rfl⟩)

/-! ## Least elements of right cosets -/

/-- No other element of the right coset `H x` has images of the base points as small as `x`. -/
def LeastInCoset (H : Subgroup (Signed n)) (levels : List Level) (x : Signed n) : Prop :=
  ∀ h ∈ H, h * x = x ∨ baseImages levels x.val < baseImages levels (h * x).val

variable {levels : List Level} {x : Signed n}

theorem exists_leastInCoset (hcomplete : Complete n levels) (hle : H ≤ topGroup n levels)
    (hx : x ∈ topGroup n levels) : ∃ h ∈ H, LeastInCoset H levels (h * x) := by
  obtain ⟨⟨a, ha⟩, hmin⟩ := Finite.exists_min fun h : H => baseImages levels (h.val * x).val
  refine ⟨a, ha, fun h hh => ?_⟩
  have hmem : ∀ b ∈ H, b * x ∈ topGroup n levels :=
    fun b hb => (topGroup n levels).mul_mem (hle hb) hx
  rw [← mul_assoc]
  rcases lt_or_eq_of_le (hmin ⟨h * a, H.mul_mem hh ha⟩) with hlt | heq
  · exact Or.inr hlt
  · exact Or.inl (hcomplete.eq_of_baseImages (hmem _ (H.mul_mem hh ha)) (hmem a ha) heq.symm)

/-- The least element of a right coset passes the test on the first image. -/
theorem LeastInCoset.startsAtMinimum (hleast : LeastInCoset H levels x) (hG : G.Presents n H)
    (hlt : ∀ level ∈ levels, level.basePoint < n) :
    ∀ v, v <+: baseImages levels x.val → startsAtMinimum G.orbitMinima v = true := by
  obtain rfl := hG.degree_eq
  intro v hv
  cases levels with
  | nil =>
      rw [List.prefix_nil.mp hv]
      rfl
  | cons level below =>
      rcases List.prefix_cons_iff.mp hv with rfl | ⟨v', rfl, -⟩
      · rfl
      · refine beq_iff_eq.mpr ?_
        obtain ⟨⟨h, hh, hval⟩, hmin⟩ :=
          orbitMinima_spec hG.on (x.smul_lt (hlt level List.mem_cons_self))
        rw [hG.span_eq] at hh hmin
        have hle := hmin 1 H.one_mem
        rw [one_smul] at hle
        refine Nat.le_antisymm hle (Nat.le_of_not_lt fun hsmaller => ?_)
        -- the element that reaches the smallest point would have smaller images
        have himage : h • x • level.basePoint < x • level.basePoint := hval ▸ hsmaller
        rw [← mul_smul] at himage
        have hbelow : baseImages (level :: below) (h * x).val
            < baseImages (level :: below) x.val := by
          rw [baseImages_cons, baseImages_cons, List.cons_lt_cons_iff]
          exact Or.inl himage
        rcases hleast h hh with hsame | habove
        · rw [hsame] at himage
          exact Nat.lt_irrefl _ himage
        · exact List.lt_asymm hbelow habove

end SignedGroup

end SlotSymmetry
