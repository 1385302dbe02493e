import Mathlib.Tactic.Ring
import SlotSymmetry.Chain.Build
import SlotSymmetry.Proofs.Chain.Complete

/-! # Lengths of orbits

    A level with a larger group at the same base point has a longer orbit or
    the same one, and a longer one if an element of the new group leaves the
    orbit.  One more generator makes such a level.  Where levels stand below one
    another, the orbit of a level avoids the base points before it; so there are
    at most `n` levels, and their orbits have at most `n + (n - 1) + … + 1`
    points together. -/

namespace SlotSymmetry

namespace Level

variable {n : Nat} {level level' : Level}

/-! ## Points of an orbit -/

theorem Sound.points_subset (hs : level.Sound n) (hs' : level'.Sound n)
    (hb : level'.basePoint = level.basePoint) (hle : level.group n ≤ level'.group n) :
    level.orbit.points.toList ⊆ level'.orbit.points.toList := by
  intro q hq
  have hq' := (hs.stage.contains_iff q).mpr (Array.mem_toList_iff.mp hq)
  obtain ⟨x, hx, rfl⟩ := hs.contains_iff.mp hq'
  have hcontains := hs'.contains_smul (hle hx)
  rw [hb] at hcontains
  exact Array.mem_toList_iff.mpr ((hs'.stage.contains_iff _).mp hcontains)

theorem Sound.length_le (hs : level.Sound n) (hs' : level'.Sound n)
    (hb : level'.basePoint = level.basePoint) (hle : level.group n ≤ level'.group n) :
    level.orbit.length ≤ level'.orbit.length := by
  have := hs.stage.nodup.length_le_of_subset (hs.points_subset hs' hb hle)
  rwa [Array.length_toList, Array.length_toList] at this

/-- An element that leaves the orbit makes it longer. -/
theorem Sound.length_lt (hs : level.Sound n) (hs' : level'.Sound n)
    (hb : level'.basePoint = level.basePoint) (hle : level.group n ≤ level'.group n)
    {x : Signed n} (hx : x ∈ level'.group n)
    (hleaves : level.orbit.contains (x • level.basePoint) = false) :
    level.orbit.length < level'.orbit.length := by
  have hnew : x • level.basePoint ∉ level.orbit.points.toList := by
    intro hmem
    rw [(hs.stage.contains_iff _).mpr (Array.mem_toList_iff.mp hmem)] at hleaves
    exact nomatch hleaves
  have hcontains := hs'.contains_smul hx
  rw [hb] at hcontains
  have hmem : x • level.basePoint ∈ level'.orbit.points.toList :=
    Array.mem_toList_iff.mpr ((hs'.stage.contains_iff _).mp hcontains)
  have hsub := List.cons_subset.mpr ⟨hmem, hs.points_subset hs' hb hle⟩
  have hlen := (List.nodup_cons.mpr ⟨hnew, hs.stage.nodup⟩).length_le_of_subset hsub
  rwa [List.length_cons, Array.length_toList, Array.length_toList] at hlen

theorem Sound.length_pos (hs : level.Sound n) : 1 ≤ level.orbit.length :=
  (Array.getElem?_eq_some_iff.mp hs.stage.first).1

/-- An element that moves the base point makes the orbit two points long. -/
theorem Sound.two_le_length (hs : level.Sound n) {x : Signed n} (hx : x ∈ level.group n)
    (hmoves : x • level.basePoint ≠ level.basePoint) : 2 ≤ level.orbit.length := by
  have hsub : [x • level.basePoint, level.basePoint] ⊆ level.orbit.points.toList := by
    intro q hq
    refine Array.mem_toList_iff.mpr ((hs.stage.contains_iff q).mp ?_)
    rcases List.mem_cons.mp hq with rfl | hq
    · exact hs.contains_smul hx
    · rw [List.mem_singleton.mp hq]
      exact hs.stage.contains_seed
  have hnodup : [x • level.basePoint, level.basePoint].Nodup := by
    simpa using hmoves
  have := hnodup.length_le_of_subset hsub
  rwa [Array.length_toList] at this

/-! ## One more generator -/

/-- The level lists no identity, and no generator twice. -/
structure Tidy (level : Level) : Prop where
  nodup : level.generators.Nodup
  moves : ∀ g ∈ level.generators, g.isIdentity = false

theorem mem_generators_adjoin {g h : SignedPerm} :
    g ∈ (level.adjoin n h).generators ↔ g ∈ level.generators ∨ g = h := by
  rw [adjoin]
  split
  · rename_i hmem
    refine ⟨Or.inl, ?_⟩
    rintro (hg | rfl)
    · exact hg
    · exact hmem
  · show g ∈ level.generators ++ [h] ↔ _
    rw [List.mem_append, List.mem_singleton]

theorem Sound.basePoint_adjoin (hs : level.Sound n) (h : SignedPerm) :
    (level.adjoin n h).basePoint = level.basePoint := by
  rw [adjoin]
  split
  · rfl
  · exact basePoint_ofGenerators hs.basePoint_lt

theorem Sound.adjoin (hs : level.Sound n) (h : Signed n) : (level.adjoin n h.val).Sound n := by
  rw [Level.adjoin]
  split
  · exact hs
  · refine ofGenerators_sound ?_ hs.basePoint_lt
    intro g hg
    rcases List.mem_append.mp hg with hg | hg
    · exact hs.on g hg
    · rw [List.mem_singleton.mp hg]
      exact h.on

theorem Tidy.adjoin (ht : level.Tidy) {h : SignedPerm} (hid : h.isIdentity = false) :
    (level.adjoin n h).Tidy := by
  refine ⟨?_, ?_⟩
  · rw [Level.adjoin]
    split
    · exact ht.nodup
    · rename_i hmem
      show (level.generators ++ [h]).Nodup
      rw [← List.concat_eq_append]
      exact ht.nodup.concat hmem
  · intro g hg
    rcases mem_generators_adjoin.mp hg with hg | rfl
    · exact ht.moves g hg
    · exact hid

theorem group_le_adjoin (h : SignedPerm) : level.group n ≤ (level.adjoin n h).group n :=
  span_mono fun _ hg => mem_generators_adjoin.mpr (Or.inl hg)

theorem mem_group_adjoin (h : Signed n) : h ∈ (level.adjoin n h.val).group n :=
  mem_span_of_mem h.on (mem_generators_adjoin.mpr (Or.inr rfl))

theorem group_adjoin_le {K : Subgroup (Signed n)} {h : Signed n} (hle : level.group n ≤ K)
    (hh : h ∈ K) : (level.adjoin n h.val).group n ≤ K := by
  refine span_le.mpr ?_
  intro g hg
  rcases mem_generators_adjoin.mp hg with hg | hg
  · exact hle (mem_span_of_mem g.on hg)
  · rwa [Signed.eq_of_val hg]

end Level

/-! ## Base points of stacked levels -/

section Bounds

variable {n : Nat} {levels : List Level}

theorem Level.Above.of_getElem? {i j : Nat} {upper lower : Level}
    (h : levels.Pairwise (Level.Above n)) (hij : i < j) (hi : levels[i]? = some upper)
    (hj : levels[j]? = some lower) : upper.Above n lower := by
  obtain ⟨hi', rfl⟩ := List.getElem?_eq_some_iff.mp hi
  obtain ⟨hj', rfl⟩ := List.getElem?_eq_some_iff.mp hj
  exact List.pairwise_iff_getElem.mp h i j hi' hj' hij

theorem nodup_basePoints (h : levels.Pairwise (Level.Above n)) :
    (levels.map (·.basePoint)).Nodup :=
  List.pairwise_map.mpr (h.imp fun habove => habove.ne)

/-- There are at most `n` levels. -/
theorem length_levels_le (hsound : ∀ level ∈ levels, level.Sound n)
    (h : levels.Pairwise (Level.Above n)) : levels.length ≤ n := by
  have hsub : levels.map (·.basePoint) ⊆ List.range n := by
    intro b hb
    obtain ⟨level, hl, rfl⟩ := List.mem_map.mp hb
    exact List.mem_range.mpr (hsound level hl).basePoint_lt
  have := (nodup_basePoints h).length_le_of_subset hsub
  rwa [List.length_map, List.length_range] at this

/-- The orbit of a level avoids the base points of the levels above. -/
theorem basePoint_not_mem_orbit {upper lower : Level} (habove : upper.Above n lower)
    (hs : lower.Sound n) : lower.orbit.contains upper.basePoint = false := by
  cases hc : lower.orbit.contains upper.basePoint with
  | false => rfl
  | true =>
      obtain ⟨x, hx, hact⟩ := hs.contains_iff.mp hc
      -- an element that led there would also send its own base point there
      have hfix : x • upper.basePoint = upper.basePoint :=
        MulAction.mem_stabilizer_iff.mp (habove.fixes hx)
      have heq : lower.basePoint = upper.basePoint :=
        smul_left_cancel x (hact.trans hfix.symm)
      exact absurd heq.symm habove.ne

theorem length_orbit_le (hsound : ∀ level ∈ levels, level.Sound n)
    (h : levels.Pairwise (Level.Above n)) {i : Nat} {level : Level}
    (hlevel : levels[i]? = some level) : level.orbit.length ≤ n - i := by
  have hs := hsound level (List.mem_of_getElem? hlevel)
  have hi : i < levels.length := (List.getElem?_eq_some_iff.mp hlevel).1
  -- the points of the orbit and the base points before are different points below `n`
  have hnodup : (level.orbit.points.toList ++ (levels.take i).map (·.basePoint)).Nodup := by
    refine List.nodup_append.mpr ⟨hs.stage.nodup, nodup_basePoints (h.take), ?_⟩
    rintro q hq q' hq' rfl
    obtain ⟨upper, hupper, rfl⟩ := List.mem_map.mp hq'
    obtain ⟨j, hj⟩ := List.mem_iff_getElem?.mp hupper
    have hji : j < i := by
      have := (List.getElem?_eq_some_iff.mp hj).1
      rw [List.length_take] at this
      omega
    rw [List.getElem?_take_of_lt hji] at hj
    have hout := basePoint_not_mem_orbit (Level.Above.of_getElem? h hji hj hlevel) hs
    rw [(hs.stage.contains_iff _).mpr (Array.mem_toList_iff.mp hq)] at hout
    exact nomatch hout
  have hsub : level.orbit.points.toList ++ (levels.take i).map (·.basePoint)
      ⊆ List.range n := by
    intro q hq
    rcases List.mem_append.mp hq with hq | hq
    · exact List.mem_range.mpr (hs.stage.lt_of_contains
        ((hs.stage.contains_iff q).mpr (Array.mem_toList_iff.mp hq)))
    · obtain ⟨upper, hupper, rfl⟩ := List.mem_map.mp hq
      exact List.mem_range.mpr (hsound upper (List.mem_of_mem_take hupper)).basePoint_lt
  have hlen := hnodup.length_le_of_subset hsub
  rw [List.length_append, Array.length_toList, List.length_map, List.length_take,
    List.length_range] at hlen
  show level.orbit.points.size ≤ n - i
  omega

/-- The number of points in the orbits of all levels. -/
def orbitSum (levels : List Level) : Nat := (levels.map (·.orbit.length)).sum

/-- Numbers below a falling staircase add up to at most a triangle. -/
theorem sum_le_triangle (l : List Nat) : ∀ n : Nat,
    (∀ i a : Nat, l[i]? = some a → a ≤ n - i) → l.sum ≤ n * (n + 1) / 2 := by
  induction l with
  | nil => intro n _; exact Nat.zero_le _
  | cons a l ih =>
      intro n h
      have hhead : a ≤ n := h 0 a rfl
      -- the rest starts one step lower
      have htail : l.sum ≤ (n - 1) * (n - 1 + 1) / 2 := by
        refine ih (n - 1) ?_
        intro i b hb
        have := h (i + 1) b hb
        omega
      cases n with
      | zero =>
          rw [List.sum_cons]
          omega
      | succ n =>
          have hstep : (n + 1) * (n + 1 + 1) = n * (n + 1) + 2 * (n + 1) := by ring
          rw [List.sum_cons, hstep]
          rw [Nat.add_sub_cancel] at htail
          omega

theorem orbitSum_le (hsound : ∀ level ∈ levels, level.Sound n)
    (h : levels.Pairwise (Level.Above n)) : orbitSum levels ≤ n * (n + 1) / 2 := by
  refine sum_le_triangle _ n ?_
  intro i a ha
  rw [List.getElem?_map] at ha
  obtain ⟨level, hlevel, rfl⟩ := Option.map_eq_some_iff.mp ha
  exact length_orbit_le hsound h hlevel

end Bounds

end SlotSymmetry
