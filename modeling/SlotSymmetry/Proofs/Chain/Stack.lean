import SlotSymmetry.Proofs.Chain.Layers

/-! # Stacked levels

    `Stacked n H levels` is what a draft keeps while it is worked on: the levels
    are sound, each stands below the ones before it, none lists an identity or
    the same generator twice, and the first spans `H`.  Adjoining an element to
    a range of levels keeps all this if the element fits (`Fits`): it comes from
    the level above the range, fixes the base points before the last level of
    the range, and leaves the orbit of that level.  No orbit becomes shorter
    then, and the orbit of the last level of the range becomes longer. -/

namespace SlotSymmetry

/-- Levels that stand below one another, the first of them for the group `H`. -/
structure Stacked (n : Nat) (H : Subgroup (Signed n)) (levels : List Level) : Prop where
  sound : ∀ level ∈ levels, level.Sound n
  above : levels.Pairwise (Level.Above n)
  tidy : ∀ level ∈ levels, level.Tidy
  top : topGroup n levels = H

/-- Every level holds elements of `H` only. -/
theorem Stacked.group_le {n : Nat} {H : Subgroup (Signed n)} {levels : List Level}
    (h : Stacked n H levels) {level : Level} (hlevel : level ∈ levels) : level.group n ≤ H := by
  rw [← h.top]
  exact group_le_topGroup (h.above.imp (·.le)) hlevel

/-- An element of level `i` fixes the base points before, besides those it is known to fix. -/
theorem Stacked.fixes_take {n : Nat} {H : Subgroup (Signed n)} {levels : List Level}
    (h : Stacked n H levels) {i k : Nat} {level : Level} {r : Signed n}
    (hlevel : levels[i]? = some level) (hmem : r ∈ level.group n)
    (hfixes : ∀ l ∈ level :: (levels.drop (i + 1)).take k, r • l.basePoint = l.basePoint) :
    ∀ l ∈ levels.take (i + 1 + k), r • l.basePoint = l.basePoint := by
  intro l hl
  obtain ⟨j, hj⟩ := List.mem_iff_getElem?.mp hl
  have hjlt : j < i + 1 + k := by
    have := (List.getElem?_eq_some_iff.mp hj).1
    rw [List.length_take] at this
    omega
  rw [List.getElem?_take_of_lt hjlt] at hj
  -- above level `i` all its elements fix the base point, at it and below `hfixes` says so
  rcases Nat.lt_trichotomy j i with hlt | rfl | hgt
  · have habove := Level.Above.of_getElem? h.above hlt hj hlevel
    exact MulAction.mem_stabilizer_iff.mp (habove.fixes hmem)
  · rw [← Option.some.inj (hlevel.symm.trans hj)]
    exact hfixes level List.mem_cons_self
  · refine hfixes l (List.mem_cons_of_mem _ (List.mem_iff_getElem?.mpr ⟨j - (i + 1), ?_⟩))
    rw [List.getElem?_take_of_lt (by omega), List.getElem?_drop,
      show i + 1 + (j - (i + 1)) = j by omega]
    exact hj

/-- An element of level `i` that can be adjoined to the levels after it, up to `stop`. -/
structure Fits (n : Nat) (levels : List Level) (i stop : Nat) (h : Signed n) : Prop where
  lt : i < stop
  mem : ∀ level, levels[i]? = some level → h ∈ level.group n
  fixes : ∀ level ∈ levels.take stop, h • level.basePoint = level.basePoint
  leaves : ∃ level, levels[stop]? = some level
    ∧ level.orbit.contains (h • level.basePoint) = false

theorem topGroup_congr {n : Nat} {levels levels' : List Level}
    (h : levels'[0]? = levels[0]?) : topGroup n levels' = topGroup n levels := by
  cases levels' with
  | nil =>
      cases levels with
      | nil => rfl
      | cons level below => exact nomatch h
  | cons level' below' =>
      cases levels with
      | nil => exact nomatch h
      | cons level below =>
          obtain rfl : level' = level := Option.some.inj h
          rfl

section Lists

theorem sum_map_le_mapIdx {α : Type} (m : α → Nat) (l : List α) : ∀ f : Nat → α → α,
    (∀ (i : Nat) (a : α), l[i]? = some a → m a ≤ m (f i a)) →
    (l.map m).sum ≤ ((l.mapIdx f).map m).sum := by
  induction l with
  | nil => intro f _; exact Nat.le_refl _
  | cons a l ih =>
      intro f hle
      rw [List.mapIdx_cons, List.map_cons, List.map_cons, List.sum_cons, List.sum_cons]
      have hhead := hle 0 a rfl
      have htail := ih (fun i => f (i + 1)) (fun i b hb => hle (i + 1) b hb)
      omega

theorem sum_map_lt_mapIdx {α : Type} (m : α → Nat) (l : List α) : ∀ f : Nat → α → α,
    (∀ (i : Nat) (a : α), l[i]? = some a → m a ≤ m (f i a)) →
    (∃ (i : Nat) (a : α), l[i]? = some a ∧ m a < m (f i a)) →
    (l.map m).sum < ((l.mapIdx f).map m).sum := by
  induction l with
  | nil => rintro f _ ⟨i, a, hi, -⟩; exact nomatch hi
  | cons a l ih =>
      rintro f hle ⟨i, b, hi, hlt⟩
      rw [List.mapIdx_cons, List.map_cons, List.map_cons, List.sum_cons, List.sum_cons]
      have hhead := hle 0 a rfl
      have hle' : ∀ (i : Nat) (b : α), l[i]? = some b → m b ≤ m (f (i + 1) b) :=
        fun i b hb => hle (i + 1) b hb
      cases i with
      | zero =>
          obtain rfl : a = b := Option.some.inj hi
          have htail := sum_map_le_mapIdx m l (fun i => f (i + 1)) hle'
          omega
      | succ i =>
          have htail := ih (fun i => f (i + 1)) hle' ⟨i, b, hi, hlt⟩
          omega

end Lists

/-! ## Taking in an element -/

/-- What becomes of a level that takes in `h` if it is in range. -/
structure Level.Takes {n : Nat} (h : Signed n) (inRange : Prop) (level level' : Level) :
    Prop where
  sound : level'.Sound n
  basePoint_eq : level'.basePoint = level.basePoint
  le : level.group n ≤ level'.group n
  mem : inRange → h ∈ level'.group n
  group_le : ∀ {K : Subgroup (Signed n)}, level.group n ≤ K → (inRange → h ∈ K) →
    level'.group n ≤ K

section Takes

variable {n : Nat} {level level' : Level} {h : Signed n} {inRange : Prop}

theorem Level.Sound.takes_adjoin (hs : level.Sound n) (hin : inRange) :
    level.Takes h inRange (level.adjoin n h.val) := by
  refine ⟨hs.adjoin h, hs.basePoint_adjoin h.val, Level.group_le_adjoin h.val, ?_, ?_⟩
  · exact fun _ => Level.mem_group_adjoin h
  · exact fun hle hmem => Level.group_adjoin_le hle (hmem hin)

theorem Level.Sound.takes_self (hs : level.Sound n) (hout : ¬ inRange) :
    level.Takes h inRange level :=
  ⟨hs, rfl, le_refl _, fun hin => absurd hin hout, fun hle _ => hle⟩

theorem Level.Takes.length_le (ht : level.Takes h inRange level') (hs : level.Sound n) :
    level.orbit.length ≤ level'.orbit.length :=
  hs.length_le ht.sound ht.basePoint_eq ht.le

theorem Level.Takes.length_lt (ht : level.Takes h inRange level') (hs : level.Sound n)
    (hin : inRange) (hleaves : level.orbit.contains (h • level.basePoint) = false) :
    level.orbit.length < level'.orbit.length :=
  hs.length_lt ht.sound ht.basePoint_eq ht.le (ht.mem hin) hleaves

end Takes

/-! ## Adjoining to a range -/

section Adjoin

variable {n : Nat} {H : Subgroup (Signed n)} {d : Chain.Draft} {i stop : Nat} {h : Signed n}

theorem getElem?_adjoin {p : SignedPerm} {first last j : Nat} :
    (d.adjoin p first last)[j]? = d.levels[j]?.map fun level =>
      if first ≤ j ∧ j ≤ last then level.adjoin d.degree p else level :=
  List.getElem?_mapIdx

/-- The level at a place after the adjoining, from the one before. -/
theorem exists_of_getElem?_adjoin {p : SignedPerm} {first last j : Nat} {level' : Level}
    (hj : (d.adjoin p first last)[j]? = some level') :
    ∃ level, d.levels[j]? = some level
      ∧ level' = if first ≤ j ∧ j ≤ last then level.adjoin d.degree p else level := by
  rw [getElem?_adjoin] at hj
  obtain ⟨level, hlevel, hadjoin⟩ := Option.map_eq_some_iff.mp hj
  exact ⟨level, hlevel, hadjoin.symm⟩

theorem Fits.mem_of_le (hfit : Fits n d.levels i stop h)
    (habove : d.levels.Pairwise (Level.Above n)) {a : Nat} {upper : Level} (ha : a ≤ i)
    (hupper : d.levels[a]? = some upper) : h ∈ upper.group n := by
  obtain ⟨last, hlast, -⟩ := hfit.leaves
  have hi : i < d.levels.length :=
    Nat.lt_trans hfit.lt (List.getElem?_eq_some_iff.mp hlast).1
  have hlevel : d.levels[i]? = some d.levels[i] := List.getElem?_eq_getElem hi
  rcases Nat.lt_or_eq_of_le ha with hlt | rfl
  · exact (Level.Above.of_getElem? habove hlt hupper hlevel).le (hfit.mem _ hlevel)
  · exact hfit.mem upper hupper

theorem Fits.isIdentity_eq_false (hfit : Fits n d.levels i stop h)
    (hsound : ∀ level ∈ d.levels, level.Sound n) : h.val.isIdentity = false := by
  obtain ⟨level, hlevel, hleaves⟩ := hfit.leaves
  cases hid : h.val.isIdentity with
  | false => rfl
  | true =>
      have hs := hsound level (List.mem_of_getElem? hlevel)
      rw [h.isIdentity_iff.mp hid, hs.stage.contains_seed] at hleaves
      exact nomatch hleaves

section Stacked

variable (hd : d.degree = n) (hstack : Stacked n H d.levels)
include hd hstack

theorem takes_at {j : Nat} {level : Level} (hlevel : d.levels[j]? = some level) :
    level.Takes h (i + 1 ≤ j ∧ j ≤ stop)
      (if i + 1 ≤ j ∧ j ≤ stop then level.adjoin d.degree h.val else level) := by
  have hs := hstack.sound level (List.mem_of_getElem? hlevel)
  rw [hd]
  split
  · rename_i hin
    exact hs.takes_adjoin hin
  · rename_i hout
    exact hs.takes_self hout

theorem adjoin_takes {j : Nat} {level' : Level}
    (hj : (d.adjoin h.val (i + 1) stop)[j]? = some level') :
    ∃ level, d.levels[j]? = some level ∧ level.Takes h (i + 1 ≤ j ∧ j ≤ stop) level' := by
  obtain ⟨level, hlevel, rfl⟩ := exists_of_getElem?_adjoin hj
  exact ⟨level, hlevel, takes_at hd hstack hlevel⟩

theorem adjoin_basePoints :
    (d.adjoin h.val (i + 1) stop).map (·.basePoint) = d.levels.map (·.basePoint) := by
  refine List.ext_getElem? ?_
  intro j
  rw [List.getElem?_map, List.getElem?_map]
  cases hj : (d.adjoin h.val (i + 1) stop)[j]? with
  | none =>
      rw [getElem?_adjoin, Option.map_eq_none_iff] at hj
      rw [hj]
  | some level' =>
      obtain ⟨level, hlevel, htakes⟩ := adjoin_takes hd hstack hj
      rw [hlevel, Option.map_some, Option.map_some, htakes.basePoint_eq]

theorem adjoin_sound : ∀ level ∈ d.adjoin h.val (i + 1) stop, level.Sound n := by
  intro level' hmem
  obtain ⟨j, hj⟩ := List.mem_iff_getElem?.mp hmem
  obtain ⟨level, -, htakes⟩ := adjoin_takes hd hstack hj
  exact htakes.sound

variable (hfit : Fits n d.levels i stop h)
include hfit

omit hd in
theorem adjoin_tidy : ∀ level ∈ d.adjoin h.val (i + 1) stop, level.Tidy := by
  intro level' hmem
  obtain ⟨j, hj⟩ := List.mem_iff_getElem?.mp hmem
  obtain ⟨level, hlevel, rfl⟩ := exists_of_getElem?_adjoin hj
  have ht := hstack.tidy level (List.mem_of_getElem? hlevel)
  split
  · exact ht.adjoin (hfit.isIdentity_eq_false hstack.sound)
  · exact ht

theorem adjoin_above : (d.adjoin h.val (i + 1) stop).Pairwise (Level.Above n) := by
  refine pairwise_of_getElem? ?_
  intro a b upper' lower' hab ha hb
  obtain ⟨upper, hupper, htu⟩ := adjoin_takes hd hstack ha
  obtain ⟨lower, hlower, htl⟩ := adjoin_takes hd hstack hb
  have hold := Level.Above.of_getElem? hstack.above hab hupper hlower
  refine ⟨htl.group_le (hold.le.trans htu.le) ?_, ?_, ?_⟩
  · -- a level that takes in `h` stands below levels that take it in or had it before
    rintro ⟨-, hstop⟩
    by_cases hrange : i + 1 ≤ a
    · exact htu.mem ⟨hrange, by omega⟩
    · exact htu.le (hfit.mem_of_le hstack.above (by omega) hupper)
  · rw [htu.basePoint_eq]
    refine htl.group_le hold.fixes ?_
    rintro ⟨-, hstop⟩
    refine MulAction.mem_stabilizer_iff.mpr (hfit.fixes upper ?_)
    refine List.mem_iff_getElem?.mpr ⟨a, ?_⟩
    rw [List.getElem?_take_of_lt (by omega)]
    exact hupper
  · rw [htu.basePoint_eq, htl.basePoint_eq]
    exact hold.ne

theorem adjoin_stacked : Stacked n H (d.adjoin h.val (i + 1) stop) := by
  refine ⟨adjoin_sound hd hstack, adjoin_above hd hstack hfit, adjoin_tidy hstack hfit, ?_⟩
  -- the first level is not in the range
  rw [← hstack.top]
  refine topGroup_congr ?_
  rw [getElem?_adjoin]
  cases d.levels[0]? with
  | none => rfl
  | some level => rw [Option.map_some, if_neg (by omega)]

/-- No orbit becomes shorter, and the one at which `h` stopped becomes longer. -/
theorem orbitSum_lt_adjoin : orbitSum d.levels < orbitSum (d.adjoin h.val (i + 1) stop) := by
  refine sum_map_lt_mapIdx (fun level : Level => level.orbit.length) d.levels _ ?_ ?_
  · intro j level hlevel
    have hs := hstack.sound level (List.mem_of_getElem? hlevel)
    exact (takes_at hd hstack hlevel).length_le hs
  · obtain ⟨last, hlast, hleaves⟩ := hfit.leaves
    have hs := hstack.sound last (List.mem_of_getElem? hlast)
    refine ⟨stop, last, hlast, ?_⟩
    exact (takes_at hd hstack hlast).length_lt hs ⟨hfit.lt, Nat.le_refl _⟩ hleaves

end Stacked

/-- The levels below the range stay as they are. -/
theorem drop_adjoin {p : SignedPerm} {first last : Nat} :
    (d.adjoin p first last).drop (last + 1) = d.levels.drop (last + 1) := by
  refine List.ext_getElem? ?_
  intro j
  rw [List.getElem?_drop, List.getElem?_drop, getElem?_adjoin]
  cases d.levels[last + 1 + j]? with
  | none => rfl
  | some level => rw [Option.map_some, if_neg (by omega)]

end Adjoin

/-! ## A new level -/

section Deepen

variable {n : Nat} {H : Subgroup (Signed n)} {levels : List Level} {h : Signed n} {point : Nat}
variable (hpoint : h.val.firstMoved = some point)
variable (hfix : ∀ level ∈ levels, h • level.basePoint = level.basePoint)
include hpoint

theorem firstMoved_lt : point < n := by
  have hlt := SignedPerm.lt_of_firstMoved hpoint
  rwa [h.on.degree_eq] at hlt

/-- The new level, with no generators yet. -/
theorem new_sound : (Level.ofGenerators n [] point).Sound n :=
  Level.ofGenerators_sound (fun _ hg => absurd hg List.not_mem_nil) (firstMoved_lt hpoint)

theorem new_leaves : (Level.ofGenerators n [] point).orbit.contains (h • point) = false := by
  have hs := new_sound hpoint
  cases hc : (Level.ofGenerators n [] point).orbit.contains (h • point) with
  | false => rfl
  | true =>
      obtain ⟨x, hx, hact⟩ := hs.contains_iff.mp hc
      -- no generators, so only the identity
      obtain rfl : x = 1 := Subgroup.mem_bot.mp (span_nil ▸ hx)
      rw [one_smul, Level.basePoint_ofGenerators (firstMoved_lt hpoint)] at hact
      exact absurd hact.symm (SignedPerm.act_ne_of_firstMoved hpoint)

include hfix

theorem deepen_stacked (hstack : Stacked n H levels) (hne : levels ≠ []) :
    Stacked n H (levels ++ [.ofGenerators n [] point]) := by
  have hs := new_sound hpoint
  refine ⟨?_, ?_, ?_, ?_⟩
  · rintro level hmem
    rcases List.mem_append.mp hmem with hmem | hmem
    · exact hstack.sound level hmem
    · rw [List.mem_singleton.mp hmem]
      exact hs
  · refine List.pairwise_append.mpr ⟨hstack.above, List.pairwise_singleton _ _, ?_⟩
    intro upper hupper lower hlower
    obtain rfl := List.mem_singleton.mp hlower
    have hbot : (Level.ofGenerators n [] point).group n = ⊥ := span_nil
    refine ⟨hbot ▸ bot_le, hbot ▸ bot_le, ?_⟩
    rw [Level.basePoint_ofGenerators (firstMoved_lt hpoint)]
    -- `h` moves the new base point and fixes the old ones
    rintro rfl
    exact SignedPerm.act_ne_of_firstMoved hpoint (hfix upper hupper)
  · rintro level hmem
    rcases List.mem_append.mp hmem with hmem | hmem
    · exact hstack.tidy level hmem
    · rw [List.mem_singleton.mp hmem]
      exact ⟨List.nodup_nil, fun g hg => absurd hg List.not_mem_nil⟩
  · rw [← hstack.top]
    refine topGroup_congr ?_
    rw [List.getElem?_append_left (List.length_pos_of_ne_nil hne)]

theorem deepen_fits {i : Nat} {upper : Level} (hupper : levels[i]? = some upper)
    (hmem : h ∈ upper.group n) :
    Fits n (levels ++ [.ofGenerators n [] point]) i levels.length h := by
  have hi : i < levels.length := (List.getElem?_eq_some_iff.mp hupper).1
  refine ⟨hi, ?_, ?_, ?_⟩
  · intro level hlevel
    rw [List.getElem?_append_left hi] at hlevel
    rwa [← Option.some.inj (hupper.symm.trans hlevel)]
  · rw [List.take_left]
    exact hfix
  · refine ⟨.ofGenerators n [] point, List.getElem?_concat_length, ?_⟩
    rw [Level.basePoint_ofGenerators (firstMoved_lt hpoint)]
    exact new_leaves hpoint

end Deepen

end SlotSymmetry
