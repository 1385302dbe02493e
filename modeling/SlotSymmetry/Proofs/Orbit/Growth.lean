import Mathlib.Data.List.Nodup
import SlotSymmetry.Orbit.Basic

/-! # How an orbit grows

    `Stage` is the invariant of the search: the points found so far are
    distinct, they are the points that are marked and the points that have a
    link, and every link but the root's leads to a point found earlier.  One reach keeps it, hence so do a
    whole expansion, a sweep and the growth.  A sweep leaves the images of its
    point inside, and later sweeps never take a point or a link away
    (`Extends`), so the grown orbit is closed under the generators. -/

namespace SlotSymmetry

/-! ## Lists and tables -/

theorem pairwise_of_getElem? {α : Type} {R : α → α → Prop} {l : List α}
    (h : ∀ (i j : Nat) (a b : α), i < j → l[i]? = some a → l[j]? = some b → R a b) :
    l.Pairwise R := by
  refine List.pairwise_iff_getElem.mpr ?_
  intro i j hi hj hij
  exact h i j _ _ hij (List.getElem?_eq_getElem hi) (List.getElem?_eq_getElem hj)

theorem getD_setIfInBounds {α : Type} {table : Array α} {q : Nat} (h : q < table.size)
    (a default : α) (r : Nat) :
    (table.setIfInBounds q a).getD r default = if r = q then a else table.getD r default := by
  rw [Array.getD_eq_getD_getElem?, Array.getD_eq_getD_getElem?, Array.getElem?_setIfInBounds]
  by_cases hr : r = q
  · rw [if_pos hr.symm, if_pos h, if_pos hr, Option.getD_some]
  · rw [if_neg (Ne.symm hr), if_neg hr]

theorem getD_replicate {α : Type} (n r : Nat) (a : α) : (Array.replicate n a).getD r a = a := by
  rw [Array.getD_eq_getD_getElem?, Array.getElem?_replicate]
  split
  · rfl
  · rfl

namespace Orbit

/-! ## Stages -/

/-- A stage of the growth from the seed under the generators. -/
structure Stage (n : Nat) (gens : List SignedPerm) (seed : Nat) (o : Orbit) : Prop where
  seed_eq : o.seed = seed
  degree_eq : o.degree = n
  size_links : o.links.size = n
  first : o.points[0]? = some seed
  nodup : o.points.toList.Nodup
  contains_iff : ∀ q, o.contains q = true ↔ q ∈ o.points
  linked_iff : ∀ q, (o.link q).isSome = true ↔ q ∈ o.points
  root_iff : ∀ q, o.link q = some .root ↔ q = seed
  step : ∀ place q i : Nat, o.points[place]? = some q → o.link q = some (.step i) →
    ∃ (g : SignedPerm) (earlier p : Nat), gens[i]? = some g ∧ earlier < place
      ∧ o.points[earlier]? = some p ∧ g.act p = q

/-- The later orbit has the points of the earlier one at the same places, with the same
    links. -/
structure Extends (o o' : Orbit) : Prop where
  points : ∀ place q : Nat, o.points[place]? = some q → o'.points[place]? = some q
  contains : ∀ {q : Nat}, o.contains q = true → o'.contains q = true
  link : ∀ q l, o.link q = some l → o'.link q = some l

theorem Extends.refl (o : Orbit) : Extends o o := ⟨fun _ _ h => h, fun h => h, fun _ _ h => h⟩

theorem Extends.trans {o o' o'' : Orbit} (h : Extends o o') (h' : Extends o' o'') :
    Extends o o'' :=
  ⟨fun place q hq => h'.points place q (h.points place q hq),
    fun hq => h'.contains (h.contains hq),
    fun q l hl => h'.link q l (h.link q l hl)⟩

/-! ## One reach -/

theorem lt_of_contains {o : Orbit} {q : Nat} (h : o.contains q = true) : q < o.degree := by
  by_cases hq : q < o.degree
  · exact hq
  · rw [contains, Array.getD_eq_getD_getElem?, Array.getElem?_eq_none (Nat.le_of_not_lt hq)] at h
    exact absurd h Bool.false_ne_true

theorem getElem?_members_eq_iff {o : Orbit} {q : Nat} :
    o.members[q]? = some false ↔ q < o.degree ∧ o.contains q = false := by
  rw [contains, Array.getD_eq_getD_getElem?]
  by_cases h : q < o.members.size
  · rw [Array.getElem?_eq_getElem h, Option.getD_some, Option.some.injEq]
    exact ⟨fun hq => ⟨h, hq⟩, fun hq => hq.2⟩
  · rw [Array.getElem?_eq_none (by omega)]
    exact ⟨nofun, fun hq => absurd hq.1 h⟩

theorem reach_of_known {o : Orbit} {q i : Nat} (h : ¬ (q < o.degree ∧ o.contains q = false)) :
    o.reach q i = o := by
  rw [reach, if_neg (fun hl => h (getElem?_members_eq_iff.mp hl))]

theorem reach_of_new {o : Orbit} {q i : Nat} (h : q < o.degree ∧ o.contains q = false) :
    o.reach q i
      = ⟨o.seed, o.points.push q, o.members.setIfInBounds q true,
          o.links.setIfInBounds q (some (.step i))⟩ := by
  rw [reach, if_pos (getElem?_members_eq_iff.mpr h)]

theorem contains_reach_of_new {o : Orbit} {q i : Nat} (h : q < o.degree ∧ o.contains q = false)
    (r : Nat) : (o.reach q i).contains r = if r = q then true else o.contains r := by
  rw [reach_of_new h]
  exact getD_setIfInBounds h.1 true false r

theorem getElem?_points_reach_of_new {o : Orbit} {q i : Nat}
    (h : q < o.degree ∧ o.contains q = false) (place : Nat) :
    (o.reach q i).points[place]?
      = if place = o.points.size then some q else o.points[place]? := by
  rw [reach_of_new h]
  exact Array.getElem?_push

theorem degree_reach (o : Orbit) (q i : Nat) : (o.reach q i).degree = o.degree := by
  by_cases h : q < o.degree ∧ o.contains q = false
  · rw [reach_of_new h]
    exact Array.size_setIfInBounds
  · rw [reach_of_known h]

/-- After the reach the point is there, if it is one of `0..degree`. -/
theorem contains_reach_self {o : Orbit} {q i : Nat} (h : q < o.degree) :
    (o.reach q i).contains q = true := by
  cases hq : o.contains q with
  | false => rw [contains_reach_of_new ⟨h, hq⟩, if_pos rfl]
  | true =>
      rw [reach_of_known]
      · exact hq
      · rintro ⟨-, hnew⟩
        exact Bool.noConfusion (hq.symm.trans hnew)

section Stage

variable {n : Nat} {gens : List SignedPerm} {seed : Nat} {o : Orbit}

theorem Stage.contains_seed (h : Stage n gens seed o) : o.contains seed = true :=
  (h.contains_iff seed).mpr (Array.mem_of_getElem? h.first)

/-- A point is marked exactly if it has a link. -/
theorem Stage.isSome_link (h : Stage n gens seed o) (q : Nat) : (o.link q).isSome = o.contains q :=
  Bool.eq_iff_iff.mpr ((h.linked_iff q).trans (h.contains_iff q).symm)

theorem Stage.link_eq_none_iff (h : Stage n gens seed o) {q : Nat} :
    o.link q = none ↔ o.contains q = false := by
  rw [← h.isSome_link q, Option.isSome_eq_false_iff, Option.isNone_iff_eq_none]

theorem Stage.link_reach_of_new (h : Stage n gens seed o) {q i : Nat}
    (hnew : q < o.degree ∧ o.contains q = false) (r : Nat) :
    (o.reach q i).link r = if r = q then some (.step i) else o.link r := by
  have hq : q < o.links.size := by
    rw [h.size_links, ← h.degree_eq]
    exact hnew.1
  rw [reach_of_new hnew]
  exact getD_setIfInBounds hq (some (.step i)) none r

theorem Stage.reach_extends (h : Stage n gens seed o) (q i : Nat) : Extends o (o.reach q i) := by
  by_cases hnew : q < o.degree ∧ o.contains q = false
  · have hne : ∀ r, o.contains r = true → r ≠ q := by
      rintro r hr rfl
      exact Bool.noConfusion (hr.symm.trans hnew.2)
    refine ⟨?_, ?_, ?_⟩
    · intro place r hr
      rw [getElem?_points_reach_of_new hnew, if_neg]
      · exact hr
      · rintro rfl
        rw [Array.getElem?_eq_none (Nat.le_refl _)] at hr
        exact nomatch hr
    · intro r hr
      rw [contains_reach_of_new hnew, if_neg (hne r hr)]
      exact hr
    · intro r l hl
      have hr : o.contains r = true := by
        rw [← h.isSome_link r, hl]
        rfl
      rw [h.link_reach_of_new hnew, if_neg (hne r hr)]
      exact hl
  · rw [reach_of_known hnew]
    exact Extends.refl o

theorem Stage.lt_of_contains (h : Stage n gens seed o) {q : Nat} (hq : o.contains q = true) :
    q < n :=
  h.degree_eq ▸ Orbit.lt_of_contains hq

theorem Stage.contains_of_getElem? (h : Stage n gens seed o) {place q : Nat}
    (hq : o.points[place]? = some q) : o.contains q = true :=
  (h.contains_iff q).mpr (Array.mem_of_getElem? hq)

theorem Stage.exists_place (h : Stage n gens seed o) {q : Nat} (hq : o.contains q = true) :
    ∃ place : Nat, o.points[place]? = some q := by
  obtain ⟨place, hplace, hat⟩ := Array.mem_iff_getElem.mp ((h.contains_iff q).mp hq)
  exact ⟨place, hat ▸ Array.getElem?_eq_getElem hplace⟩

/-- There are at most `n` points. -/
theorem Stage.length_le (h : Stage n gens seed o) : o.length ≤ n := by
  have hsub : o.points.toList ⊆ List.range n := by
    intro q hq
    have hcontains := (h.contains_iff q).mpr (Array.mem_toList_iff.mp hq)
    exact List.mem_range.mpr (h.lt_of_contains hcontains)
  have hle := h.nodup.length_le_of_subset hsub
  rwa [List.length_range, Array.length_toList] at hle

/-- The links of a stage after a new point: its own names the generator that led to it from a
    point found before. -/
theorem Stage.step_reach (h : Stage n gens seed o) {g : SignedPerm} {i earlier p : Nat}
    (hg : gens[i]? = some g) (hp : o.points[earlier]? = some p)
    (hnew : g.act p < o.degree ∧ o.contains (g.act p) = false) {place q j : Nat}
    (hq : (o.reach (g.act p) i).points[place]? = some q)
    (hj : (o.reach (g.act p) i).link q = some (.step j)) :
    ∃ (g' : SignedPerm) (earlier' p' : Nat), gens[j]? = some g' ∧ earlier' < place
      ∧ (o.reach (g.act p) i).points[earlier']? = some p' ∧ g'.act p' = q := by
  have hkeep := (h.reach_extends (g.act p) i).points
  rw [getElem?_points_reach_of_new hnew] at hq
  rw [h.link_reach_of_new hnew] at hj
  by_cases hplace : place = o.points.size
  · rw [if_pos hplace] at hq
    obtain rfl : g.act p = q := Option.some.inj hq
    rw [if_pos rfl] at hj
    obtain rfl : i = j := Link.step.inj (Option.some.inj hj)
    have hearlier : earlier < place := hplace ▸ (Array.getElem?_eq_some_iff.mp hp).1
    exact ⟨g, earlier, p, hg, hearlier, hkeep _ _ hp, rfl⟩
  · rw [if_neg hplace] at hq
    have hknown : q ≠ g.act p := by
      rintro rfl
      rw [h.contains_of_getElem? hq] at hnew
      exact nomatch hnew.2
    rw [if_neg hknown] at hj
    obtain ⟨g', earlier', p', hg', hlt, hp', hact⟩ := h.step place q j hq hj
    exact ⟨g', earlier', p', hg', hlt, hkeep _ _ hp', hact⟩

/-- Reaching the image of a point found before, by the generator with its index. -/
theorem Stage.reach (h : Stage n gens seed o) {g : SignedPerm} {i earlier p : Nat}
    (hg : gens[i]? = some g) (hp : o.points[earlier]? = some p) :
    Stage n gens seed (o.reach (g.act p) i) := by
  by_cases hnew : g.act p < o.degree ∧ o.contains (g.act p) = false
  · have hnotin : g.act p ∉ o.points := by
      intro hmem
      rw [(h.contains_iff _).mpr hmem] at hnew
      exact nomatch hnew.2
    have hpoints : (o.reach (g.act p) i).points = o.points.push (g.act p) := by
      rw [reach_of_new hnew]
    refine ⟨?_, ?_, ?_, ?_, ?_, ?_, ?_, ?_, ?_⟩
    · rw [reach_of_new hnew]
      exact h.seed_eq
    · rw [degree_reach]
      exact h.degree_eq
    · rw [reach_of_new hnew]
      exact Array.size_setIfInBounds.trans h.size_links
    · exact (h.reach_extends _ i).points _ _ h.first
    · rw [hpoints, Array.toList_push, ← List.concat_eq_append]
      exact h.nodup.concat fun hmem => hnotin (Array.mem_toList_iff.mp hmem)
    · intro q
      rw [contains_reach_of_new hnew, hpoints, Array.mem_push]
      by_cases hq : q = g.act p
      · rw [if_pos hq]
        exact ⟨fun _ => Or.inr hq, fun _ => rfl⟩
      · rw [if_neg hq, ← h.contains_iff q]
        exact ⟨Or.inl, fun hor => hor.resolve_right hq⟩
    · intro q
      rw [h.link_reach_of_new hnew, hpoints, Array.mem_push]
      by_cases hq : q = g.act p
      · rw [if_pos hq]
        exact ⟨fun _ => Or.inr hq, fun _ => rfl⟩
      · rw [if_neg hq, ← h.linked_iff q]
        exact ⟨Or.inl, fun hor => hor.resolve_right hq⟩
    · -- the seed was there before, so the new point is not the root
      intro q
      rw [h.link_reach_of_new hnew, ← h.root_iff q]
      by_cases hq : q = g.act p
      · rw [if_pos hq]
        refine ⟨nofun, fun hroot => ?_⟩
        rw [← hq, ← h.isSome_link q, hroot] at hnew
        exact nomatch hnew.2
      · rw [if_neg hq]
    · exact fun place q j hq hj => h.step_reach hg hp hnew hq hj
  · rw [reach_of_known hnew]
    exact h

theorem start_stage (gens : List SignedPerm) (h : seed < n) :
    Stage n gens seed (start n seed) := by
  have hcontains : ∀ q, (start n seed).contains q = if q = seed then true else false := by
    intro q
    have hsize : seed < (Array.replicate n false).size := by rwa [Array.size_replicate]
    have hentry := getD_setIfInBounds hsize true false q
    rwa [getD_replicate] at hentry
  have hlink : ∀ q, (start n seed).link q = if q = seed then some .root else none := by
    intro q
    have hsize : seed < (Array.replicate n (none : Option Link)).size := by
      rwa [Array.size_replicate]
    have hentry := getD_setIfInBounds hsize (some .root) none q
    rwa [getD_replicate] at hentry
  have hmem : ∀ q, q ∈ (start n seed).points ↔ q = seed := by
    intro q
    show q ∈ #[seed] ↔ q = seed
    exact Array.mem_singleton
  refine ⟨rfl, ?_, ?_, rfl, List.nodup_singleton _, ?_, ?_, ?_, ?_⟩
  · show ((Array.replicate n false).setIfInBounds seed true).size = n
    rw [Array.size_setIfInBounds, Array.size_replicate]
  · show ((Array.replicate n none).setIfInBounds seed (some Link.root)).size = n
    rw [Array.size_setIfInBounds, Array.size_replicate]
  · intro q
    rw [hcontains, hmem]
    by_cases hq : q = seed
    · simp [hq]
    · simp [hq]
  · intro q
    rw [hlink, hmem]
    by_cases hq : q = seed
    · simp [hq]
    · simp [hq]
  · intro q
    rw [hlink]
    by_cases hq : q = seed
    · simp [hq]
    · simp [hq]
  · intro place q i _ hl
    rw [hlink] at hl
    split at hl
    · exact nomatch hl
    · exact nomatch hl

/-! ## Expansion, sweeps, growth -/

/-- The images of this point under the generators are there. -/
def Swept (gens : List SignedPerm) (o : Orbit) (p : Nat) : Prop :=
  ∀ g ∈ gens, g.act p < o.degree → o.contains (g.act p) = true

theorem Swept.extend {gens : List SignedPerm} {o o' : Orbit} {p : Nat} (h : Swept gens o p)
    (hext : Extends o o') (hdegree : o'.degree = o.degree) : Swept gens o' p :=
  fun g hg hlt => hext.contains (h g hg (hdegree ▸ hlt))

/-- What an expansion by some of the generators, each with its index, does. -/
theorem Stage.expand {steps : List (SignedPerm × Nat)}
    (hsteps : ∀ s ∈ steps, gens[s.2]? = some s.1) {place p : Nat} :
    ∀ {o : Orbit}, Stage n gens seed o → o.points[place]? = some p →
      Stage n gens seed (expand steps o p) ∧ Extends o (expand steps o p)
        ∧ ∀ s ∈ steps, s.1.act p < n → (expand steps o p).contains (s.1.act p) = true := by
  induction steps with
  | nil =>
      intro o h _
      exact ⟨h, Extends.refl o, fun s hs => absurd hs List.not_mem_nil⟩
  | cons s steps ih =>
      intro o h hp
      have hs : gens[s.2]? = some s.1 := hsteps s List.mem_cons_self
      have hext := h.reach_extends (s.1.act p) s.2
      obtain ⟨hstage, hrest, hall⟩ := ih (fun s' hs' => hsteps s' (List.mem_cons_of_mem _ hs'))
        (h.reach hs hp) (hext.points place p hp)
      refine ⟨hstage, hext.trans hrest, ?_⟩
      intro s' hs' hlt
      rcases List.mem_cons.mp hs' with rfl | hmem
      · exact hrest.contains (contains_reach_self (h.degree_eq ▸ hlt))
      · exact hall s' hmem hlt

theorem sweep_of_none {steps : List (SignedPerm × Nat)} {place : Nat}
    (hp : o.points[place]? = none) : sweep steps o place = o := by
  rw [Orbit.sweep, hp]

/-- What the sweep of a point does. -/
theorem Stage.sweep (h : Stage n gens seed o) {place p : Nat} (hp : o.points[place]? = some p) :
    Stage n gens seed (Orbit.sweep gens.zipIdx o place)
      ∧ Extends o (Orbit.sweep gens.zipIdx o place)
      ∧ Swept gens (Orbit.sweep gens.zipIdx o place) p := by
  have hexpand : Orbit.sweep gens.zipIdx o place = Orbit.expand gens.zipIdx o p := by
    rw [Orbit.sweep, hp]
  obtain ⟨hstage, hext, hall⟩ := h.expand
    (fun s hs => List.mem_zipIdx_iff_getElem?.mp hs) hp
  rw [hexpand]
  refine ⟨hstage, hext, ?_⟩
  intro g hg hlt
  obtain ⟨i, hi⟩ := List.mem_iff_getElem?.mp hg
  exact hall (g, i) (List.mem_zipIdx_iff_getElem?.mpr hi) (hstage.degree_eq ▸ hlt)

/-- After the first `k` sweeps, the points at the first `k` places are swept. -/
theorem stage_sweeps (gens : List SignedPerm) (h : seed < n) (k : Nat) :
    Stage n gens seed ((List.range k).foldl (Orbit.sweep gens.zipIdx) (start n seed))
      ∧ ∀ place p : Nat, place < k →
          ((List.range k).foldl (Orbit.sweep gens.zipIdx) (start n seed)).points[place]? = some p →
          Swept gens ((List.range k).foldl (Orbit.sweep gens.zipIdx) (start n seed)) p := by
  induction k with
  | zero =>
      exact ⟨start_stage gens h, fun place p hlt => absurd hlt (Nat.not_lt_zero place)⟩
  | succ k ih =>
      rw [List.range_succ, List.foldl_append]
      show Stage n gens seed (Orbit.sweep gens.zipIdx _ k) ∧ _
      generalize (List.range k).foldl (Orbit.sweep gens.zipIdx) (start n seed) = o at ih
      obtain ⟨hstage, hswept⟩ := ih
      show _ ∧ ∀ place p : Nat, place < k + 1 →
        (Orbit.sweep gens.zipIdx o k).points[place]? = some p →
        Swept gens (Orbit.sweep gens.zipIdx o k) p
      cases hk : o.points[k]? with
      | none =>
          -- the queue has run dry: nothing changes, and there is no point at this place
          rw [sweep_of_none hk]
          refine ⟨hstage, ?_⟩
          intro place p hlt hp
          have hne : place ≠ k := by
            rintro rfl
            rw [hk] at hp
            exact nomatch hp
          exact hswept place p (by omega) hp
      | some q =>
          obtain ⟨hstage', hext, hnew⟩ := hstage.sweep hk
          refine ⟨hstage', ?_⟩
          intro place p hlt hp
          have hsize : k < o.points.size := (Array.getElem?_eq_some_iff.mp hk).1
          -- the sweep adds points after place `k` only
          have hold : o.points[place]? = some p := by
            obtain ⟨p', hp'⟩ : ∃ p', o.points[place]? = some p' :=
              ⟨_, Array.getElem?_eq_getElem (by omega)⟩
            rw [hp', ← Option.some.inj ((hext.points place p' hp').symm.trans hp)]
          by_cases hplace : place = k
          · obtain rfl : q = p := Option.some.inj ((hplace ▸ hk).symm.trans hold)
            exact hnew
          · exact (hswept place p (by omega) hold).extend hext
              (hstage'.degree_eq.trans hstage.degree_eq.symm)

/-- The grown orbit is a stage, -/
theorem grow_stage (gens : List SignedPerm) (h : seed < n) :
    Stage n gens seed (grow n gens seed) :=
  (stage_sweeps gens h n).1

/-- and it is closed under the generators. -/
theorem grow_closed (h : seed < n) {q : Nat} (hq : (grow n gens seed).contains q = true)
    {g : SignedPerm} (hg : g ∈ gens) (hlt : g.act q < n) :
    (grow n gens seed).contains (g.act q) = true := by
  have hstage := grow_stage gens h
  obtain ⟨place, hplace⟩ := hstage.exists_place hq
  have hbound : place < n :=
    Nat.lt_of_lt_of_le (Array.getElem?_eq_some_iff.mp hplace).1 hstage.length_le
  have hswept := (stage_sweeps gens h n).2 place q hbound hplace
  refine hswept g hg ?_
  show g.act q < (grow n gens seed).degree
  rw [hstage.degree_eq]
  exact hlt

end Stage

end Orbit

end SlotSymmetry
