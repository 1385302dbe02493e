import Mathlib.Algebra.Pointwise.Stabilizer
import SlotSymmetry.Group.Setwise
import SlotSymmetry.Proofs.Group.Answer

/-! # Stabilizers of sets

    With the points of a set at the start of the base, an element that fixes the
    points before a level sends the set into itself if it sends the points from
    there on into it, and as the set is finite it then sends it onto itself.  So
    the tests of the level search single out the stabilizer of the set, and the
    tail of the chain below the set knows those of its elements that fix every
    point of the set. -/

namespace SlotSymmetry

open Pointwise

namespace SignedGroup

variable {n : Nat} {H : Subgroup (Signed n)} {G : SignedGroup} {c : Chain} {set : List Nat}

/-! ## The set -/

theorem mem_setOfPoints {points : List Nat} {q : Nat} : q ∈ setOfPoints points ↔ q ∈ points := by
  rw [setOfPoints, List.mem_eraseDups, List.mem_mergeSort]

theorem nodup_setOfPoints (points : List Nat) : (setOfPoints points).Nodup := nodup_eraseDups _

/-- The elements that map the points of the list onto themselves. -/
def setStabilizer (n : Nat) (set : List Nat) : Subgroup (Signed n) :=
  MulAction.stabilizer (Signed n) {q : Nat | q ∈ set}

/-- A finite set is mapped onto itself if it is mapped into itself. -/
theorem mem_setStabilizer_iff {x : Signed n} :
    x ∈ setStabilizer n set ↔ ∀ q ∈ set, x • q ∈ set :=
  MulAction.mem_stabilizer_set' (List.finite_toSet set)

/-- An element of the stabilizer, told by the images of the points. -/
theorem mem_setStabilizer_iff_map {x : Signed n} :
    x ∈ setStabilizer n set ↔ ∀ q, q ∈ set.map x.val.act ↔ q ∈ set := by
  have himage : x • {q : Nat | q ∈ set} = {q | q ∈ set.map x.val.act} := by
    ext q
    rw [Set.mem_smul_set, Set.mem_ofPred_eq, List.mem_map]
    rfl
  rw [setStabilizer, MulAction.mem_stabilizer_iff, himage, Set.ext_iff]
  rfl

theorem setStabilizer_congr {set set' : List Nat} (h : ∀ q, q ∈ set ↔ q ∈ set') :
    setStabilizer n set = setStabilizer n set' := by
  have : {q : Nat | q ∈ set} = {q | q ∈ set'} := Set.ext h
  rw [setStabilizer, this, setStabilizer]

/-! ## The tests -/

theorem staysInside_iff {level : Nat} {images : List Nat} :
    staysInside set level images = true ↔ ∀ offset image, images[offset]? = some image →
      level + offset < set.length → image ∈ set := by
  rw [staysInside, List.all_eq_true, Prod.forall, forall_comm]
  refine forall₂_congr fun offset image => ?_
  rw [List.mk_mem_zipIdx_iff_getElem?, Bool.or_eq_true, decide_eq_true_eq,
    List.contains_iff_mem, ← Nat.not_lt, imp_iff_not_or (a := level + offset < set.length)]

/-- As far as the base points belong to the set, their images are those of its points. -/
theorem getElem?_images (hstarts : set <+: c.base) (p : SignedPerm) {depth offset : Nat}
    (hlt : depth + offset < set.length) :
    (baseImages (c.levels.drop depth) p)[offset]? = (set[depth + offset]?).map p.act := by
  obtain ⟨rest, hrest⟩ := hstarts
  rw [baseImages_drop, List.getElem?_map, List.getElem?_drop, ← hrest,
    List.getElem?_append_left hlt]

/-- The tests single out the stabilizer of the set. -/
theorem selects_stable (hc : c.Finished n H set) {depth : Nat} (hdepth : depth ≤ set.length) :
    Chain.Wanted.Selects ⟨staysInside set, fun _ => true⟩ c (H ⊓ setStabilizer n set) depth := by
  intro x hx
  obtain ⟨hxH, hfix⟩ := (hc.mem_top_drop_iff depth).mp hx
  rw [Subgroup.mem_inf, mem_setStabilizer_iff]
  constructor
  · rintro ⟨hkeep, -⟩
    refine ⟨hxH, fun q hq => ?_⟩
    obtain ⟨i, hi⟩ := List.mem_iff_getElem?.mp hq
    obtain ⟨hlt, -⟩ := List.getElem?_eq_some_iff.mp hi
    rcases Nat.lt_or_ge i depth with hbefore | hfrom
    · -- an earlier point of the set is fixed
      have htake : q ∈ c.base.take depth := by
        obtain ⟨rest, hrest⟩ := hc.starts
        rw [← hrest, List.take_append_of_le_length hdepth]
        exact List.mem_of_getElem? (i := i) (by rw [List.getElem?_take_of_lt hbefore, hi])
      have hsame : x • q = q := hfix q htake
      rwa [hsame]
    · obtain ⟨offset, rfl⟩ := Nat.exists_eq_add_of_le hfrom
      refine staysInside_iff.mp (hkeep _ List.prefix_rfl) offset (x • q) ?_ hlt
      rw [getElem?_images hc.starts x.val hlt, hi]
      rfl
  · rintro ⟨-, hstable⟩
    refine ⟨fun v hv => staysInside_iff.mpr fun offset image himage hlt => ?_, rfl⟩
    have hat := List.prefix_iff_getElem?.mp hv
    obtain ⟨hoffset, hval⟩ := List.getElem?_eq_some_iff.mp himage
    have himage' := hat offset hoffset
    rw [hval, getElem?_images hc.starts x.val hlt] at himage'
    obtain ⟨q, hq, rfl⟩ := Option.map_eq_some_iff.mp himage'
    exact hstable q (List.mem_of_getElem? hq)

/-! ## The answer -/

theorem setwiseStabilizer_of_outside {points : List Nat} {point : Nat}
    (h : (setOfPoints points).find? (G.degree ≤ ·) = some point) (budget : Budget) :
    G.setwiseStabilizer points budget = .error (.perm (.outOfRange point G.degree)) := by
  rw [setwiseStabilizer, h]

theorem setwiseStabilizer_of_inside {points : List Nat} {budget : Budget} {M : SignedGroup}
    (h : (setOfPoints points).find? (G.degree ≤ ·) = none)
    (hc : Chain.buildWithBase G.degree G.strongGenerators (setOfPoints points) = .ok c)
    (hM : generate G.degree (findStable c (setOfPoints points) budget).known = .ok M) :
    G.setwiseStabilizer points budget
      = .ok ((findStable c (setOfPoints points) budget).meter.outcome M) := by
  rw [setwiseStabilizer, h, hc]
  show (generate G.degree (findStable c (setOfPoints points) budget).known >>= _) = _
  rw [hM]
  rfl

/-- A point of the set is past the degree, or none is. -/
theorem find_outside (points : List Nat) (n : Nat) :
    (∃ point ∈ points, n ≤ point ∧ (setOfPoints points).find? (n ≤ ·) = some point)
      ∨ ((∀ q ∈ points, q < n) ∧ (setOfPoints points).find? (n ≤ ·) = none) := by
  cases hfind : (setOfPoints points).find? (n ≤ ·) with
  | some point =>
      have hpast := List.find?_some hfind
      exact Or.inl ⟨point, mem_setOfPoints.mp (List.mem_of_find?_eq_some hfind),
        of_decide_eq_true hpast, rfl⟩
  | none =>
      refine Or.inr ⟨fun q hq => ?_, rfl⟩
      have hnot := List.find?_eq_none.mp hfind q (mem_setOfPoints.mpr hq)
      exact Nat.lt_of_not_le fun hle => hnot (decide_eq_true hle)

/-- The strong generators below the set are generators of the elements that fix all of it. -/
theorem span_belowSet (hc : c.Finished n H set) :
    (∀ g ∈ (c.tail set.length).strongGenerators, g.On n)
      ∧ Signed.span n (c.tail set.length).strongGenerators
        = c.part (H ⊓ setStabilizer n set) set.length := by
  have htail := hc.tail (Nat.le_refl set.length)
  refine ⟨htail.strongGenerators_on, ?_⟩
  rw [htail.span_strongGenerators, Chain.part, right_eq_inf]
  intro x hx
  obtain ⟨hxH, hfix⟩ := (hc.mem_top_drop_iff set.length).mp hx
  rw [← List.prefix_iff_eq_take.mp hc.starts] at hfix
  refine ⟨hxH, mem_setStabilizer_iff.mpr fun q hq => ?_⟩
  have hsame : x • q = q := hfix q hq
  rwa [hsame]

/-- What the search finds: elements that stabilize the set, and without limits generators of all
    of them. -/
theorem findStable_finds (hc : c.Finished n H set) (budget : Budget) :
    Finds n (H ⊓ setStabilizer n set) budget (findStable c set budget) := by
  obtain ⟨hknown, hspan⟩ := span_belowSet hc
  refine levelSearch_finds hc.degree_eq hc.complete ?_ ?_ hknown hspan budget
  · rw [hc.stacked.top]
    exact inf_le_left
  · exact fun depth hdepth => selects_stable hc (Nat.le_of_lt hdepth)

/-- A set of points has a stabilizer: exactly the elements that map it onto itself without limits,
    and some of them in any case. -/
theorem setwiseStabilizer_answers (hG : G.Presents n H) {points : List Nat}
    (hlt : ∀ q ∈ points, q < n) (budget : Budget) :
    ∃ o, G.setwiseStabilizer points budget = .ok o
      ∧ Answers n (H ⊓ setStabilizer n points) budget o := by
  have hset : ∀ q ∈ setOfPoints points, q < n := fun q hq => hlt q (mem_setOfPoints.mp hq)
  obtain ⟨c, hc, hfinished⟩ := hG.exists_rebased hset
  rw [eraseDups_of_nodup (nodup_setOfPoints points)] at hfinished
  obtain ⟨M, hM, hanswers⟩ := (findStable_finds hfinished budget).exists_answer
    fun hmem => hG.flip_not_mem hmem.1
  rw [setStabilizer_congr fun q => mem_setOfPoints] at hanswers
  have hinside : (setOfPoints points).find? (G.degree ≤ ·) = none := by
    rw [hG.degree_eq]
    rcases find_outside points n with ⟨point, hmem, hpast, -⟩ | ⟨-, hnone⟩
    · exact absurd (hlt point hmem) (Nat.not_lt.mpr hpast)
    · exact hnone
  rw [← hG.degree_eq] at hc hM
  exact ⟨_, setwiseStabilizer_of_inside hinside hc hM, hanswers⟩

end SignedGroup

end SlotSymmetry
