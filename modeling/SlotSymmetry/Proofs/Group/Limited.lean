import Mathlib
import SlotSymmetry.Proofs.Group.Cosets
import SlotSymmetry.Proofs.Group.Derived
import SlotSymmetry.Proofs.Group.Searches

/-! # Groups and cosets within a limit

    An intersection, the stabilizer of a set and the representatives of cosets
    are each found by searches on one meter, so they obey the law of a limit on
    the nodes of all these searches together.  The lists of generators that a
    level search knows at its end under a wider limit start with those that it
    knows under a tighter one, so the groups that they generate contain one
    another.  The lists of representatives start with one another. -/

namespace SlotSymmetry

namespace SignedGroup

variable {n : Nat} {H K : Subgroup (Signed n)} {G G' M M' : SignedGroup} {c : Chain}
  {set : List Nat}

/-! ## Containment -/

/-- The groups have one degree, and every element of the first belongs to the second. -/
structure Inside (M M' : SignedGroup) : Prop where
  degree_eq : M.degree = M'.degree
  mem : ∀ p : SignedPerm, p.Valid → M.contains p = true → M'.contains p = true

theorem Inside.refl (M : SignedGroup) : Inside M M := ⟨rfl, fun _ _ h => h⟩

theorem Presents.inside (hM : M.Presents n H) (hM' : M'.Presents n K) (hle : H ≤ K) :
    Inside M M' :=
  ⟨hM.degree_eq.trans hM'.degree_eq.symm, (hM.le_iff_contains hM').mp hle⟩

/-! ## Queries that are answered by a level search -/

/-- A query that makes a group of what a level search for `K` knows at its end. -/
theorem limited_of_levelSearch {query : Budget → Except GroupError (Outcome SignedGroup)}
    {c : Chain} {w : Chain.Wanted} {upTo : Nat} {known : List SignedPerm}
    (hquery : ∀ budget M, generate n (c.levelSearch w upTo known (.start budget)).known = .ok M →
      query budget = .ok ((c.levelSearch w upTo known (.start budget)).meter.outcome M))
    (hfinds : ∀ budget, Finds n K budget (c.levelSearch w upTo known (.start budget)))
    (hflip : Signed.flip n ∉ K) :
    ∃ whole held, Limited Inside (c.levelSearchNodes w upTo known) query whole held
      ∧ whole.Presents n K ∧ ∀ m, ∃ L, Signed.span n known ≤ L ∧ (held m).Presents n L := by
  have hgenerate : ∀ budget, ∃ M,
      generate n (c.levelSearch w upTo known (.start budget)).known = .ok M
        ∧ M.Presents n (Signed.span n (c.levelSearch w upTo known (.start budget)).known) :=
    fun budget => exists_generate (hfinds budget).on
      fun hmem => hflip ((hfinds budget).span_le hmem)
  choose value hvalue hpresents using hgenerate
  have hmetered : Metered Inside query value
      fun budget => (c.levelSearch w upTo known (.start budget)).meter := by
    refine ⟨fun budget => hquery budget _ (hvalue budget),
      fun budget => (Chain.levelSearch_onward c w upTo known budget).meter, ?_⟩
    intro budget wider hwithin
    refine (Chain.levelSearch_trails c w upTo known hwithin).map (fun hsame => ?_) fun hpart => ?_
    · have hwider := hvalue wider
      rw [hsame, hvalue budget] at hwider
      exact (Except.ok.inj hwider).symm
    · exact (hpresents budget).inside (hpresents wider) (span_mono hpart.subset)
  refine ⟨_, _, Chain.levelSearch_nodes c w upTo known ▸ hmetered.limited Inside.refl, ?_, ?_⟩
  · rw [← ((hfinds .unlimited).whole rfl).2]
    exact hpresents .unlimited
  · intro m
    refine ⟨_, span_mono ?_, hpresents (.ofNodes m)⟩
    exact (Chain.levelSearch_onward c w upTo known (.ofNodes m)).known.subset

/-! ## Intersections -/

/-- The number of nodes of all searches of an intersection without limits. -/
def intersectionNodes (G G' : SignedGroup) : Nat :=
  if G'.isSubgroupOf G || G.isSubgroupOf G' then 0
  else
    match Chain.buildWithBase G.degree G'.strongGenerators G.base with
    | .error _ => 0
    | .ok chain => G.chain.levelSearchNodes ⟨chain.follows, chain.contains⟩ G.base.length []

/-- A query that makes no search is complete within any limit. -/
theorem limited_of_complete {query : Budget → Except GroupError (Outcome SignedGroup)}
    (h : ∀ budget, query budget = .ok (.complete M)) :
    Limited Inside 0 query M fun _ => M :=
  ⟨h _, fun _ _ => ⟨h _, rfl⟩, fun _ hlt => absurd hlt (Nat.not_lt_zero _),
    fun _ => .refl M, fun _ _ _ => .refl M⟩

theorem intersection_limited (hG : G.Presents n H) (hG' : G'.Presents n K) :
    ∃ whole held, Limited Inside (intersectionNodes G G') (G.intersection G') whole held
      ∧ whole.Presents n (H ⊓ K) := by
  have hdegree : G.degree = G'.degree := hG.degree_eq.trans hG'.degree_eq.symm
  rw [intersectionNodes]
  cases hsub : G'.isSubgroupOf G with
  | true =>
      rw [inf_eq_right.mpr ((hG'.isSubgroupOf_iff hG).mp hsub)]
      exact ⟨G', _, limited_of_complete (intersection_of_subgroup hdegree hsub), hG'⟩
  | false =>
      cases hsup : G.isSubgroupOf G' with
      | true =>
          rw [inf_eq_left.mpr ((hG.isSubgroupOf_iff hG').mp hsup)]
          exact ⟨G, _, limited_of_complete (intersection_of_supergroup hdegree hsub hsup), hG⟩
      | false =>
          obtain ⟨c, hc, hfinished⟩ := hG'.exists_rebased hG.base_lt
          rw [← hG.degree_eq] at hc
          rw [hc]
          obtain ⟨whole, held, hlimited, hwhole, -⟩ := limited_of_levelSearch (n := n)
            (fun budget M hM => intersection_of_search hdegree hsub hsup hc
              (by rw [hG.degree_eq]; exact hM))
            (findCommon_finds hG hfinished) fun hmem => hG.flip_not_mem hmem.1
          exact ⟨whole, held, hlimited, hwhole⟩

/-! ## Stabilizers of sets -/

/-- The number of nodes of all searches of the stabilizer of a set without limits. -/
def setwiseNodes (G : SignedGroup) (points : List Nat) : Nat :=
  match Chain.buildWithBase G.degree G.strongGenerators (setOfPoints points) with
  | .error _ => 0
  | .ok chain =>
      chain.levelSearchNodes ⟨staysInside (setOfPoints points), fun _ => true⟩
        (setOfPoints points).length (chain.tail (setOfPoints points).length).strongGenerators

/-- The strong generators below the set generate the elements that fix all of it. -/
theorem fixing_le_span (hc : c.Finished n H set) :
    H ⊓ fixingSubgroup (Signed n) {q | q ∈ set}
      ≤ Signed.span n (c.tail set.length).strongGenerators := by
  rw [(hc.tail (Nat.le_refl set.length)).span_strongGenerators]
  rintro x ⟨hxH, hfix⟩
  refine (hc.mem_top_drop_iff set.length).mpr ⟨hxH, ?_⟩
  rw [← List.prefix_iff_eq_take.mp hc.starts]
  exact mem_fixingSubgroup_iff (Signed n) |>.mp hfix

theorem setwiseStabilizer_limited (hG : G.Presents n H) {points : List Nat}
    (hlt : ∀ q ∈ points, q < n) :
    ∃ whole held, Limited Inside (setwiseNodes G points) (G.setwiseStabilizer points) whole held
      ∧ whole.Presents n (H ⊓ setStabilizer n points)
      ∧ ∀ m, ∃ L, H ⊓ fixingSubgroup (Signed n) {q | q ∈ points} ≤ L
        ∧ (held m).Presents n L := by
  have hset : ∀ q ∈ setOfPoints points, q < n := fun q hq => hlt q (mem_setOfPoints.mp hq)
  obtain ⟨c, hc, hfinished⟩ := hG.exists_rebased hset
  rw [eraseDups_of_nodup (nodup_setOfPoints points)] at hfinished
  have hinside : (setOfPoints points).find? (G.degree ≤ ·) = none := by
    rcases find_outside points G.degree with ⟨point, hmem, hpast, -⟩ | ⟨-, hnone⟩
    · rw [hG.degree_eq] at hpast
      exact absurd (hlt point hmem) (Nat.not_lt.mpr hpast)
    · exact hnone
  rw [← hG.degree_eq] at hc
  rw [setwiseNodes, hc]
  obtain ⟨whole, held, hlimited, hwhole, hheld⟩ := limited_of_levelSearch (n := n)
    (fun budget M hM => setwiseStabilizer_of_inside hinside hc (by rw [hG.degree_eq]; exact hM))
    (findStable_finds hfinished) fun hmem => hG.flip_not_mem hmem.1
  rw [setStabilizer_congr fun q => mem_setOfPoints] at hwhole
  refine ⟨whole, held, hlimited, hwhole, fun m => ?_⟩
  obtain ⟨L, hle, hL⟩ := hheld m
  have hfixing := fixing_le_span hfinished
  simp only [mem_setOfPoints] at hfixing
  exact ⟨L, hfixing.trans hle, hL⟩

theorem Presents.setwiseStabilizer_contains_iff (hG : G.Presents n H) {points : List Nat}
    (hM : M.Presents n (H ⊓ setStabilizer n points)) {p : SignedPerm} (hp : p.Valid) :
    M.contains p = true ↔ G.contains p = true ∧ ∀ q, q ∈ points.map p.act ↔ q ∈ points := by
  rw [hG.contains_inf_iff hM hp]
  refine and_congr_right fun hmem => ?_
  obtain ⟨hon, -⟩ := (hG.contains_iff hp).mp hmem
  rw [exists_prop_of_true hon, mem_setStabilizer_iff_map]

/-! ## Cosets -/

/-- The number of nodes of the search for representatives of cosets without limits. -/
def cosetNodes (G G' : SignedGroup) : Nat := (representRightCosets G G' .unlimited).2.meter.nodes

/-- The nodes of that search are those until every coset has a representative or none are left. -/
theorem cosetNodes_endsAfter (G G' : SignedGroup) :
    (G.chain.search .unlimited ()).EndsAfter
      (Tests.plain (startsAtMinimum G'.orbitMinima) fun _ => true)
      (fun part => G.order / G'.order
        ≤ (part.foldl (Representatives.offer G'.chain) ⟨#[], ∅⟩).chosen.size)
      (cosetNodes G G') := by
  refine (Search.endsAfter_nodes _ _ _ _ Meter.start_free rfl).1.congr fun part => ?_
  rw [decide_eq_false_iff_not, Nat.not_lt]

/-- Offers only add to what is chosen. -/
theorem chosen_prefix_foldl (c : Chain) (part : List SignedPerm) : ∀ r : Representatives,
    r.chosen.toList <+: (part.foldl (Representatives.offer c) r).chosen.toList := by
  induction part with
  | nil => exact fun r => List.prefix_rfl
  | cons p part ih =>
      intro r
      refine List.IsPrefix.trans ?_ (ih (r.offer c p))
      by_cases hknown : r.canonical.contains (cosetKey c p) = true
      · rw [offer_of_known hknown]
      · rw [offer_of_new hknown, Array.toList_push]
        exact List.prefix_append _ _

/-- The representatives that a request finds until its budget runs out. -/
def representativesWithin (G G' : SignedGroup) (budget : Budget) : List SignedPerm :=
  (representRightCosets G G' budget).1.chosen.toList

theorem rightCosets_of_subgroup (h : requireSubgroup G G' = .ok ()) (budget : Budget) :
    G.rightCosets G' budget = .ok ((representRightCosets G G' budget).2.meter.outcome
      (representativesWithin G G' budget)) := by
  rw [rightCosets, h]
  rfl

theorem rightCosets_metered (h : requireSubgroup G G' = .ok ()) :
    Metered (· <+: ·) (G.rightCosets G') (representativesWithin G G')
      fun budget => (representRightCosets G G' budget).2.meter := by
  refine ⟨rightCosets_of_subgroup h, fun budget => ?_, fun budget wider hwithin => ?_⟩
  · exact Search.foldWhile_onward _ _ _ _ (G.chain.search budget ())
  · exact Search.foldWhile_trails (s := G.chain.search budget ())
      (fun r : Representatives => r.chosen.toList)
      (fun r part _ => chosen_prefix_foldl G'.chain part r) hwithin rfl

/-- The same for the inverses of the representatives. -/
theorem leftCosets_metered (h : requireSubgroup G G' = .ok ()) :
    Metered (· <+: ·) (G.leftCosets G')
      (fun budget => (representativesWithin G G' budget).map (·.inverse))
      fun budget => (representRightCosets G G' budget).2.meter := by
  have hright := rightCosets_metered h
  refine ⟨fun budget => ?_, hright.onward, fun budget wider hwithin => ?_⟩
  · rw [leftCosets, rightCosets_of_subgroup h, Meter.outcome, Meter.outcome]
    split <;> rfl
  · exact (hright.trails budget wider hwithin).map (congrArg (List.map _)) (·.map _)

/-! ## One limit for each query -/

/-- Every query obeys the law of a limit on the nodes of all its searches together.  An
    intersection holds common elements, the stabilizer of a set holds elements that map the set
    onto itself and always those that fix all of its points, and the representatives of cosets are
    the first ones of their list. -/
theorem queries_limited (hG : G.Reachable) (hG' : G'.Reachable) (points : List Nat) :
    (G.degree = G'.degree → ∃ whole held,
        Limited Inside (intersectionNodes G G') (G.intersection G') whole held
          ∧ ∀ p : SignedPerm, p.Valid →
            (whole.contains p = true ↔ G.contains p = true ∧ G'.contains p = true))
      ∧ ((∀ q ∈ points, q < G.degree) → ∃ whole held,
        Limited Inside (setwiseNodes G points) (G.setwiseStabilizer points) whole held
          ∧ (∀ p : SignedPerm, p.Valid → (whole.contains p = true
            ↔ G.contains p = true ∧ ∀ q, q ∈ points.map p.act ↔ q ∈ points))
          ∧ ∀ m (p : SignedPerm), p.Valid → G.contains p = true →
            (∀ q ∈ points, p.act q = q) → (held m).contains p = true)
      ∧ (G.degree = G'.degree →
        (∀ p : SignedPerm, p.Valid → G'.contains p = true → G.contains p = true) →
        ∃ whole held, Limited (· <+: ·) (cosetNodes G G') (G.rightCosets G') whole held
          ∧ Limited (· <+: ·) (cosetNodes G G') (G.leftCosets G') (whole.map (·.inverse))
            fun m => (held m).map (·.inverse)) := by
  have hp := hG.presents
  refine ⟨fun hsame => ?_, fun hlt => ?_, fun hsame hsub => ?_⟩
  · have hp' := hG'.presents.at_degree hsame.symm
    obtain ⟨whole, held, hlimited, hwhole⟩ := intersection_limited hp hp'
    refine ⟨whole, held, hlimited, fun p hvalid => ?_⟩
    rw [hp.contains_inf_iff hwhole hvalid, hp'.contains_iff hvalid]
  · obtain ⟨whole, held, hlimited, hwhole, hheld⟩ := setwiseStabilizer_limited hp hlt
    refine ⟨whole, held, hlimited, ?_, fun m p hvalid hmem hfix => ?_⟩
    · exact fun p hvalid => hp.setwiseStabilizer_contains_iff hwhole hvalid
    · obtain ⟨L, hle, hL⟩ := hheld m
      obtain ⟨hon, hmem'⟩ := (hp.contains_iff hvalid).mp hmem
      exact (hL.contains_iff hvalid).mpr
        ⟨hon, hle ⟨hmem', (mem_fixingSubgroup_iff (Signed G.degree)).mpr hfix⟩⟩
  · have hp' := hG'.presents.at_degree hsame.symm
    have hok := requireSubgroup_of_subgroup hsame
      ((hp'.isSubgroupOf_iff hp).mpr ((hp'.le_iff_contains hp).mpr hsub))
    exact ⟨_, _, (rightCosets_metered hok).limited fun _ => List.prefix_rfl,
      (leftCosets_metered hok).limited fun _ => List.prefix_rfl⟩

/-- Queries about permutations of three points, with limits just below the nodes that they need.
    The rotations and the swap have their common elements at 8 nodes; the stabilizer of the set of
    the first and the last point takes 12, and the cosets of the swap take 7. -/
theorem queries_limited_three :
    ∃ G R S, generate 3 [rotation 3 false, firstSwap 3 false] = .ok G
      ∧ generate 3 [rotation 3 false] = .ok R ∧ generate 3 [firstSwap 3 false] = .ok S
      ∧ (∃ M M', R.intersection S (.ofNodes 8) = .ok (.complete M)
        ∧ R.intersection S (.ofNodes 7) = .ok (.incomplete M' 8) ∧ Inside M' M)
      ∧ (∃ M M', G.setwiseStabilizer [2, 0, 2] (.ofNodes 12) = .ok (.complete M)
        ∧ G.setwiseStabilizer [2, 0, 2] (.ofNodes 11) = .ok (.incomplete M' 12) ∧ Inside M' M)
      ∧ ∃ rs rs', G.rightCosets S (.ofNodes 7) = .ok (.complete rs)
        ∧ G.rightCosets S (.ofNodes 6) = .ok (.incomplete rs' 7) ∧ rs' <+: rs := by
  have hvalid : ∀ g ∈ [rotation 3 false, firstSwap 3 false], g.Valid := by decide +kernel
  have hrotation : ∀ g ∈ [rotation 3 false], g.Valid := by decide +kernel
  have hswap : ∀ g ∈ [firstSwap 3 false], g.Valid := by decide +kernel
  have hall : (generate 3 [rotation 3 false, firstSwap 3 false]).toOption.map
      (fun G => (G.degree, setwiseNodes G [2, 0, 2])) = some (3, 12) := by
    cbv
  have hrotations : (generate 3 [rotation 3 false]).toOption.map (·.degree) = some 3 := by
    decide +kernel
  have hswaps : (generate 3 [firstSwap 3 false]).toOption.map (·.degree) = some 3 := by
    decide +kernel
  have hcommon : ((generate 3 [rotation 3 false]).toOption.bind fun R =>
      (generate 3 [firstSwap 3 false]).toOption.map fun S => intersectionNodes R S) = some 8 := by
    cbv
  have hcosets : ((generate 3 [rotation 3 false, firstSwap 3 false]).toOption.bind fun G =>
      (generate 3 [firstSwap 3 false]).toOption.map fun S => cosetNodes G S) = some 7 := by
    cbv
  obtain ⟨G, hG, heq⟩ := Chain.exists_of_map_toOption hall
  obtain ⟨R, hR, hdegree'⟩ := Chain.exists_of_map_toOption hrotations
  obtain ⟨S, hS, hdegree''⟩ := Chain.exists_of_map_toOption hswaps
  obtain ⟨hdegree, hset⟩ := Prod.mk.inj heq
  rw [hR, hS] at hcommon
  rw [hG, hS] at hcosets
  have hGS : ∀ p : SignedPerm, p.Valid → S.contains p = true → G.contains p = true := by
    have hpG := generate_presents hvalid hG
    have hpS := generate_presents hswap hS
    exact (hpS.le_iff_contains hpG).mp (span_mono fun g hg => List.mem_cons_of_mem _ hg)
  obtain ⟨M, held, hlimited, -⟩ := (queries_limited (.generate hrotation hR)
    (.generate hswap hS) []).1 (hdegree'.trans hdegree''.symm)
  obtain ⟨-, hinside, hquotient⟩ := queries_limited (.generate hvalid hG)
    (.generate hswap hS) [2, 0, 2]
  obtain ⟨M', held', hlimited', -⟩ := hinside (by rw [hdegree]; decide)
  obtain ⟨rs, held'', hright, -⟩ := hquotient (hdegree.trans hdegree''.symm) hGS
  rw [show intersectionNodes R S = 8 from Option.some.inj hcommon] at hlimited
  rw [hset] at hlimited'
  rw [show cosetNodes G S = 7 from Option.some.inj hcosets] at hright
  refine ⟨G, R, S, hG, hR, hS, ⟨M, held 7, ?_⟩, ⟨M', held' 11, ?_⟩, rs, held'' 6, ?_⟩
  · exact ⟨(hlimited.complete 8 (by decide)).1, hlimited.incomplete 7 (by decide),
      hlimited.part 7⟩
  · exact ⟨(hlimited'.complete 12 (by decide)).1, hlimited'.incomplete 11 (by decide),
      hlimited'.part 11⟩
  · exact ⟨(hright.complete 7 (by decide)).1, hright.incomplete 6 (by decide), hright.part 6⟩

end SignedGroup

end SlotSymmetry
