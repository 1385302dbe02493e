import SlotSymmetry.Proofs.Group.Answer
import SlotSymmetry.Proofs.Group.Following

/-! # The elements common to two groups

    The chain of the second group is rebuilt on the base of the first.  An
    element of the first group that fixes the base points before a level and
    belongs to the second group is followed by the rebuilt chain, image by
    image, so the tests of the level search single out the common elements.
    What the search finds generates them, or some of them if the budget ran out;
    either way the signs are consistent. -/

namespace SlotSymmetry

namespace SignedGroup

variable {n : Nat} {H K : Subgroup (Signed n)} {G G' : SignedGroup} {c : Chain}
  {wanted : List Nat}

/-- A chain on the same base follows the elements of its group. -/
theorem selects_common (hG : G.Presents n H) (hc : c.Finished n K wanted)
    (hbase : G.base <+: c.base) {depth : Nat} (hdepth : depth ≤ G.base.length) :
    Chain.Wanted.Selects ⟨c.follows, c.contains⟩ G.chain (H ⊓ K) depth := by
  intro x hx
  obtain ⟨hxH, hfix⟩ := (hG.chain.mem_top_drop_iff depth).mp hx
  have hcontains : c.contains x.val = true ↔ x ∈ K := by
    rw [hc.contains_iff x.on.valid]
    exact ⟨fun ⟨_, hmem⟩ => hmem, fun hmem => ⟨x.on, hmem⟩⟩
  constructor
  · rintro ⟨-, haccept⟩
    exact ⟨hxH, hcontains.mp haccept⟩
  · rintro ⟨-, hxK⟩
    refine ⟨fun v hv => ?_, hcontains.mpr hxK⟩
    rw [baseImages_drop] at hv
    have himages := hv.trans ((hbase.drop depth).map x.val.act)
    have hfits : depth + v.length ≤ c.levels.length := by
      have hlength : c.base.length = c.levels.length := List.length_map _
      have hlonger := hbase.length_le
      have hle := himages.length_le
      rw [List.length_map, List.length_drop] at hle
      omega
    refine (hc.follows_iff hfits).mpr ⟨x, hxK, ?_, himages⟩
    -- the base points before are the same
    obtain ⟨rest, hrest⟩ := hbase
    rw [← hrest, List.take_append_of_le_length hdepth]
    exact hfix

/-! ## The answer -/

theorem sameDegree_of_eq (h : G.degree = G'.degree) : sameDegree G G' = .ok () := by
  rw [sameDegree, if_pos h]

theorem intersection_of_ne (h : G.degree ≠ G'.degree) (budget : Budget) :
    G.intersection G' budget = .error (.perm (.degreeMismatch G.degree G'.degree)) := by
  rw [intersection, sameDegree, if_neg h]
  rfl

theorem intersection_of_subgroup (h : G.degree = G'.degree) (hsub : G'.isSubgroupOf G = true)
    (budget : Budget) : G.intersection G' budget = .ok (.complete G') := by
  rw [intersection, sameDegree_of_eq h, hsub]
  rfl

theorem intersection_of_supergroup (h : G.degree = G'.degree)
    (hsub : G'.isSubgroupOf G = false) (hsup : G.isSubgroupOf G' = true) (budget : Budget) :
    G.intersection G' budget = .ok (.complete G) := by
  rw [intersection, sameDegree_of_eq h, hsub, hsup]
  rfl

theorem intersection_of_search (h : G.degree = G'.degree) (hsub : G'.isSubgroupOf G = false)
    (hsup : G.isSubgroupOf G' = false) {budget : Budget} {M : SignedGroup}
    (hc : Chain.buildWithBase G.degree G'.strongGenerators G.base = .ok c)
    (hM : generate G.degree (findCommon G c budget).known = .ok M) :
    G.intersection G' budget = .ok ((findCommon G c budget).meter.outcome M) := by
  rw [intersection, sameDegree_of_eq h, hsub, hsup, hc]
  show (generate G.degree (findCommon G c budget).known >>= _) = _
  rw [hM]
  rfl

/-- What the search finds in a rebuilt chain: common elements, and without limits generators of
    all of them. -/
theorem findCommon_finds (hG : G.Presents n H) (hc : c.Finished n K G.base.eraseDups)
    (budget : Budget) : Finds n (H ⊓ K) budget (findCommon G c budget) := by
  have hbase : G.base <+: c.base := by
    have := hc.starts
    rwa [eraseDups_of_nodup hG.nodup_base] at this
  have hempty : ∀ g ∈ ([] : List SignedPerm), g.On n := nofun
  refine levelSearch_finds hG.chain.degree_eq hG.chain.complete ?_ ?_ hempty ?_ budget
  · rw [hG.chain.stacked.top]
    exact inf_le_left
  · exact fun depth hdepth => selects_common hG hc hbase (Nat.le_of_lt hdepth)
  · -- no level is left at the end of the base
    have hlength : G.base.length = G.chain.levels.length := List.length_map _
    rw [span_nil, Chain.part, hlength, List.drop_length]
    exact (inf_bot_eq _).symm

/-- Two groups of one degree have an intersection: exactly the common elements without limits,
    and some of them in any case. -/
theorem intersection_answers (hG : G.Presents n H) (hG' : G'.Presents n K) (budget : Budget) :
    ∃ o, G.intersection G' budget = .ok o ∧ Answers n (H ⊓ K) budget o := by
  have hdegree : G.degree = G'.degree := hG.degree_eq.trans hG'.degree_eq.symm
  cases hsub : G'.isSubgroupOf G with
  | true =>
      have hinf : H ⊓ K = K := inf_eq_right.mpr ((hG'.isSubgroupOf_iff hG).mp hsub)
      rw [hinf]
      exact ⟨_, intersection_of_subgroup hdegree hsub budget, hG'.answers budget⟩
  | false =>
      cases hsup : G.isSubgroupOf G' with
      | true =>
          have hinf : H ⊓ K = H := inf_eq_left.mpr ((hG.isSubgroupOf_iff hG').mp hsup)
          rw [hinf]
          exact ⟨_, intersection_of_supergroup hdegree hsub hsup budget, hG.answers budget⟩
      | false =>
          obtain ⟨c, hc, hfinished⟩ := hG'.exists_rebased hG.base_lt
          obtain ⟨M, hM, hanswers⟩ := (findCommon_finds hG hfinished budget).exists_answer
            fun hmem => hG.flip_not_mem hmem.1
          rw [← hG.degree_eq] at hc hM
          exact ⟨_, intersection_of_search hdegree hsub hsup hc hM, hanswers⟩

end SignedGroup

end SlotSymmetry
