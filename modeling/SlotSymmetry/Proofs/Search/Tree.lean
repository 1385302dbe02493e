import SlotSymmetry.Proofs.Chain.Factorization
import SlotSymmetry.Search.Walk

/-! # The elements of a search tree

    With tests that carry no memory, the leaves of a search tree that are
    reached and accepted form a list, the `harvest` of its root.  Over complete
    levels, a node that stands for `g` has below it the elements `g * y`, `y` in
    the group of the levels, each under the images of the base points that it
    has itself.  So the harvest holds exactly those of them that pass the tests
    at all nodes on their way, and as the candidates of every level come in the
    order of their images, it is strictly ascending in the base images. -/

namespace SlotSymmetry

/-- The images of the base points of these levels. -/
def baseImages (levels : List Level) (p : SignedPerm) : List Nat :=
  levels.map fun level => p.act level.basePoint

/-- The elements below a node that pass the tests, in the order of the search.  The node has
    these levels below it, and fixes these images by the product `g`. -/
def harvest (keep : List Nat → Bool) (accept : SignedPerm → Bool) :
    List Level → List Nat → SignedPerm → List SignedPerm
  | [], images, g => if keep images && accept g then [g] else []
  | level :: below, images, g =>
      if keep images then
        (Node.candidates g level).flatMap fun choice =>
          harvest keep accept below (images ++ [choice.1]) (g * level.carrier choice.2)
      else []

section

variable {n : Nat} {keep : List Nat → Bool} {accept : SignedPerm → Bool} {level : Level}
  {below levels : List Level} {images : List Nat}

theorem baseImages_cons (level : Level) (below : List Level) (p : SignedPerm) :
    baseImages (level :: below) p = p.act level.basePoint :: baseImages below p :=
  rfl

theorem baseImages_drop (c : Chain) (depth : Nat) (p : SignedPerm) :
    baseImages (c.levels.drop depth) p = (c.base.drop depth).map p.act := by
  rw [baseImages, Chain.base, ← List.map_drop, List.map_map]
  rfl

/-! ## Candidates -/

theorem mem_candidates_iff (hs : level.Sound n) {g : Signed n} {choice : Nat × Nat} :
    choice ∈ Node.candidates g.val level
      ↔ level.orbit.contains choice.2 = true ∧ choice.1 = g • choice.2 := by
  rw [Node.candidates, List.mem_mergeSort, List.mem_map, hs.stage.contains_iff]
  constructor
  · rintro ⟨point, hpoint, rfl⟩
    exact ⟨Array.mem_toList_iff.mp hpoint, rfl⟩
  · rintro ⟨hpoint, himage⟩
    exact ⟨choice.2, Array.mem_toList_iff.mpr hpoint, Prod.ext himage.symm rfl⟩

/-- Different points of an orbit have different images, so the candidates ascend strictly. -/
theorem pairwise_candidates (hs : level.Sound n) (g : Signed n) :
    (Node.candidates g.val level).Pairwise fun a b => a.1 < b.1 := by
  have hsorted : (Node.candidates g.val level).Pairwise fun a b => a.1 ≤ b.1 := by
    refine (List.pairwise_mergeSort ?_ ?_ _).imp ?_
    · intro a b c hab hbc
      exact decide_eq_true (Nat.le_trans (of_decide_eq_true hab) (of_decide_eq_true hbc))
    · intro a b
      rw [Bool.or_eq_true, decide_eq_true_eq, decide_eq_true_eq]
      exact Nat.le_total a.1 b.1
    · exact fun hab => of_decide_eq_true hab
  have hdiffer : (Node.candidates g.val level).Pairwise fun a b => a.1 ≠ b.1 := by
    refine (List.mergeSort_perm _ _).pairwise_iff (fun hab => Ne.symm hab) |>.mpr ?_
    refine List.pairwise_map.mpr (hs.stage.nodup.imp ?_)
    exact fun hne heq => hne (smul_left_cancel g heq)
  exact (hsorted.and hdiffer).imp fun hab => Nat.lt_of_le_of_ne hab.1 hab.2

/-! ## Members of the harvest -/

theorem mem_harvest_nil (g p : SignedPerm) :
    p ∈ harvest keep accept [] images g ↔ p = g ∧ keep images = true ∧ accept p = true := by
  rw [harvest]
  by_cases hk : (keep images && accept g) = true
  · rw [if_pos hk, List.mem_singleton]
    refine ⟨fun hp => ⟨hp, ?_⟩, fun hp => hp.1⟩
    rw [hp]
    exact Bool.and_eq_true_iff.mp hk
  · rw [if_neg hk]
    refine ⟨fun hp => absurd hp List.not_mem_nil, ?_⟩
    rintro ⟨rfl, hboth⟩
    exact absurd (Bool.and_eq_true_iff.mpr hboth) hk

theorem mem_harvest_cons (g p : SignedPerm) :
    p ∈ harvest keep accept (level :: below) images g ↔ keep images = true
      ∧ ∃ choice ∈ Node.candidates g level,
          p ∈ harvest keep accept below (images ++ [choice.1]) (g * level.carrier choice.2) := by
  rw [harvest]
  by_cases hk : keep images = true
  · rw [if_pos hk, List.mem_flatMap]
    exact ⟨fun hp => ⟨hk, hp⟩, fun hp => hp.2⟩
  · rw [if_neg hk]
    exact ⟨fun hp => absurd hp List.not_mem_nil, fun hp => absurd hp.1 hk⟩

/-- All elements below a child send the base point to the image that was chosen. -/
theorem Complete.child_smul (h : Complete n (level :: below)) (g : Signed n) {q : Nat}
    (hq : level.orbit.contains q = true) {y : Signed n} (hy : y ∈ topGroup n below) :
    (g * h.1.transporter q * y) • level.basePoint = g • q := by
  rw [mul_assoc, mul_smul, h.transporter_mul_smul hq hy]

/-- The elements below the children of a node are those below the node, each below the image of
    the base point that it has. -/
theorem Complete.exists_child_iff (h : Complete n (level :: below)) (g : Signed n)
    (P : Nat → Signed n → Prop) :
    (∃ choice ∈ Node.candidates g.val level, ∃ y ∈ topGroup n below,
        P choice.1 (g * h.1.transporter choice.2 * y))
      ↔ ∃ y ∈ topGroup n (level :: below), P ((g * y) • level.basePoint) (g * y) := by
  have hs := h.1
  constructor
  · rintro ⟨choice, hchoice, y, hy, hP⟩
    obtain ⟨hpoint, himage⟩ := (mem_candidates_iff hs).mp hchoice
    refine ⟨hs.transporter choice.2 * y, ?_, ?_⟩
    · exact (level.group n).mul_mem (hs.transporter_mem _) (h.top_below_le hy)
    · rw [← mul_assoc, h.child_smul g hpoint hy, ← himage]
      exact hP
  · rintro ⟨y, hy, hP⟩
    refine ⟨((g * y) • level.basePoint, y • level.basePoint), ?_, hs.remainder y,
      h.remainder_mem hy, ?_⟩
    · exact (mem_candidates_iff hs).mpr ⟨hs.contains_smul hy, mul_smul g y _⟩
    · rw [mul_assoc, hs.transporter_mul_remainder]
      exact hP

theorem forall_prefix_cons {a : Nat} {v : List Nat} {P : List Nat → Prop} :
    (∀ w, w <+: a :: v → P w) ↔ P [] ∧ ∀ w, w <+: v → P (a :: w) := by
  constructor
  · exact fun h => ⟨h [] List.nil_prefix, fun w hw => h _ (List.cons_prefix_cons.mpr ⟨rfl, hw⟩)⟩
  · rintro ⟨hnil, hcons⟩ w hw
    rcases List.prefix_cons_iff.mp hw with rfl | ⟨u, rfl, hu⟩
    · exact hnil
    · exact hcons u hu

/-- Below a node stand the elements that extend its product, at the images that they have. -/
theorem mem_harvest_iff (h : Complete n below) (g : Signed n) {p : SignedPerm} :
    p ∈ harvest keep accept below images g.val ↔
      ∃ y ∈ topGroup n below, p = (g * y).val
        ∧ (∀ w, w <+: baseImages below p → keep (images ++ w) = true) ∧ accept p = true := by
  induction below generalizing images g with
  | nil =>
      rw [mem_harvest_nil]
      constructor
      · rintro ⟨hp, hkeep, haccept⟩
        refine ⟨1, Subgroup.one_mem _, by rw [mul_one]; exact hp, ?_, haccept⟩
        intro w hw
        rw [List.prefix_nil.mp hw, List.append_nil]
        exact hkeep
      · rintro ⟨y, hy, hp, hkeep, haccept⟩
        obtain rfl : y = 1 := Subgroup.mem_bot.mp hy
        rw [mul_one] at hp
        have hroot := hkeep [] List.nil_prefix
        rw [List.append_nil] at hroot
        exact ⟨hp, hroot, haccept⟩
  | cons level below ih =>
      have hchildren : (∃ choice ∈ Node.candidates g.val level,
          p ∈ harvest keep accept below (images ++ [choice.1]) (g.val * level.carrier choice.2))
          ↔ ∃ y ∈ topGroup n (level :: below), p = (g * y).val
            ∧ (∀ v, v <+: baseImages below p →
              keep (images ++ [(g * y) • level.basePoint] ++ v) = true) ∧ accept p = true := by
        rw [← h.exists_child_iff g fun image x => p = x.val
          ∧ (∀ v, v <+: baseImages below p → keep (images ++ [image] ++ v) = true)
          ∧ accept p = true]
        exact exists_congr fun choice => and_congr_right' (ih h.2.2 (g * h.1.transporter choice.2))
      rw [mem_harvest_cons, hchildren]
      constructor
      · rintro ⟨hk, y, hy, rfl, hkeep, haccept⟩
        refine ⟨y, hy, rfl, forall_prefix_cons.mpr ⟨?_, fun v hv => ?_⟩, haccept⟩
        · rw [List.append_nil]
          exact hk
        · rw [List.append_cons]
          exact hkeep v hv
      · rintro ⟨y, hy, rfl, hkeep, haccept⟩
        obtain ⟨hroot, hkeep⟩ := forall_prefix_cons.mp hkeep
        rw [List.append_nil] at hroot
        refine ⟨hroot, y, hy, rfl, fun v hv => ?_, haccept⟩
        rw [← List.append_cons]
        exact hkeep v hv

/-- At the top of the tree stand the elements of the group. -/
theorem mem_harvest_root_iff (h : Complete n levels) {p : SignedPerm} :
    p ∈ harvest keep accept levels [] (SignedPerm.id n) ↔
      ∃ x ∈ topGroup n levels, p = x.val
        ∧ (∀ w, w <+: baseImages levels p → keep w = true) ∧ accept p = true := by
  rw [← Signed.val_one, mem_harvest_iff h 1]
  simp only [one_mul, List.nil_append]

/-! ## Order -/

theorem act_of_mem_harvest (h : Complete n (level :: below)) (g : Signed n) {choice : Nat × Nat}
    (hchoice : choice ∈ Node.candidates g.val level) {w : List Nat} {p : SignedPerm}
    (hp : p ∈ harvest keep accept below w (g * h.1.transporter choice.2).val) :
    p.act level.basePoint = choice.1 := by
  obtain ⟨hpoint, himage⟩ := (mem_candidates_iff h.1).mp hchoice
  obtain ⟨y, hy, hval, -⟩ := (mem_harvest_iff h.2.2 _).mp hp
  rw [hval, himage]
  exact h.child_smul g hpoint hy

/-- The harvest ascends strictly in the lexicographic order of the base images. -/
theorem pairwise_harvest (h : Complete n below) (g : Signed n) :
    (harvest keep accept below images g.val).Pairwise
      fun p q => baseImages below p < baseImages below q := by
  induction below generalizing images g with
  | nil =>
      rw [harvest]
      split
      · exact List.pairwise_singleton _ _
      · exact .nil
  | cons level below ih =>
      rw [harvest]
      split
      · refine List.pairwise_flatMap.mpr ⟨?_, ?_⟩
        · intro choice hchoice
          refine (ih h.2.2 (g * h.1.transporter choice.2)).imp_of_mem ?_
          intro p q hp hq hlt
          -- the images of the first base point agree
          rw [baseImages_cons, baseImages_cons, List.cons_lt_cons_iff]
          refine Or.inr ⟨?_, hlt⟩
          rw [act_of_mem_harvest h g hchoice hp, act_of_mem_harvest h g hchoice hq]
        · refine (pairwise_candidates h.1 g).imp_of_mem ?_
          intro a b ha hb hlt p hp q hq
          rw [baseImages_cons, baseImages_cons, List.cons_lt_cons_iff]
          refine Or.inl ?_
          rw [act_of_mem_harvest h g ha hp, act_of_mem_harvest h g hb hq]
          exact hlt
      · exact .nil

end

end SlotSymmetry
