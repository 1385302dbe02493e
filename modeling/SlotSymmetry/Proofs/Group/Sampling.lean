import Mathlib.Probability.Distributions.Uniform
import SlotSymmetry.Proofs.Group.Enumeration

/-! # Uniform samples

    One index per level picks an element, and every element is picked by one
    choice of indices (`Presents.bijOn_elementAt`).  So if every index below the
    length of an orbit is equally likely, and no draw depends on the others, all
    elements are equally likely.  A source of draws is a monad: with
    distributions it gives the distribution of the sample, with the random words
    that are left the sample itself. -/

namespace SlotSymmetry

/-! ## Draws -/

/-- Every index below the size is equally likely, and no other is drawn. -/
structure UniformDraws (draw : Nat → PMF Nat) : Prop where
  inside : ∀ {size i : Nat}, i < size → draw size i = (size : ENNReal)⁻¹
  outside : ∀ {size i : Nat}, 0 < size → size ≤ i → draw size i = 0

/-- There are such draws. -/
theorem exists_uniformDraws : ∃ draw, UniformDraws draw := by
  let draw (size : Nat) : PMF Nat :=
    if h : size = 0 then PMF.pure 0
    else PMF.uniformOfFinset (.range size) (Finset.nonempty_range_iff.mpr h)
  have hdraw {size : Nat} (h : size ≠ 0) : draw size
      = PMF.uniformOfFinset (.range size) (Finset.nonempty_range_iff.mpr h) := dif_neg h
  refine ⟨draw, ?_, ?_⟩
  · intro size i hi
    rw [hdraw (Nat.ne_zero_of_lt hi),
      PMF.uniformOfFinset_apply_of_mem _ (Finset.mem_range.mpr hi), Finset.card_range]
  · intro size i hsize hle
    rw [hdraw hsize.ne', PMF.uniformOfFinset_apply_of_notMem]
    exact fun hi => Nat.not_lt.mpr hle (Finset.mem_range.mp hi)

/-- The mass of an outcome that only one value leads to. -/
theorem bind_apply_of_unique {α β : Type} {law : PMF α} {next : α → PMF β} {a : α} {b : β}
    (h : ∀ a' ∈ law.support, b ∈ (next a').support → a' = a) :
    law.bind next b = law a * next a b := by
  rw [PMF.bind_apply, tsum_eq_single a]
  intro a' hne
  by_contra hmass
  obtain ⟨ha', hb⟩ := mul_ne_zero_iff.mp hmass
  exact hne (h a' ((PMF.mem_support_iff _ _).mpr ha') ((PMF.mem_support_iff _ _).mpr hb))

section

variable {draw : Nat → PMF Nat} {sizes is : List Nat}

/-- The draws do not depend on one another. -/
theorem mapM_cons_apply (size i : Nat) :
    (List.mapM draw (size :: sizes)) (i :: is) = draw size i * (List.mapM draw sizes) is := by
  have hcons : List.mapM draw (size :: sizes)
      = (draw size).bind fun j => (List.mapM draw sizes).bind fun js => PMF.pure (j :: js) :=
    List.mapM_cons
  rw [hcons, bind_apply_of_unique, bind_apply_of_unique, PMF.pure_apply_self, mul_one]
  · intro js _ hjs
    exact (List.cons.inj ((PMF.mem_support_pure_iff _ _).mp hjs)).2.symm
  · intro j _ hj
    obtain ⟨js, -, hjs⟩ := (PMF.mem_support_bind_iff _ _ _).mp hj
    exact (List.cons.inj ((PMF.mem_support_pure_iff _ _).mp hjs)).1.symm

theorem UniformDraws.mapM_apply (h : UniformDraws draw)
    (his : List.Forall₂ (fun size i => i < size) sizes is) :
    (List.mapM draw sizes) is = (sizes.prod : ENNReal)⁻¹ := by
  induction his with
  | nil =>
      rw [List.mapM_nil, List.prod_nil, Nat.cast_one, inv_one]
      exact PMF.pure_apply_self []
  | @cons size i sizes is hi _ ih =>
      rw [mapM_cons_apply, h.inside hi, ih, List.prod_cons, Nat.cast_mul,
        ENNReal.mul_inv (.inr (ENNReal.natCast_ne_top _)) (.inl (ENNReal.natCast_ne_top _))]

/-- Only indices below the sizes are drawn. -/
theorem UniformDraws.forall₂_of_mem_support (h : UniformDraws draw)
    (hpos : ∀ size ∈ sizes, 0 < size) (his : is ∈ (List.mapM draw sizes).support) :
    List.Forall₂ (fun size i => i < size) sizes is := by
  induction sizes generalizing is with
  | nil =>
      rw [List.mapM_nil] at his
      obtain rfl : is = [] := (PMF.mem_support_pure_iff _ _).mp his
      exact .nil
  | cons size sizes ih =>
      obtain ⟨hsize, hsizes⟩ := List.forall_mem_cons.mp hpos
      rw [List.mapM_cons] at his
      obtain ⟨i, hi, his⟩ := (PMF.mem_support_bind_iff _ _ _).mp his
      obtain ⟨js, hjs, his⟩ := (PMF.mem_support_bind_iff _ _ _).mp his
      obtain rfl : is = i :: js := (PMF.mem_support_pure_iff _ _).mp his
      refine .cons ?_ (ih hsizes hjs)
      by_contra hle
      exact (PMF.mem_support_iff _ _).mp hi (h.outside hsize (Nat.le_of_not_lt hle))

end

/-! ## Indices into the orbits -/

/-- The choices of one index into every orbit. -/
def Chain.choices (c : Chain) : Set (List Nat) :=
  {is | List.Forall₂ (fun length i => i < length) c.lengths is}

theorem Chain.mem_choices_iff {c : Chain} {is : List Nat} :
    is ∈ c.choices
      ↔ List.Forall₂ (fun (level : Level) i => i < level.orbit.length) c.levels is :=
  List.forall₂_map_left_iff

namespace Words

/-- The high half of the product of a word and the size is below the size. -/
theorem drawFrom_fst_lt {size : Nat} (hsize : 0 < size) {words : List Nat}
    (hwords : ∀ word ∈ words, word < UInt64.size) (used : Nat) :
    (drawFrom size words used).1 < size := by
  induction words generalizing used with
  | nil => exact hsize
  | cons word words ih =>
      obtain ⟨hword, hrest⟩ := List.forall_mem_cons.mp hwords
      rw [drawFrom]
      split
      · exact Nat.div_lt_of_lt_mul (Nat.mul_lt_mul_of_pos_right hword hsize)
      · exact ih hrest _

theorem drawFrom_left_subset (size : Nat) (words : List Nat) (used : Nat) :
    (drawFrom size words used).2.left ⊆ words := by
  induction words generalizing used with
  | nil => exact List.Subset.refl _
  | cons word words ih =>
      rw [drawFrom]
      split
      · exact List.subset_cons_self _ _
      · exact List.subset_cons_of_subset _ (ih _)

theorem mapM_draw_lt {sizes : List Nat} (hpos : ∀ size ∈ sizes, 0 < size) {w : Words}
    (hwords : ∀ word ∈ w.left, word < UInt64.size) :
    List.Forall₂ (fun size i => i < size) sizes ((List.mapM draw sizes).run w).1 := by
  induction sizes generalizing w with
  | nil => exact .nil
  | cons size sizes ih =>
      obtain ⟨hsize, hsizes⟩ := List.forall_mem_cons.mp hpos
      rw [List.mapM_cons]
      refine .cons (drawFrom_fst_lt hsize hwords _) (ih hsizes ?_)
      exact fun word hword => hwords word (drawFrom_left_subset _ _ _ hword)

end Words

/-! ## The sample -/

namespace SignedGroup

variable {n : Nat} {H : Subgroup (Signed n)} {G : SignedGroup}

theorem Presents.lengths_pos (hG : G.Presents n H) : ∀ length ∈ G.chain.lengths, 0 < length := by
  intro length hlength
  obtain ⟨level, hlevel, rfl⟩ := List.mem_map.mp hlength
  exact (hG.chain.complete.sound level hlevel).length_pos

/-- One choice of indices for every member, and only members. -/
theorem Presents.bijOn_elementAt (hG : G.Presents n H) :
    Set.BijOn G.chain.elementAt G.chain.choices {p | p.Valid ∧ G.contains p = true} := by
  refine ⟨?_, ?_, ?_⟩
  · intro is his
    obtain ⟨-, x, hx, -, -, hat⟩ := hG.exists_elementAt (Chain.mem_choices_iff.mp his)
    rw [Set.mem_ofPred_eq, hat]
    exact ⟨x.on.valid, (hG.contains_val_iff x).mpr hx⟩
  · intro is his js hjs heq
    exact hG.elementAt_injective (Chain.mem_choices_iff.mp his) (Chain.mem_choices_iff.mp hjs) heq
  · rintro p ⟨hp, hmem⟩
    obtain ⟨hon, hx⟩ := (hG.contains_iff hp).mp hmem
    obtain ⟨k, hk, hitem⟩ := hG.exists_item hx
    rw [hG.item_eq hk] at hitem
    exact ⟨_, Chain.mem_choices_iff.mpr (digits_lt_length hk), Option.some.inj hitem⟩

/-- The mass of the sample is the one of the indices that pick it. -/
theorem Presents.sampleWith_elementAt (hG : G.Presents n H) {draw : Nat → PMF Nat}
    (h : UniformDraws draw) {is : List Nat} (his : is ∈ G.chain.choices) :
    G.sampleWith draw (G.chain.elementAt is) = (G.order : ENNReal)⁻¹ := by
  have hbind : G.sampleWith draw
      = (List.mapM draw G.chain.lengths).bind fun js => PMF.pure (G.chain.elementAt js) := rfl
  rw [hbind, bind_apply_of_unique, PMF.pure_apply_self, mul_one, h.mapM_apply his, order,
    Chain.order_eq_prod, Chain.lengths]
  intro js hjs heq
  have hchoice := h.forall₂_of_mem_support hG.lengths_pos hjs
  exact hG.bijOn_elementAt.injOn hchoice his ((PMF.mem_support_pure_iff _ _).mp heq).symm

theorem Presents.mem_of_mem_support (hG : G.Presents n H) {draw : Nat → PMF Nat}
    (h : UniformDraws draw) {p : SignedPerm} (hp : p ∈ (G.sampleWith draw).support) :
    p.Valid ∧ G.contains p = true := by
  obtain ⟨is, his, hp⟩ := (PMF.mem_support_bind_iff _ _ _).mp hp
  obtain rfl : p = G.chain.elementAt is := (PMF.mem_support_pure_iff _ _).mp hp
  exact hG.bijOn_elementAt.mapsTo (h.forall₂_of_mem_support hG.lengths_pos his)

/-- Indices below the lengths of the orbits pick every element, each by one choice.  From
    independent uniform draws every element is equally likely, and nothing else is sampled;
    whatever the random words are, they choose an element. -/
theorem sampling_uniform (hG : G.Reachable) :
    Set.BijOn G.chain.elementAt G.chain.choices {p | p.Valid ∧ G.contains p = true}
      ∧ (∀ draw : Nat → PMF Nat, UniformDraws draw → ∀ p : SignedPerm,
        G.sampleWith draw p
          = if p.Valid ∧ G.contains p = true then (G.order : ENNReal)⁻¹ else 0)
      ∧ (∀ words, (G.sample words).1 = ((G.sampleWith Words.draw).run ⟨words, 0⟩).1)
      ∧ ∀ words, (∀ word ∈ words, word < UInt64.size) → ∃ is ∈ G.chain.choices,
        (G.sample words).1 = G.chain.elementAt is
          ∧ (G.sample words).1.Valid ∧ G.contains (G.sample words).1 = true := by
  have hp := hG.presents
  refine ⟨hp.bijOn_elementAt, ?_, fun words => rfl, ?_⟩
  · intro draw hdraw p
    split
    next hmem =>
      obtain ⟨is, his, rfl⟩ := hp.bijOn_elementAt.surjOn hmem
      exact hp.sampleWith_elementAt hdraw his
    next hmem =>
      rw [PMF.apply_eq_zero_iff]
      exact fun hsupport => hmem (hp.mem_of_mem_support hdraw hsupport)
  · intro words hwords
    have his : ((List.mapM Words.draw G.chain.lengths).run ⟨words, 0⟩).1 ∈ G.chain.choices :=
      Words.mapM_draw_lt hp.lengths_pos hwords
    exact ⟨_, his, rfl, hp.bijOn_elementAt.mapsTo his⟩

/-- All permutations of three points: the rotation comes up once in six times. -/
theorem sampling_uniform_three :
    ∃ G draw, generate 3 [rotation 3 false, firstSwap 3 false] = .ok G ∧ UniformDraws draw
      ∧ G.sampleWith draw (rotation 3 false) = 6⁻¹
      ∧ G.sampleWith draw (rotation 3 true) = 0
      ∧ G.contains (G.sample [12297829382473034411, 9223372036854775808]).1 = true := by
  have hvalid : ∀ g ∈ [rotation 3 false, firstSwap 3 false], g.Valid := by decide +kernel
  have hmade : (generate 3 [rotation 3 false, firstSwap 3 false]).toOption.map (fun G =>
      (G.order, G.contains (rotation 3 false), G.contains (rotation 3 true)))
        = some (6, true, false) := by
    decide +kernel
  obtain ⟨G, hG, heq⟩ := Chain.exists_of_map_toOption hmade
  obtain ⟨horder, heq⟩ := Prod.mk.inj heq
  obtain ⟨hmem, hmem'⟩ := Prod.mk.inj heq
  obtain ⟨draw, hdraw⟩ := exists_uniformDraws
  obtain ⟨-, hmass, -, hwords⟩ := sampling_uniform (.generate hvalid hG)
  obtain ⟨-, -, -, -, hsample⟩ :=
    hwords [12297829382473034411, 9223372036854775808] (by decide +kernel)
  refine ⟨G, draw, hG, hdraw, ?_, ?_, hsample⟩
  · rw [hmass draw hdraw, if_pos ⟨hvalid _ List.mem_cons_self, hmem⟩, horder]
    rfl
  · rw [hmass draw hdraw, if_neg]
    rintro ⟨-, hin⟩
    rw [hmem'] at hin
    exact nomatch hin

end SignedGroup

end SlotSymmetry
