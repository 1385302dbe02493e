import SlotSymmetry.Group.Intersection
import SlotSymmetry.Proofs.Chain.Shape
import SlotSymmetry.Proofs.Search.Tree

/-! # Following a chain

    Images are pulled back through the product of the transversal elements
    chosen so far.  Over complete levels, this succeeds exactly if some element
    of their group sends the base points to the images: elements that agree on
    the first base point differ by one of the levels below.  So a chain follows
    the start of whatever it follows, and a search may prune by it. -/

namespace SlotSymmetry

open SignedPerm (Generated)

/-- A list starts the values of a function exactly if it agrees with them place by place. -/
theorem prefix_map_iff {α β : Type} {f : α → β} {l : List α} {v : List β}
    (h : v.length ≤ l.length) : v <+: l.map f ↔ ∀ z ∈ l.zip v, f z.1 = z.2 := by
  induction l generalizing v with
  | nil =>
      obtain rfl := List.eq_nil_of_length_eq_zero (Nat.le_zero.mp h)
      exact iff_of_true List.prefix_rfl nofun
  | cons a l ih =>
      cases v with
      | nil => exact iff_of_true List.nil_prefix nofun
      | cons b v =>
          rw [List.map_cons, List.cons_prefix_cons, List.zip_cons_cons, List.forall_mem_cons,
            ih (Nat.le_of_succ_le_succ h), eq_comm]

namespace Chain

variable {n : Nat} {level : Level} {below levels : List Level}

theorem followsFrom_cons (above : SignedPerm) (image : Nat) (images : List Nat) :
    followsFrom (level :: below) above (image :: images) = true
      ↔ level.orbit.contains (above.actInv image) = true
        ∧ followsFrom below (above * level.carrier (above.actInv image)) images = true := by
  rw [followsFrom]
  exact Bool.and_eq_true_iff

/-- Images are followed exactly if an element of the levels, after `above`, has them. -/
theorem followsFrom_iff (h : Complete n levels) (above : Signed n) (images : List Nat) :
    followsFrom levels above.val images = true ↔
      ∃ y ∈ topGroup n levels,
        ∀ z ∈ (levels.map (·.basePoint)).zip images, (above * y) • z.1 = z.2 := by
  induction levels generalizing above images with
  | nil =>
      refine iff_of_true rfl ⟨1, Subgroup.one_mem _, fun z hz => ?_⟩
      exact absurd hz List.not_mem_nil
  | cons level below ih =>
      cases images with
      | nil =>
          refine iff_of_true rfl ⟨1, Subgroup.one_mem _, fun z hz => ?_⟩
          rw [List.zip_nil_right] at hz
          exact absurd hz List.not_mem_nil
      | cons image images =>
          have hs := h.1
          have hback : above.val.actInv image = above⁻¹ • image := rfl
          rw [followsFrom_cons, hback, List.map_cons, List.zip_cons_cons]
          constructor
          · rintro ⟨hpoint, hrest⟩
            obtain ⟨y, hy, hall⟩ := (ih h.2.2 (above * hs.transporter _) images).mp hrest
            refine ⟨hs.transporter (above⁻¹ • image) * y, ?_, ?_⟩
            · exact (level.group n).mul_mem (hs.transporter_mem _) (h.top_below_le hy)
            · refine List.forall_mem_cons.mpr ⟨?_, fun z hz => ?_⟩
              · rw [mul_smul, h.transporter_mul_smul hpoint hy, smul_inv_smul]
              · rw [← mul_assoc]
                exact hall z hz
          · rintro ⟨y, hy, hall⟩
            obtain ⟨hfirst, hrest⟩ := List.forall_mem_cons.mp hall
            -- the image of the base point is the only candidate
            have hpoint : y • level.basePoint = above⁻¹ • image := by
              rw [eq_inv_smul_iff, ← mul_smul]
              exact hfirst
            rw [← hpoint]
            refine ⟨hs.contains_smul hy, ?_⟩
            refine (ih h.2.2 (above * hs.transporter _) images).mpr ?_
            refine ⟨hs.remainder y, h.remainder_mem hy, fun z hz => ?_⟩
            rw [mul_assoc, hs.transporter_mul_remainder]
            exact hrest z hz

/-- Images are followed from a level on exactly if an element that the levels from there on
    describe has them. -/
theorem follows_iff {c : Chain} (hdegree : c.degree = n) (hcomplete : Complete n c.levels)
    (first : Nat) (images : List Nat) :
    c.follows first images = true ↔
      ∃ y ∈ topGroup n (c.levels.drop first),
        ∀ z ∈ (c.base.drop first).zip images, y • z.1 = z.2 := by
  rw [follows, hdegree, ← Signed.val_one, followsFrom_iff (hcomplete.drop first), base,
    ← List.map_drop]
  simp only [one_mul]

/-! ## The elements of the group of a chain -/

section

variable {H : Subgroup (Signed n)} {gens : List SignedPerm} {wanted : List Nat} {c : Chain}
  {first : Nat} {images : List Nat}

/-- A finished chain follows what an element of its group makes of the base points. -/
theorem Finished.follows_iff (hc : c.Finished n H wanted)
    (hfits : first + images.length ≤ c.levels.length) :
    c.follows first images = true ↔ ∃ x ∈ H, (∀ b ∈ c.base.take first, x.val.act b = b)
      ∧ images <+: (c.base.drop first).map x.val.act := by
  have hlength : images.length ≤ (c.base.drop first).length := by
    rw [List.length_drop, base, List.length_map]
    omega
  rw [Chain.follows_iff hc.degree_eq hc.complete]
  refine exists_congr fun x => ?_
  rw [hc.mem_top_drop_iff, prefix_map_iff hlength, and_assoc]
  rfl

/-- Images are followed from a level on exactly if a product of the generators fixes the base
    points before and sends the ones from there on to the images.  What starts a list that is
    followed is followed too. -/
theorem follows_exact (hgens : ∀ g ∈ gens, g.Valid) (hc : buildWithBase n gens wanted = .ok c)
    (hfits : first + images.length ≤ c.levels.length) :
    (c.follows first images = true ↔ ∃ p, Generated n gens p
        ∧ (∀ b ∈ c.base.take first, p.act b = b) ∧ images <+: (c.base.drop first).map p.act)
      ∧ ∀ shorter, shorter <+: images →
        c.follows first images = true → c.follows first shorter = true := by
  obtain ⟨hlt, hdegree⟩ := inputs_of_ok hc
  have hon : ∀ g ∈ gens, g.On n := fun g hg => ⟨hgens g hg, hdegree g hg⟩
  have hfinished := finished_of_ok hon hlt hc
  constructor
  · rw [hfinished.follows_iff hfits]
    exact exists_mem_span_iff hon fun p =>
      (∀ b ∈ c.base.take first, p.act b = b) ∧ images <+: (c.base.drop first).map p.act
  · intro shorter hshorter hfollows
    obtain ⟨x, hx, hfix, himages⟩ := (hfinished.follows_iff hfits).mp hfollows
    have hle := hshorter.length_le
    -- the element that has the images has the first of them
    exact (hfinished.follows_iff (by omega)).mpr ⟨x, hx, hfix, hshorter.trans himages⟩

/-- The symmetries of a square that fix a corner: one of them exchanges its two neighbours, none
    of them sends a neighbour to the opposite corner. -/
theorem follows_exact_square :
    ∃ c, buildWithBase 4 [SignedGroup.rotation 4 false, .ofImage #[0, 3, 2, 1] true] [] = .ok c
      ∧ (∃ p, Generated 4 [SignedGroup.rotation 4 false, .ofImage #[0, 3, 2, 1] true] p
        ∧ p.act 0 = 0 ∧ p.act 1 = 3)
      ∧ ¬ ∃ p, Generated 4 [SignedGroup.rotation 4 false, .ofImage #[0, 3, 2, 1] true] p
        ∧ p.act 0 = 0 ∧ p.act 1 = 2 := by
  have hgens : ∀ g ∈ [SignedGroup.rotation 4 false, .ofImage #[0, 3, 2, 1] true], g.Valid := by
    decide +kernel
  have hmade : (buildWithBase 4 [SignedGroup.rotation 4 false, .ofImage #[0, 3, 2, 1] true]
      []).toOption.map (fun c => (c.levels.length, c.base, c.follows 1 [3], c.follows 1 [2]))
      = some (2, [0, 1], true, false) := by decide +kernel
  obtain ⟨c, hc, heq⟩ := exists_of_map_toOption hmade
  simp only [Prod.mk.injEq] at heq
  obtain ⟨hlevels, hbase, hneighbour, hopposite⟩ := heq
  have hfits : ∀ image : Nat, 1 + [image].length ≤ c.levels.length :=
    fun _ => Nat.le_of_eq hlevels.symm
  have hexact := fun image => (follows_exact hgens hc (hfits image)).1
  rw [hbase] at hexact
  refine ⟨c, hc, ?_, ?_⟩
  · obtain ⟨p, hp, hfix, himages⟩ := (hexact 3).mp hneighbour
    exact ⟨p, hp, hfix 0 List.mem_cons_self, (List.cons_prefix_cons.mp himages).1.symm⟩
  · rintro ⟨p, hp, hfix, himage⟩
    have hfollows := (hexact 2).mpr ⟨p, hp, by simpa using hfix, by simp [himage]⟩
    rw [hopposite] at hfollows
    exact nomatch hfollows

end

end Chain

end SlotSymmetry
