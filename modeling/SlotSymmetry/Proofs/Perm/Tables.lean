import SlotSymmetry.Proofs.Perm.Laws

/-! # Tables that are bijections

    Most constructors fill in the table of the inverse without a look at the
    table of images they are given, and what they make is valid exactly if this
    is a rearrangement of `0..n` (`ofImage_on_iff`).  The constructor that does
    look tries every entry in the table of the inverse.  Of two equal entries the
    first one is not found at its place, and an entry out of range is found
    nowhere, so it accepts the rearrangements and nothing else
    (`isBijection_iff`). -/

namespace SlotSymmetry

namespace SignedPerm

variable {n : Nat} {image : Array Nat} {p : SignedPerm}

theorem getElem_image {i : Nat} (hi : i < p.image.size) : p.image[i] = p.act i :=
  Array.getElem_eq_getD i

/-! ## Rearrangements -/

/-- The images of a valid permutation are a rearrangement of its points. -/
theorem On.image_perm (hp : p.On n) : p.image.toList.Perm (List.range n) := by
  have hsize : p.image.size = n := hp.degree_eq
  have hnodup : p.image.toList.Nodup := by
    rw [List.nodup_iff_getElem?_ne_getElem?]
    intro i j hij hj heq
    have hi' : i < p.image.size := Nat.lt_trans hij hj
    rw [Array.getElem?_toList, Array.getElem?_toList, Array.getElem?_eq_getElem hi',
      Array.getElem?_eq_getElem hj, getElem_image, getElem_image] at heq
    exact Nat.ne_of_lt hij (hp.act_injective (Option.some.inj heq))
  rw [List.perm_ext_iff_of_nodup hnodup List.nodup_range]
  intro q
  rw [List.mem_range, Array.mem_toList_iff, Array.mem_iff_getElem]
  constructor
  · rintro ⟨i, hi, rfl⟩
    rw [getElem_image]
    exact hp.act_lt (hsize ▸ hi)
  · intro hq
    refine ⟨p.actInv q, hsize.symm ▸ hp.actInv_lt hq, ?_⟩
    rw [getElem_image, hp.act_actInv]

theorem ofImage_on_of_perm (hperm : image.toList.Perm (List.range n)) (flips : Bool) :
    (ofImage image flips).On n := by
  have hsize : image.size = n := by
    rw [← Array.length_toList, hperm.length_eq, List.length_range]
  subst hsize
  refine ofImage_on rfl (fun i hi => ?_) fun i j hi hj heq => ?_
  · rw [← Array.getElem_eq_getD (h := hi)]
    exact List.mem_range.mp (hperm.mem_iff.mp (Array.getElem_mem_toList hi))
  · rw [← Array.getElem_eq_getD (h := hi), ← Array.getElem_eq_getD (h := hj),
      ← Array.getElem_toList, ← Array.getElem_toList] at heq
    exact (hperm.nodup_iff.mpr List.nodup_range).getElem_inj_iff.mp heq

theorem ofImage_on_iff {flips : Bool} :
    (ofImage image flips).On n ↔ image.toList.Perm (List.range n) :=
  ⟨On.image_perm, fun hperm => ofImage_on_of_perm hperm flips⟩

/-! ## The check -/

theorem isBijection_eq_true_iff : isBijection image = true
    ↔ ∀ i (hi : i < image.size), (positions image)[image[i]]? = some i := by
  rw [isBijection, Array.all_eq_true]
  simp

theorem isBijection_iff : isBijection image = true ↔ image.toList.Perm (List.range image.size) := by
  have hvalid : (ofImage image false).On image.size ↔ image.toList.Perm (List.range image.size) :=
    ofImage_on_iff
  rw [isBijection_eq_true_iff, ← hvalid]
  constructor
  · intro hfound
    refine ofImage_on rfl (fun i hi => ?_) fun i j hi hj heq => ?_
    · rw [← Array.getElem_eq_getD (h := hi), ← size_positions image]
      exact (Array.getElem?_eq_some_iff.mp (hfound i hi)).1
    · -- equal entries are found at one place
      rw [← Array.getElem_eq_getD (h := hi), ← Array.getElem_eq_getD (h := hj)] at heq
      have hi' := hfound i hi
      rw [heq, hfound j hj] at hi'
      exact (Option.some.inj hi').symm
  · intro hon i hi
    refine getElem?_positions (fun i j hi hj heq => ?_) hi ?_
    · refine hon.act_injective ?_
      rw [← getElem_image hi, ← getElem_image hj]
      exact heq
    · exact (getElem_image (p := ofImage image false) hi) ▸ hon.act_lt hi

theorem ofImage?_eq_ok_iff : ofImage? image = .ok p
    ↔ image.toList.Perm (List.range image.size) ∧ p = ofImage image false := by
  rw [← isBijection_iff, ofImage?]
  split
  · next haccepted => exact ⟨fun h => ⟨haccepted, (Except.ok.inj h).symm⟩, fun h => h.2 ▸ rfl⟩
  · next hrefused => exact iff_of_false nofun fun h => hrefused h.1

theorem ofImage?_eq_error (hnot : ¬ image.toList.Perm (List.range image.size)) :
    ofImage? image = .error (.notBijective image.size) :=
  if_neg (mt isBijection_iff.mp hnot)

end SignedPerm

end SlotSymmetry
