import SlotSymmetry.Perm.Compare
import SlotSymmetry.Proofs.Perm.Record
import SlotSymmetry.Proofs.Perm.Tables

/-! # Permutations that were not checked

    Reading makes every pair of tables whose entries fit, also one that is no
    bijection with its inverse, where the constructor from images refuses or
    works out another inverse.  Such a value can be told from a valid one by its
    product with its inverse (`compose_inverse_iff`), but not by comparing it: the
    order does not look at the table of preimages. -/

namespace SlotSymmetry

namespace SignedPerm

variable {p q : SignedPerm}

/-! ## Telling valid values from the rest -/

/-- It is enough that the images undo the preimages. -/
theorem valid_of_act_actInv (hsize : p.preimage.size = p.degree)
    (hact : ∀ i, i < p.degree → p.act (p.actInv i) = i) : p.Valid := by
  have hlt : ∀ i, i < p.degree → p.actInv i < p.degree := by
    intro i hi
    by_contra hge
    -- a point past the degree would be its own image
    have hsame := act_of_degree_le (Nat.le_of_not_lt hge)
    rw [hact i hi] at hsame
    exact hge (hsame ▸ hi)
  have hinj : ∀ i j, i < p.degree → j < p.degree → p.actInv i = p.actInv j → i = j := by
    intro i j hi hj heq
    rw [← hact i hi, heq, hact j hj]
  have hreach : ∀ i, i < p.degree → ∃ j, j < p.degree ∧ p.actInv j = i :=
    fun i hi => exists_image_eq hlt hinj hi
  refine ⟨hsize, fun i hi => ?_, hlt, fun i hi => ?_, hact⟩
  · obtain ⟨j, hj, rfl⟩ := hreach i hi
    rw [hact j hj]
    exact hj
  · obtain ⟨j, hj, rfl⟩ := hreach i hi
    rw [hact j hj]

theorem On.mul_inverse (hp : p.On p.degree) : p * p.inverse = id p.degree := by
  refine (hp.mul hp.inverse).ext (id_on _) (fun i _ => ?_) (bne_self_eq_false p.flips)
  rw [hp.act_mul hp.inverse, act_id]
  exact hp.act_actInv i

theorem compose_inverse_iff : p.compose p.inverse = .ok (id p.degree) ↔ p.Valid := by
  constructor
  · intro h
    rw [compose] at h
    split at h
    · cases h
    · rename_i hdegree
      have hsize : p.inverse.degree = p.degree := (not_not.mp hdegree).symm
      split at h
      · have hmul : p * p.inverse = id p.degree := Except.ok.inj h
        refine valid_of_act_actInv hsize fun i hi => ?_
        have hact : (p * p.inverse).act i = p.act (p.actInv i) := act_mul_of_lt (hsize.symm ▸ hi)
        rw [← hact, hmul, act_id]
      · cases h
  · intro hvalid
    have hp : p.On p.degree := ⟨hvalid, rfl⟩
    rw [hp.compose_eq hp.inverse, hp.mul_inverse]

/-- The constructor from images takes the tables of valid values and makes nothing else of them. -/
theorem valid_iff_ofImage? : p.Valid ↔ ofImage? p.image = .ok (p.withFlips false) := by
  rw [ofImage?_eq_ok_iff]
  constructor
  · intro hvalid
    have hp : p.On p.degree := ⟨hvalid, rfl⟩
    have hperm : p.image.toList.Perm (List.range p.degree) := hp.image_perm
    exact ⟨hperm, (hp.withFlips false).ext (ofImage_on_of_perm hperm false) (fun _ _ => rfl) rfl⟩
  · rintro ⟨hperm, heq⟩
    have hon : (p.withFlips false).On p.degree := heq ▸ ofImage_on_of_perm hperm false
    exact (hon.withFlips p.flips).valid

theorem compare_eq_iff : compare p q = .eq ↔ p.image = q.image ∧ p.flips = q.flips := by
  show (compare p.image q.image).then (compare p.flips q.flips) = .eq ↔ _
  rw [Ordering.then_eq_eq, Std.compare_eq_iff_eq, Std.compare_eq_iff_eq]

/-- The order tells valid values apart. -/
theorem eq_of_compare_eq (hp : p.Valid) (hq : q.Valid) (h : compare p q = .eq) : p = q := by
  obtain ⟨himage, hflips⟩ := compare_eq_iff.mp h
  have hdegree : q.degree = p.degree := congrArg Array.size himage.symm
  exact On.ext ⟨hp, rfl⟩ ⟨hq, hdegree⟩ (fun i _ => congrArg (·.getD i i) himage) hflips

/-! ## What is read -/

theorem exists_read?_iff : (∃ text, read? text = some p) ↔ p.Fits :=
  ⟨fun ⟨_, h⟩ => (read?_eq_some_iff.mp h).1, fun hfits =>
    ⟨p.render, read?_eq_some_iff.mpr ⟨hfits, _, Json.render_spelledBy _, p.records_toJson⟩⟩⟩

/-- Every value whose entries fit is read from some text.  The valid ones among them are those that
    the constructor from images makes, their sign aside, and those whose product with their inverse
    is the identity.  Values compare equal if their images and signs are the same, and only valid
    ones are then equal for certain. -/
theorem read_takes_any_tables (p q : SignedPerm) :
    ((∃ text, read? text = some p) ↔ p.Fits)
    ∧ (ofImage? p.image = .ok (p.withFlips false) ↔ p.Valid)
    ∧ (p.compose p.inverse = .ok (id p.degree) ↔ p.Valid)
    ∧ (compare p q = .eq ↔ p.image = q.image ∧ p.flips = q.flips)
    ∧ (p.Valid → q.Valid → (compare p q = .eq ↔ p = q)) := by
  refine ⟨exists_read?_iff, valid_iff_ofImage?.symm, compose_inverse_iff, compare_eq_iff, ?_⟩
  intro hp hq
  refine ⟨eq_of_compare_eq hp hq, ?_⟩
  rintro rfl
  exact compare_eq_iff.mpr ⟨rfl, rfl⟩

/-- The antisymmetric exchange of two points is no identity. -/
theorem read_takes_any_tables_swap :
    (SignedPerm.mk #[1, 0] #[1, 0] true).Valid ∧ (id 2).Valid
    ∧ ¬ compare (SignedPerm.mk #[1, 0] #[1, 0] true) (id 2) = .eq := by
  have hswap : (SignedPerm.mk #[1, 0] #[1, 0] true).Valid := by decide
  have hid : (id 2).Valid := by decide
  refine ⟨hswap, hid, fun h => ?_⟩
  exact absurd (((read_takes_any_tables _ _).2.2.2.2 hswap hid).mp h) (by decide)

/-- Two points with one image, and the identity with a foreign inverse. -/
theorem read_keeps_no_invariant :
    read? "\x7b\"map\":[0,0],\"inv\":[0,0],\"antisymmetric\":false\x7d"
      = some ⟨#[0, 0], #[0, 0], false⟩
    ∧ ¬ (SignedPerm.mk #[0, 0] #[0, 0] false).Valid
    ∧ ofImage? #[0, 0] = .error (.notBijective 2)
    ∧ read? "\x7b\"map\":[0,1],\"inv\":[1,0],\"antisymmetric\":false\x7d"
      = some ⟨#[0, 1], #[1, 0], false⟩
    ∧ compare (SignedPerm.mk #[0, 1] #[1, 0] false) (id 2) = .eq
    ∧ SignedPerm.mk #[0, 1] #[1, 0] false ≠ id 2
    ∧ (SignedPerm.mk #[0, 1] #[1, 0] false).compose (SignedPerm.mk #[0, 1] #[1, 0] false).inverse
      ≠ .ok (id 2) := by
  have hforeign : ¬ (SignedPerm.mk #[0, 1] #[1, 0] false).Valid := by decide
  refine ⟨by decide +kernel, by decide, ofImage?_eq_error (by decide), by decide +kernel,
    compare_eq_iff.mpr ⟨by decide, rfl⟩, by decide, fun h => hforeign ?_⟩
  exact compose_inverse_iff.mp h

end SignedPerm

end SlotSymmetry
