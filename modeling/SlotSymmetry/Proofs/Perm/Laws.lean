import Mathlib.Data.Fintype.EquivFin
import SlotSymmetry.Perm.Basic

/-! # Laws of signed permutations

    `On n` collects the valid permutations of `0..n`.  They are determined by
    their images and their sign (`On.ext`), and the identity, products and
    inverses stay among them.  A point past the degree is fixed by all of them,
    so the laws of the action hold for every natural number. -/

namespace SlotSymmetry

namespace SignedPerm

/-- The valid permutations of `0..n`. -/
structure On (n : Nat) (p : SignedPerm) : Prop where
  valid : p.Valid
  degree_eq : p.degree = n

instance decidableOn (n : Nat) (p : SignedPerm) : Decidable (p.On n) :=
  decidable_of_iff (p.Valid ∧ p.degree = n) ⟨fun h => ⟨h.1, h.2⟩, fun h => ⟨h.valid, h.degree_eq⟩⟩

/-! ## Points -/

theorem act_of_degree_le {p : SignedPerm} {i : Nat} (h : p.degree ≤ i) : p.act i = i := by
  show p.image.getD i i = i
  rw [Array.getD_eq_getD_getElem?, Array.getElem?_eq_none h]
  rfl

theorem actInv_of_size_le {p : SignedPerm} {i : Nat} (h : p.preimage.size ≤ i) :
    p.actInv i = i := by
  show p.preimage.getD i i = i
  rw [Array.getD_eq_getD_getElem?, Array.getElem?_eq_none h]
  rfl

section On

variable {n : Nat} {p q : SignedPerm}

theorem On.act_of_le (hp : p.On n) {i : Nat} (h : n ≤ i) : p.act i = i :=
  act_of_degree_le (hp.degree_eq ▸ h)

theorem On.actInv_of_le (hp : p.On n) {i : Nat} (h : n ≤ i) : p.actInv i = i := by
  refine actInv_of_size_le ?_
  rw [hp.valid.size_preimage, hp.degree_eq]
  exact h

theorem On.act_lt (hp : p.On n) {i : Nat} (h : i < n) : p.act i < n := by
  have := hp.valid.act_lt i (hp.degree_eq ▸ h)
  rwa [hp.degree_eq] at this

theorem On.actInv_lt (hp : p.On n) {i : Nat} (h : i < n) : p.actInv i < n := by
  have := hp.valid.actInv_lt i (hp.degree_eq ▸ h)
  rwa [hp.degree_eq] at this

theorem On.actInv_act (hp : p.On n) (i : Nat) : p.actInv (p.act i) = i := by
  by_cases h : i < n
  · exact hp.valid.actInv_act i (hp.degree_eq ▸ h)
  · rw [hp.act_of_le (by omega), hp.actInv_of_le (by omega)]

theorem On.act_actInv (hp : p.On n) (i : Nat) : p.act (p.actInv i) = i := by
  by_cases h : i < n
  · exact hp.valid.act_actInv i (hp.degree_eq ▸ h)
  · rw [hp.actInv_of_le (by omega), hp.act_of_le (by omega)]

theorem On.act_injective (hp : p.On n) {i j : Nat} (h : p.act i = p.act j) : i = j := by
  rw [← hp.actInv_act i, h, hp.actInv_act j]

/-- The images determine the table of images. -/
theorem image_eq_of_act (hp : p.degree = n) (hq : q.degree = n)
    (hact : ∀ i, i < n → p.act i = q.act i) : p.image = q.image := by
  refine Array.ext (hp.trans hq.symm) ?_
  intro i hpi hqi
  have hi : i < n := hp ▸ hpi
  have h : p.image.getD i i = q.image.getD i i := hact i hi
  rwa [Array.getD_eq_getD_getElem?, Array.getD_eq_getD_getElem?, Array.getElem?_eq_getElem hpi,
    Array.getElem?_eq_getElem hqi] at h

/-- A valid permutation is determined by its images and its sign. -/
theorem On.ext (hp : p.On n) (hq : q.On n) (hact : ∀ i, i < n → p.act i = q.act i)
    (hflips : p.flips = q.flips) : p = q := by
  have himage : p.image = q.image := image_eq_of_act hp.degree_eq hq.degree_eq hact
  have hinv : ∀ i, i < n → p.actInv i = q.actInv i := by
    intro i hi
    refine hp.act_injective ?_
    rw [hp.act_actInv, hact _ (hq.actInv_lt hi), hq.act_actInv]
  have hpreimage : p.preimage = q.preimage :=
    -- the table of preimages is the table of images of the inverse
    image_eq_of_act (p := p.inverse) (q := q.inverse)
      (hp.valid.size_preimage.trans hp.degree_eq) (hq.valid.size_preimage.trans hq.degree_eq) hinv
  cases p
  cases q
  simp_all

end On

/-! ## Tables of places -/

section Tables

variable {α : Type} (f : Nat → α) (points : List Nat)

theorem size_foldl_set (table : Array α) :
    (points.foldl (fun t q => t.setIfInBounds q (f q)) table).size = table.size := by
  induction points generalizing table with
  | nil => rfl
  | cons q points ih => rw [List.foldl_cons, ih, Array.size_setIfInBounds]

/-- What is written at a place depends on the place only, so it does not matter how often. -/
theorem getD_foldl_set (d : α) {table : Array α} {q : Nat} (hq : q < table.size) :
    (points.foldl (fun t q => t.setIfInBounds q (f q)) table).getD q d
      = if q ∈ points then f q else table.getD q d := by
  induction points generalizing table with
  | nil => rfl
  | cons p points ih =>
      rw [List.foldl_cons, ih (by rwa [Array.size_setIfInBounds])]
      by_cases hmem : q ∈ points
      · rw [if_pos hmem, if_pos (List.mem_cons_of_mem _ hmem)]
      · rw [if_neg hmem, Array.getD_eq_getD_getElem?, Array.getElem?_setIfInBounds]
        by_cases hp : p = q
        · subst hp
          rw [if_pos rfl, if_pos hq, Option.getD_some, if_pos List.mem_cons_self]
        · have hnot : q ∉ p :: points :=
            fun h => (List.mem_cons.mp h).elim (fun heq => hp heq.symm) hmem
          rw [if_neg hp, if_neg hnot, Array.getD_eq_getD_getElem?]

end Tables

theorem size_fold_setIfInBounds (image : Array Nat) (k : Nat) (hk : k ≤ image.size)
    (start : Array Nat) :
    (k.fold (fun place h table =>
      table.setIfInBounds (getElem image place (Nat.lt_of_lt_of_le h hk)) place) start).size
      = start.size := by
  induction k with
  | zero => rfl
  | succ k ih => rw [Nat.fold_succ, Array.size_setIfInBounds, ih (by omega)]

theorem size_positions (image : Array Nat) : (positions image).size = image.size := by
  rw [positions, size_fold_setIfInBounds image image.size (Nat.le_refl _), Array.size_replicate]

/-- Among entries that differ, each one is found at its own place: later places do not
    overwrite it. -/
theorem getElem?_fold_setIfInBounds {image : Array Nat}
    (hinj : ∀ i j (hi : i < image.size) (hj : j < image.size), image[i] = image[j] → i = j)
    {start : Array Nat} {i : Nat} (hi : i < image.size) (hlt : image[i] < start.size) (k : Nat)
    (hk : k ≤ image.size) (hik : i < k) :
    (k.fold (fun place h table =>
      table.setIfInBounds (getElem image place (Nat.lt_of_lt_of_le h hk)) place)
      start)[image[i]]? = some i := by
  induction k with
  | zero => exact absurd hik (Nat.not_lt_zero i)
  | succ k ih =>
      rw [Nat.fold_succ, Array.getElem?_setIfInBounds]
      by_cases h : image[k] = image[i]
      · have hki : k = i := hinj k i (by omega) hi h
        rw [if_pos h, if_pos (by rw [size_fold_setIfInBounds image k (by omega)]; omega), hki]
      · have hne : i ≠ k := by
          rintro rfl
          exact h rfl
        rw [if_neg h]
        exact ih (by omega) (by omega)

theorem getElem?_positions {image : Array Nat}
    (hinj : ∀ i j (hi : i < image.size) (hj : j < image.size), image[i] = image[j] → i = j)
    {i : Nat} (hi : i < image.size) (hlt : image[i] < image.size) :
    (positions image)[image[i]]? = some i :=
  getElem?_fold_setIfInBounds hinj hi (by rwa [Array.size_replicate]) image.size
    (Nat.le_refl _) hi

/-- Injective images of `0..n` reach every point. -/
theorem exists_image_eq {n : Nat} {f : Nat → Nat} (hlt : ∀ i, i < n → f i < n)
    (hinj : ∀ i j, i < n → j < n → f i = f j → i = j) {j : Nat} (hj : j < n) :
    ∃ i, i < n ∧ f i = j := by
  let onFin : Fin n → Fin n := fun i => ⟨f i, hlt i i.isLt⟩
  have hinjective : Function.Injective onFin := by
    intro a b hab
    exact Fin.ext (hinj a b a.isLt b.isLt (congrArg Fin.val hab))
  obtain ⟨i, hi⟩ := Finite.surjective_of_injective hinjective ⟨j, hj⟩
  exact ⟨i, i.isLt, congrArg Fin.val hi⟩

/-- Images of `0..n` that differ make a valid permutation. -/
theorem ofImage_on {n : Nat} {image : Array Nat} {flips : Bool} (hsize : image.size = n)
    (hlt : ∀ i, i < n → image.getD i i < n)
    (hinj : ∀ i j, i < n → j < n → image.getD i i = image.getD j j → i = j) :
    (ofImage image flips).On n := by
  have hget : ∀ i (hi : i < image.size), image.getD i i = image[i] := by
    intro i hi
    rw [Array.getD_eq_getD_getElem?, Array.getElem?_eq_getElem hi, Option.getD_some]
  -- the table of places takes every image back
  have hback : ∀ i, i < n → (ofImage image flips).actInv ((ofImage image flips).act i) = i := by
    intro i hi
    have hi' : i < image.size := hsize ▸ hi
    have hat : (positions image)[image[i]]? = some i := by
      refine getElem?_positions ?_ hi' ?_
      · intro a b ha hb hab
        refine hinj a b (hsize ▸ ha) (hsize ▸ hb) ?_
        rw [hget a ha, hget b hb, hab]
      · rw [← hget i hi', hsize]
        exact hlt i hi
    show (positions image).getD (image.getD i i) (image.getD i i) = i
    rw [hget i hi', Array.getD_eq_getD_getElem?, hat, Option.getD_some]
  have hreach : ∀ j, j < n → ∃ i, i < n ∧ (ofImage image flips).act i = j :=
    fun j hj => exists_image_eq (f := fun i => image.getD i i) hlt hinj hj
  have hdegree : (ofImage image flips).degree = n := hsize
  refine ⟨⟨?_, ?_, ?_, ?_, ?_⟩, hdegree⟩
  · exact size_positions image
  · rw [hdegree]
    exact hlt
  · rw [hdegree]
    intro j hj
    obtain ⟨i, hi, rfl⟩ := hreach j hj
    rw [hback i hi]
    exact hi
  · rw [hdegree]
    exact hback
  · rw [hdegree]
    intro j hj
    obtain ⟨i, hi, rfl⟩ := hreach j hj
    rw [hback i hi]

/-! ## Points past the degree -/

section Outside

variable {n q : Nat} {points before after : List Nat}

theorem find_outside_eq_none (h : ∀ q ∈ points, q < n) : points.find? (n ≤ ·) = none := by
  rw [List.find?_eq_none]
  exact fun q hq => by simpa using h q hq

/-- The first point past the degree is the one that is found. -/
theorem find_outside_eq (hpoints : points = before ++ q :: after) (hbefore : ∀ b ∈ before, b < n)
    (hq : n ≤ q) : points.find? (n ≤ ·) = some q := by
  rw [List.find?_eq_some_iff_append]
  refine ⟨decide_eq_true hq, before, after, hpoints, fun b hb => ?_⟩
  simpa using hbefore b hb

/-- All points are below the degree, or there is a first one past it. -/
theorem exists_first_outside (points : List Nat) (n : Nat) : (∀ q ∈ points, q < n)
    ∨ ∃ before q after, points = before ++ q :: after ∧ (∀ b ∈ before, b < n) ∧ n ≤ q := by
  cases hfind : points.find? (n ≤ ·) with
  | none =>
      refine Or.inl fun q hq => ?_
      have hnot := List.find?_eq_none.mp hfind q hq
      exact Nat.lt_of_not_le fun hle => hnot (decide_eq_true hle)
  | some q =>
      obtain ⟨hq, before, after, hpoints, hbefore⟩ := List.find?_eq_some_iff_append.mp hfind
      refine Or.inr ⟨before, q, after, hpoints, fun b hb => ?_, of_decide_eq_true hq⟩
      simpa using hbefore b hb

end Outside

/-! ## The operations -/

section Operations

variable {n : Nat} {a b : SignedPerm}

theorem act_id (n i : Nat) : (id n).act i = i := by
  show (Array.range n).getD i i = i
  rw [Array.getD_eq_getD_getElem?]
  by_cases h : i < n
  · rw [Array.getElem?_range, if_pos h, Option.getD_some]
  · rw [Array.getElem?_range, if_neg h, Option.getD_none]

theorem id_on (n : Nat) : (id n).On n := by
  have hdegree : (id n).degree = n := Array.size_range
  refine ⟨⟨rfl, ?_, ?_, ?_, ?_⟩, hdegree⟩
  · intro i hi
    rw [act_id]
    exact hi
  · intro i hi
    show (id n).act i < _
    rw [act_id]
    exact hi
  · intro i _
    show (id n).act ((id n).act i) = i
    rw [act_id, act_id]
  · intro i _
    show (id n).act ((id n).act i) = i
    rw [act_id, act_id]

theorem degree_mul : (a * b).degree = b.degree := Array.size_map

theorem act_mul_of_lt {i : Nat} (h : i < b.degree) : (a * b).act i = a.act (b.act i) := by
  show (b.image.map a.act).getD i i = a.act (b.image.getD i i)
  rw [Array.getD_eq_getD_getElem?, Array.getD_eq_getD_getElem?, Array.getElem?_map,
    Array.getElem?_eq_getElem h, Option.map_some, Option.getD_some, Option.getD_some]

theorem On.act_mul (ha : a.On n) (hb : b.On n) (i : Nat) : (a * b).act i = a.act (b.act i) := by
  by_cases h : i < n
  · exact act_mul_of_lt (hb.degree_eq ▸ h)
  · rw [hb.act_of_le (by omega), ha.act_of_le (by omega),
      act_of_degree_le (by rw [degree_mul, hb.degree_eq]; omega)]

theorem On.mul (ha : a.On n) (hb : b.On n) : (a * b).On n := by
  have hact : ∀ i, (b.image.map a.act).getD i i = a.act (b.act i) := ha.act_mul hb
  refine ofImage_on ((degree_mul (a := a)).trans hb.degree_eq) ?_ ?_
  · intro i hi
    rw [hact]
    exact ha.act_lt (hb.act_lt hi)
  · intro i j _ _ hij
    rw [hact, hact] at hij
    exact hb.act_injective (ha.act_injective hij)

theorem On.inverse (ha : a.On n) : a.inverse.On n := by
  have hdegree : a.inverse.degree = a.degree := ha.valid.size_preimage
  refine ⟨⟨hdegree.symm, ?_, ?_, ?_, ?_⟩, hdegree.trans ha.degree_eq⟩
  · rw [hdegree]
    exact ha.valid.actInv_lt
  · rw [hdegree]
    exact ha.valid.act_lt
  · rw [hdegree]
    exact ha.valid.act_actInv
  · rw [hdegree]
    exact ha.valid.actInv_act

/-! ## Signs and fixed points -/

theorem On.withFlips (ha : a.On n) (flips : Bool) : (a.withFlips flips).On n :=
  ⟨⟨ha.valid.size_preimage, ha.valid.act_lt, ha.valid.actInv_lt, ha.valid.actInv_act,
    ha.valid.act_actInv⟩, ha.degree_eq⟩

theorem On.negated (ha : a.On n) : a.negated.On n := ha.withFlips _

theorem invMul_negated (a b : SignedPerm) : a.invMul b.negated = (a.invMul b).negated :=
  congrArg (ofImage _) (Bool.bne_not a.flips b.flips)

theorem isIdentity_iff : a.isIdentity = true ↔ ∀ i, i < a.degree → a.act i = i := by
  rw [isIdentity, List.all_eq_true]
  simp

theorem On.isIdentity_iff (ha : a.On n) : a.isIdentity = true ↔ ∀ i, a.act i = i := by
  rw [SignedPerm.isIdentity_iff, ha.degree_eq]
  constructor
  · intro h i
    by_cases hi : i < n
    · exact h i hi
    · exact ha.act_of_le (by omega)
  · intro h i _
    exact h i

theorem isInconsistent_iff :
    a.isInconsistent = true ↔ a.flips = true ∧ a.isIdentity = true := by
  rw [isInconsistent, Bool.and_eq_true]

theorem On.imageInRange (ha : a.On n) : a.imageInRange = true := by
  rw [SignedPerm.imageInRange, Array.all_eq_true]
  intro i hi
  have h := ha.valid.act_lt i hi
  rw [act, Array.getD_eq_getD_getElem?, Array.getElem?_eq_getElem hi] at h
  exact decide_eq_true h

theorem On.inRange (ha : a.On n) : a.inRange = true := by
  have hpreimage : a.inverse.imageInRange = true := ha.inverse.imageInRange
  rw [SignedPerm.imageInRange, ha.inverse.degree_eq, ← ha.degree_eq] at hpreimage
  exact Bool.and_eq_true_iff.mpr
    ⟨Bool.and_eq_true_iff.mpr ⟨ha.imageInRange, beq_iff_eq.mpr ha.valid.size_preimage⟩, hpreimage⟩

/-- Valid permutations of the same points have a product. -/
theorem On.compose_eq (ha : a.On n) (hb : b.On n) : a.compose b = .ok (a * b) := by
  rw [compose, if_neg (not_not_intro (ha.degree_eq.trans hb.degree_eq.symm)), hb.imageInRange,
    (ha.mul hb).imageInRange]
  rfl

theorem act_ne_of_firstMoved {i : Nat} (h : a.firstMoved = some i) : a.act i ≠ i := by
  have := List.find?_some h
  simpa using this

theorem lt_of_firstMoved {i : Nat} (h : a.firstMoved = some i) : i < a.degree :=
  List.mem_range.mp (List.mem_of_find?_eq_some h)

theorem firstMoved_eq_none_iff : a.firstMoved = none ↔ a.isIdentity = true := by
  rw [firstMoved, isIdentity_iff, List.find?_eq_none]
  simp

end Operations

end SignedPerm

end SlotSymmetry
