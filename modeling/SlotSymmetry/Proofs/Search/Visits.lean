import SlotSymmetry.Proofs.Search.Tree

/-! # The nodes of a search tree

    A search that only listens to `keep` visits a tree: `visits` lists the images
    at its nodes, each node before its children.  Over complete levels these are
    the starts of the base images of the elements below the root, as far as `keep`
    keeps every start before them (`mem_visits_iff`).  The children of a node
    come in the order of their images, so the list ascends strictly in the
    lexicographic order, in which a list stands before whatever it starts. -/

namespace SlotSymmetry

/-- The images at the nodes that are visited from a node on, in order.  The node has these levels
    below it, and fixes these images by the product `g`. -/
def visits (keep : List Nat → Bool) : List Level → List Nat → SignedPerm → List (List Nat)
  | [], images, _ => [images]
  | level :: below, images, g =>
      images :: if keep images then
        (Node.candidates g level).flatMap fun choice =>
          visits keep below (images ++ [choice.1]) (g * level.carrier choice.2)
      else []

section

variable {n : Nat} {keep : List Nat → Bool} {level : Level} {below levels : List Level}
  {images w : List Nat}

theorem mem_visits_cons (g : SignedPerm) :
    w ∈ visits keep (level :: below) images g ↔ w = images ∨ keep images = true
      ∧ ∃ choice ∈ Node.candidates g level,
          w ∈ visits keep below (images ++ [choice.1]) (g * level.carrier choice.2) := by
  rw [visits, List.mem_cons]
  by_cases hk : keep images = true
  · simp [hk, List.mem_flatMap]
  · simp [hk]

/-- From a node on, only lists are visited that start with its images. -/
theorem prefix_of_mem_visits {g : SignedPerm} (h : w ∈ visits keep below images g) :
    images <+: w := by
  induction below generalizing images g with
  | nil => rw [List.mem_singleton.mp h]
  | cons level below ih =>
      rcases (mem_visits_cons g).mp h with rfl | ⟨-, choice, -, hw⟩
      · exact List.prefix_rfl
      · exact (List.prefix_append images [choice.1]).trans (ih hw)

/-! ## Members -/

/-- Every list before `w` is kept when it is put behind the images. -/
def KeptBefore (keep : List Nat → Bool) (images w : List Nat) : Prop :=
  ∀ u, u <+: w → u ≠ w → keep (images ++ u) = true

theorem keptBefore_nil : KeptBefore keep images [] :=
  fun _ hu hne => absurd (List.prefix_nil.mp hu) hne

theorem keptBefore_cons {a : Nat} : KeptBefore keep images (a :: w)
    ↔ keep images = true ∧ KeptBefore keep (images ++ [a]) w := by
  rw [KeptBefore, forall_prefix_cons, List.append_nil]
  simp [KeptBefore]

/-- From a node on, the starts of the images of the elements below it are visited, if all lists
    before them are kept. -/
theorem mem_visits_iff (h : Complete n below) (g : Signed n) :
    w ∈ visits keep below images g.val ↔ ∃ y ∈ topGroup n below,
      ∃ v, v <+: baseImages below (g * y).val ∧ w = images ++ v ∧ KeptBefore keep images v := by
  induction below generalizing images g with
  | nil =>
      rw [visits, List.mem_singleton]
      constructor
      · rintro rfl
        exact ⟨1, Subgroup.one_mem _, [], List.nil_prefix, (List.append_nil _).symm, keptBefore_nil⟩
      · rintro ⟨y, -, v, hv, rfl, -⟩
        rw [List.prefix_nil.mp hv, List.append_nil]
  | cons level below ih =>
      have hchildren : (∃ choice ∈ Node.candidates g.val level,
          w ∈ visits keep below (images ++ [choice.1]) (g.val * level.carrier choice.2))
          ↔ ∃ y ∈ topGroup n (level :: below), ∃ v, v <+: baseImages below (g * y).val
            ∧ w = images ++ [(g * y) • level.basePoint] ++ v
            ∧ KeptBefore keep (images ++ [(g * y) • level.basePoint]) v := by
        rw [← h.exists_child_iff g fun image x => ∃ v, v <+: baseImages below x.val
          ∧ w = images ++ [image] ++ v ∧ KeptBefore keep (images ++ [image]) v]
        exact exists_congr fun choice => and_congr_right' (ih h.2.2 (g * h.1.transporter choice.2))
      rw [mem_visits_cons, hchildren]
      constructor
      · rintro (rfl | ⟨hk, y, hy, v, hv, rfl, hkept⟩)
        · exact ⟨1, Subgroup.one_mem _, [], List.nil_prefix, (List.append_nil _).symm,
            keptBefore_nil⟩
        · refine ⟨y, hy, (g * y) • level.basePoint :: v, ?_, ?_, keptBefore_cons.mpr ⟨hk, hkept⟩⟩
          · exact List.cons_prefix_cons.mpr ⟨rfl, hv⟩
          · rw [← List.append_cons]
      · rintro ⟨y, hy, v, hv, rfl, hkept⟩
        rw [baseImages_cons] at hv
        rcases List.prefix_cons_iff.mp hv with rfl | ⟨u, rfl, hu⟩
        · exact Or.inl (List.append_nil _)
        · obtain ⟨hk, hkept⟩ := keptBefore_cons.mp hkept
          exact Or.inr ⟨hk, y, hy, u, hu, List.append_cons .., hkept⟩

/-- From the root on, the starts of the base images of the elements of the group are visited. -/
theorem mem_visits_root_iff (h : Complete n levels) :
    w ∈ visits keep levels [] (SignedPerm.id n) ↔
      (∃ x ∈ topGroup n levels, w <+: baseImages levels x.val) ∧ KeptBefore keep [] w := by
  rw [← Signed.val_one, mem_visits_iff h 1]
  simp only [one_mul, List.nil_append]
  constructor
  · rintro ⟨x, hx, w, hw, rfl, hkept⟩
    exact ⟨⟨x, hx, hw⟩, hkept⟩
  · rintro ⟨⟨x, hx, hw⟩, hkept⟩
    exact ⟨x, hx, w, hw, rfl, hkept⟩

/-! ## Order -/

/-- What starts with a smaller image stands before. -/
theorem lt_of_prefix {a b : Nat} {v : List Nat} (hlt : a < b) (hw : images ++ [a] <+: w)
    (hv : images ++ [b] <+: v) : w < v := by
  obtain ⟨rest, rfl⟩ := hw
  obtain ⟨rest', rfl⟩ := hv
  rw [← List.append_cons, ← List.append_cons]
  exact List.append_left_lt (List.cons_lt_cons_iff.mpr (Or.inl hlt))

/-- The node itself comes first. -/
theorem visits_head (g : SignedPerm) : (visits keep below images g).head? = some images := by
  cases below with
  | nil => rfl
  | cons level below => rfl

/-- The nodes are visited in strictly ascending order. -/
theorem pairwise_visits (h : ∀ level ∈ below, level.Sound n) (g : Signed n) :
    (visits keep below images g.val).Pairwise (· < ·) := by
  induction below generalizing images g with
  | nil => exact List.pairwise_singleton _ _
  | cons level below ih =>
      obtain ⟨hs, hbelow⟩ := List.forall_mem_cons.mp h
      have hfirst : ∀ w ∈ (Node.candidates g.val level).flatMap (fun choice =>
          visits keep below (images ++ [choice.1]) (g.val * level.carrier choice.2)),
          images < w := by
        intro w hw
        obtain ⟨choice, -, hw⟩ := List.mem_flatMap.mp hw
        obtain ⟨rest, rfl⟩ := prefix_of_mem_visits hw
        rw [← List.append_cons]
        exact lt_of_eq_of_lt (List.append_nil _).symm
          (List.append_left_lt (List.nil_lt_cons choice.1 rest))
      rw [visits]
      split
      · refine List.pairwise_cons.mpr ⟨hfirst, List.pairwise_flatMap.mpr ⟨?_, ?_⟩⟩
        · exact fun choice _ => ih hbelow (g * hs.transporter choice.2)
        · refine (pairwise_candidates hs g).imp ?_
          intro a b hlt w hw v hv
          exact lt_of_prefix hlt (prefix_of_mem_visits hw) (prefix_of_mem_visits hv)
      · exact List.pairwise_singleton _ _

end

end SlotSymmetry
