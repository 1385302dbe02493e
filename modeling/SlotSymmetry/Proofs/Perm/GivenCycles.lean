import Mathlib.GroupTheory.Perm.List
import SlotSymmetry.Proofs.Perm.Cycles

/-! # Given cycles

    A list of cycles says where every point goes, whether it is one table that
    is written for disjoint cycles or a product of one table after another.  A
    symmetric permutation is compared with the permutation of all natural
    numbers that it moves the points like (`ActsAs`), and a list of cycles with
    the product of its cycles, the last one applied first (`product`).  For
    disjoint cycles the table is that of the product (`ofImage_actsAs`), because
    a point is moved by the cycle that it is on and by no other. -/

namespace SlotSymmetry

namespace SignedPerm

variable {n : Nat} {p q : SignedPerm} {σ τ : Equiv.Perm Nat}

/-! ## Symmetric permutations -/

/-- The permutation of `0..n` is symmetric and moves the points like `σ`. -/
structure ActsAs (n : Nat) (σ : Equiv.Perm Nat) (p : SignedPerm) : Prop where
  on : p.On n
  symmetric : p.flips = false
  act : ∀ i, p.act i = σ i

theorem ActsAs.eq (hp : p.ActsAs n σ) (hq : q.ActsAs n σ) : p = q :=
  hp.on.ext hq.on (fun i _ => (hp.act i).trans (hq.act i).symm)
    (hp.symmetric.trans hq.symmetric.symm)

theorem id_actsAs (n : Nat) : (id n).ActsAs n 1 := ⟨id_on n, rfl, act_id n⟩

theorem ActsAs.mul (hp : p.ActsAs n σ) (hq : q.ActsAs n τ) : (p * q).ActsAs n (σ * τ) where
  on := hp.on.mul hq.on
  symmetric := bne_eq_false_iff_eq.mpr (hp.symmetric.trans hq.symmetric.symm)
  act i := by rw [hp.on.act_mul hq.on, hp.act, hq.act, Equiv.Perm.mul_apply]

theorem ActsAs.inverse (hp : p.ActsAs n σ) : p.inverse.ActsAs n σ⁻¹ where
  on := hp.on.inverse
  symmetric := hp.symmetric
  act i := by
    rw [Equiv.Perm.eq_inv_iff_eq, ← hp.act]
    exact hp.on.act_actInv i

/-- The permutation of all natural numbers that moves the points in the same way. -/
def On.points (hp : p.On n) : Equiv.Perm Nat := MulAction.toPerm (⟨p, hp⟩ : Signed n)

theorem On.actsAs (hp : p.On n) : (p.withFlips false).ActsAs n hp.points :=
  ⟨hp.withFlips false, rfl, fun _ => rfl⟩

/-! ## Products of cycles -/

/-- Goes through the cycles, the last one first. -/
def product (cycles : List (List Nat)) : Equiv.Perm Nat := (cycles.map List.formPerm).prod

section Product

variable {cycle : List Nat} {cycles : List (List Nat)} {a : Nat}

theorem product_cons (cycle : List Nat) (cycles : List (List Nat)) :
    product (cycle :: cycles) = cycle.formPerm * product cycles :=
  List.prod_cons

theorem product_singleton (cycle : List Nat) : product [cycle] = cycle.formPerm :=
  List.prod_singleton

theorem product_append (cs ds : List (List Nat)) :
    product (cs ++ ds) = product cs * product ds := by
  rw [product, List.map_append, List.prod_append]
  rfl

theorem product_apply (cycles : List (List Nat)) (a : Nat) :
    product cycles a = cycles.foldr (fun cycle i => cycle.formPerm i) a := by
  induction cycles with
  | nil => rfl
  | cons cycle cycles ih => rw [product_cons, Equiv.Perm.mul_apply, ih, List.foldr_cons]

/-- A point that is on no cycle stays. -/
theorem product_of_not_mem (ha : a ∉ cycles.flatten) : product cycles a = a := by
  induction cycles with
  | nil => rfl
  | cons cycle cycles ih =>
      rw [List.flatten_cons, List.mem_append, not_or] at ha
      rw [product_cons, Equiv.Perm.mul_apply, ih ha.2, List.formPerm_apply_of_notMem ha.1]

/-- A point of one of several disjoint cycles is moved along this one. -/
theorem product_of_mem (hnodup : cycles.flatten.Nodup) (hcycle : cycle ∈ cycles) (ha : a ∈ cycle) :
    product cycles a = cycle.formPerm a := by
  induction cycles with
  | nil => exact absurd hcycle List.not_mem_nil
  | cons first cycles ih =>
      rw [List.flatten_cons, List.nodup_append'] at hnodup
      obtain ⟨-, hrest, hdisjoint⟩ := hnodup
      rw [product_cons, Equiv.Perm.mul_apply]
      rcases List.mem_cons.mp hcycle with rfl | hlater
      · rw [product_of_not_mem (hdisjoint ha)]
      · rw [ih hrest hlater]
        -- the point is still on its cycle, which the first one does not meet
        refine List.formPerm_apply_of_notMem fun hmem => hdisjoint hmem ?_
        exact List.mem_flatten.mpr ⟨cycle, hlater, List.formPerm_apply_mem_of_mem ha⟩

theorem formPerm_lt (hlt : ∀ a ∈ cycle, a < n) (ha : a < n) : cycle.formPerm a < n := by
  by_cases hmem : a ∈ cycle
  · exact hlt _ (List.formPerm_apply_mem_of_mem hmem)
  · rwa [List.formPerm_apply_of_notMem hmem]

theorem product_lt (hlt : ∀ a ∈ cycles.flatten, a < n) (ha : a < n) : product cycles a < n := by
  induction cycles with
  | nil => exact ha
  | cons cycle cycles ih =>
      rw [List.flatten_cons, List.forall_mem_append] at hlt
      rw [product_cons, Equiv.Perm.mul_apply]
      exact formPerm_lt hlt.1 (ih hlt.2)

/-- Disjoint cycles may be gone through in either direction. -/
theorem product_reverse (hnodup : cycles.flatten.Nodup) :
    product cycles.reverse = product cycles := by
  refine Equiv.ext fun a => ?_
  have hperm : cycles.reverse.flatten.Perm cycles.flatten := (List.reverse_perm cycles).flatten
  by_cases ha : a ∈ cycles.flatten
  · obtain ⟨cycle, hcycle, hmem⟩ := List.mem_flatten.mp ha
    rw [product_of_mem hnodup hcycle hmem,
      product_of_mem (hperm.nodup_iff.mpr hnodup) (List.mem_reverse.mpr hcycle) hmem]
  · rw [product_of_not_mem ha, product_of_not_mem (mt hperm.mem_iff.mp ha)]

/-! ## Tables of disjoint cycles -/

theorem successors_eq (hnodup : cycle.Nodup) :
    successors cycle = cycle.map fun a => (a, cycle.formPerm a) := by
  cases cycle with
  | nil => rfl
  | cons first rest =>
      have hrotate : rest ++ [first] = (first :: rest).rotate 1 := by
        rw [List.rotate_cons_succ, List.rotate_zero]
      refine List.ext_getElem ?_ fun i hi hi' => ?_
      · simp [successors]
      · rw [List.length_map] at hi'
        rw [List.getElem_map, List.formPerm_apply_getElem _ hnodup]
        simp only [successors, List.getElem_zip, hrotate, List.getElem_rotate]

theorem flatMap_successors (hnodup : cycles.flatten.Nodup) :
    cycles.flatMap successors = cycles.flatten.map fun a => (a, product cycles a) := by
  rw [List.flatMap_def, List.map_flatten]
  refine congrArg List.flatten (List.map_congr_left fun cycle hcycle => ?_)
  rw [successors_eq ((List.nodup_flatten.mp hnodup).1 cycle hcycle)]
  exact List.map_congr_left fun a ha => by rw [product_of_mem hnodup hcycle ha]

theorem size_imageOfCycles (hnodup : cycles.flatten.Nodup) (n : Nat) :
    (imageOfCycles n cycles).size = n := by
  rw [imageOfCycles, flatMap_successors hnodup, List.foldl_map, size_foldl_set, Array.size_range]

/-- The table of disjoint cycles sends every point where their product does. -/
theorem getD_imageOfCycles (hnodup : cycles.flatten.Nodup) (hlt : ∀ a ∈ cycles.flatten, a < n)
    (a : Nat) : (imageOfCycles n cycles).getD a a = product cycles a := by
  by_cases ha : a < n
  · rw [imageOfCycles, flatMap_successors hnodup, List.foldl_map,
      getD_foldl_set _ _ _ (by rwa [Array.size_range])]
    split
    · rfl
    · next hmem =>
        rw [product_of_not_mem hmem]
        exact act_id n a
  · rw [product_of_not_mem (mt (hlt a) ha), Array.getD_eq_getD_getElem?,
      Array.getElem?_eq_none (by rw [size_imageOfCycles hnodup]; omega), Option.getD_none]

theorem ofImage_actsAs (hnodup : cycles.flatten.Nodup) (hlt : ∀ a ∈ cycles.flatten, a < n) :
    (ofImage (imageOfCycles n cycles) false).ActsAs n (product cycles) where
  on := by
    have hget := getD_imageOfCycles hnodup hlt
    refine ofImage_on (size_imageOfCycles hnodup n) ?_ ?_
    · intro a ha
      rw [hget]
      exact product_lt hlt ha
    · intro a b _ _ hab
      rw [hget, hget] at hab
      exact (product cycles).injective hab
  symmetric := rfl
  act := getD_imageOfCycles hnodup hlt

end Product

end SignedPerm

end SlotSymmetry
