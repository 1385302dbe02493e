import SlotSymmetry.Orbit.Partition
import SlotSymmetry.Proofs.Orbit.Transversal
import SlotSymmetry.Proofs.Perm.Classes

/-! # The partition into orbits

    In a finite group an inverse is a power, so what the generators reach from a
    point is its whole orbit, and the orbits are classes.  The partition goes
    through the points and marks the orbits that it has listed, so it consists
    of the orbits of those points that are the smallest ones of theirs
    (`partition_eq`). -/

namespace SlotSymmetry

namespace Orbit

open SignedPerm (Marked marked_foldl_set)

variable {n : Nat} {gens : List SignedPerm} {a q : Nat}

/-! ## Orbits as classes -/

/-- What the generators reach from the point, in the order of discovery. -/
def reached (n : Nat) (gens : List SignedPerm) (a : Nat) : List Nat := (grow n gens a).points.toList

theorem mem_reached (hgens : ∀ g ∈ gens, g.On n) (ha : a < n) :
    q ∈ reached n gens a ↔ ∃ x ∈ Signed.span n gens, x • a = q := by
  rw [reached, Array.mem_toList_iff, ← (grow_stage gens ha).contains_iff, grow_contains_iff hgens ha]

theorem head_reached (gens : List SignedPerm) (ha : a < n) : (reached n gens a).head? = some a := by
  rw [reached, List.head?_eq_getElem?, Array.getElem?_toList]
  exact (grow_stage gens ha).first

/-- Points of one orbit are a class. -/
theorem classes_reached (hgens : ∀ g ∈ gens, g.On n) : Classes n (reached n gens) where
  lt := by
    intro a q ha hq
    obtain ⟨x, -, rfl⟩ := (mem_reached hgens ha).mp hq
    exact x.smul_lt ha
  head ha := head_reached gens ha
  nodup ha := (grow_stage gens ha).nodup
  symm := by
    intro a b ha hb
    obtain ⟨x, hx, rfl⟩ := (mem_reached hgens ha).mp hb
    rw [mem_reached hgens (x.smul_lt ha)]
    exact ⟨x⁻¹, (Signed.span n gens).inv_mem hx, inv_smul_smul x a⟩
  trans := by
    intro a b q ha hb hq
    obtain ⟨x, hx, rfl⟩ := (mem_reached hgens ha).mp hb
    obtain ⟨y, hy, rfl⟩ := (mem_reached hgens (x.smul_lt ha)).mp hq
    rw [mem_reached hgens ha]
    exact ⟨y * x, (Signed.span n gens).mul_mem hy hx, mul_smul y x a⟩

/-! ## The lists of the partition -/

theorem partitionFrom_of_marked {marks : Array Bool} (h : Marked marks q) (points : List Nat) :
    partitionFrom n gens (q :: points) marks = partitionFrom n gens points marks :=
  if_pos h

theorem partitionFrom_of_unmarked {marks : Array Bool} (h : ¬ Marked marks q) (points : List Nat) :
    partitionFrom n gens (q :: points) marks
      = reached n gens q :: partitionFrom n gens points
        ((reached n gens q).foldl (fun marks a => marks.setIfInBounds a true) marks) := by
  rw [reached, Array.foldl_toList]
  exact if_neg h

theorem scans_partitionFrom (n : Nat) (gens : List SignedPerm) :
    Scans n (reached n gens) (partitionFrom n gens) where
  nil _ := rfl
  pass points hmarked := partitionFrom_of_marked hmarked points
  list points _ hmarked _ :=
    ⟨_, partitionFrom_of_unmarked hmarked points, fun _ => marked_foldl_set _ _⟩

/-- The partition lists the orbits of the points that are the smallest ones of theirs. -/
theorem partition_eq (hgens : ∀ g ∈ gens, g.On n) : partition n gens = listed n (reached n gens) :=
  (classes_reached hgens).scan_eq (scans_partitionFrom n gens)

theorem partition?_eq (hgens : ∀ g ∈ gens, g.On n) :
    partition? n gens = .ok (partition n gens) := by
  have hrange : gens.all (·.imageInRange) = true :=
    List.all_eq_true.mpr fun g hg => (hgens g hg).imageInRange
  rw [partition?, find?_degree_eq_none hgens]
  exact if_pos hrange

theorem exists_mem_partition (hgens : ∀ g ∈ gens, g.On n) (hq : q < n) :
    ∃ orbit ∈ partition n gens, q ∈ orbit := by
  rw [partition_eq hgens]
  exact (classes_reached hgens).exists_mem_listed hq

/-- A list of the partition is the orbit of any of its points. -/
theorem mem_of_mem_partition (hgens : ∀ g ∈ gens, g.On n) {orbit : List Nat}
    (horbit : orbit ∈ partition n gens) {p : Nat} (hp : p ∈ orbit) {q : Nat} :
    q ∈ orbit ↔ ∃ x ∈ Signed.span n gens, x • p = q := by
  rw [partition_eq hgens] at horbit
  obtain ⟨hlt, hiff⟩ := (classes_reached hgens).mem_iff_of_mem_listed (q := q) horbit hp
  rw [hiff, mem_reached hgens hlt]

end Orbit

end SlotSymmetry
