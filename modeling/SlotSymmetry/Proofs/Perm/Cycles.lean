import Mathlib.Data.List.Iterate
import Mathlib.Dynamics.PeriodicPts.Defs
import SlotSymmetry.Perm.Cycles
import SlotSymmetry.Proofs.Perm.Classes
import SlotSymmetry.Proofs.Perm.Signed

/-! # Cycles

    Every point of a valid permutation comes back to itself, so following it
    lists its cycle: the images up to its period.  The points of one cycle are a
    class, and what is marked along the way is the whole class, so the
    decomposition consists of the cycles of those points that are the smallest
    ones of theirs (`On.cycles_eq`). -/

namespace SlotSymmetry

open Function (minimalPeriod periodicPts IsPeriodicPt)

namespace SignedPerm

variable {n : Nat} {p : SignedPerm} {a q : Nat}

/-! ## The cycle of a point -/

/-- The images of the point, one after another, until it comes up again. -/
noncomputable def cycleOf (p : SignedPerm) (a : Nat) : List Nat :=
  List.iterate p.act a (minimalPeriod p.act a)

theorem On.iterate_act (hp : p.On n) (k a : Nat) :
    p.act^[k] a = ((⟨p, hp⟩ : Signed n) ^ k) • a := by
  induction k with
  | zero => exact (one_smul (Signed n) a).symm
  | succ k ih =>
      rw [Function.iterate_succ_apply', ih, pow_succ', mul_smul]
      rfl

theorem On.mem_periodicPts (hp : p.On n) (a : Nat) : a ∈ periodicPts p.act := by
  refine ⟨orderOf (⟨p, hp⟩ : Signed n), orderOf_pos _, ?_⟩
  rw [IsPeriodicPt, Function.IsFixedPt, hp.iterate_act, pow_orderOf_eq_one, one_smul]

theorem On.period_pos (hp : p.On n) (a : Nat) : 0 < minimalPeriod p.act a :=
  Function.minimalPeriod_pos_of_mem_periodicPts (hp.mem_periodicPts a)

theorem length_cycleOf (p : SignedPerm) (a : Nat) : (p.cycleOf a).length = minimalPeriod p.act a :=
  List.length_iterate _ _ _

theorem nodup_cycleOf (p : SignedPerm) (a : Nat) : (p.cycleOf a).Nodup := by
  rw [cycleOf, ← List.range_map_iterate]
  refine List.Nodup.map_on ?_ List.nodup_range
  intro i hi j hj heq
  exact Function.iterate_injOn_Iio_minimalPeriod (List.mem_range.mp hi) (List.mem_range.mp hj) heq

theorem On.mem_cycleOf (hp : p.On n) : q ∈ p.cycleOf a ↔ ∃ k, q = p.act^[k] a := by
  rw [cycleOf, List.mem_iterate]
  constructor
  · rintro ⟨k, -, hk⟩
    exact ⟨k, hk⟩
  · rintro ⟨k, rfl⟩
    exact ⟨k % minimalPeriod p.act a, Nat.mod_lt _ (hp.period_pos a),
      (Function.iterate_mod_minimalPeriod_eq).symm⟩

theorem On.self_mem_cycleOf (hp : p.On n) (a : Nat) : a ∈ p.cycleOf a := hp.mem_cycleOf.mpr ⟨0, rfl⟩

/-- A cycle is left by no image and entered by none. -/
theorem On.act_mem_cycleOf (hp : p.On n) : p.act q ∈ p.cycleOf a ↔ q ∈ p.cycleOf a := by
  rw [hp.mem_cycleOf, hp.mem_cycleOf]
  constructor
  · rintro ⟨k, hk⟩
    obtain ⟨m, hm⟩ := Nat.exists_eq_succ_of_ne_zero (hp.period_pos a).ne'
    -- one step back is one step less than a whole period
    refine ⟨k + m, hp.act_injective ?_⟩
    rw [hk, ← Function.iterate_succ_apply' p.act, ← Nat.add_succ, ← hm, Function.iterate_add_apply,
      Function.iterate_minimalPeriod]
  · rintro ⟨k, rfl⟩
    exact ⟨k + 1, (Function.iterate_succ_apply' p.act k a).symm⟩

theorem On.iterate_mem_cycleOf (hp : p.On n) (k : Nat) :
    p.act^[k] q ∈ p.cycleOf a ↔ q ∈ p.cycleOf a := by
  induction k with
  | zero => exact Iff.rfl
  | succ k ih => rw [Function.iterate_succ_apply', hp.act_mem_cycleOf, ih]

theorem On.mem_cycleOf_comm (hp : p.On n) {b : Nat} : b ∈ p.cycleOf a ↔ a ∈ p.cycleOf b := by
  suffices hback : ∀ {a b : Nat}, b ∈ p.cycleOf a → a ∈ p.cycleOf b from ⟨hback, hback⟩
  intro a b hb
  obtain ⟨k, rfl⟩ := hp.mem_cycleOf.mp hb
  exact (hp.iterate_mem_cycleOf k).mp (hp.self_mem_cycleOf _)

theorem On.iterate_lt (hp : p.On n) (ha : a < n) (k : Nat) : p.act^[k] a < n := by
  rw [hp.iterate_act]
  exact Signed.smul_lt _ ha

theorem On.lt_of_mem_cycleOf (hp : p.On n) (ha : a < n) (hq : q ∈ p.cycleOf a) : q < n := by
  obtain ⟨k, rfl⟩ := hp.mem_cycleOf.mp hq
  exact hp.iterate_lt ha k

/-- A cycle has at most `n` points. -/
theorem On.period_le (hp : p.On n) (ha : a < n) : minimalPeriod p.act a ≤ n := by
  have hsub : p.cycleOf a ⊆ List.range n :=
    fun q hq => List.mem_range.mpr (hp.lt_of_mem_cycleOf ha hq)
  have := (nodup_cycleOf p a).length_le_of_subset hsub
  rwa [length_cycleOf, List.length_range] at this

/-- The cycle of a point of a cycle stays on it. -/
theorem On.cycleOf_trans (hp : p.On n) {b : Nat} (hb : b ∈ p.cycleOf a) (hq : q ∈ p.cycleOf b) :
    q ∈ p.cycleOf a := by
  obtain ⟨j, rfl⟩ := hp.mem_cycleOf.mp hb
  obtain ⟨k, rfl⟩ := hp.mem_cycleOf.mp hq
  exact hp.mem_cycleOf.mpr ⟨k + j, (Function.iterate_add_apply p.act k j a).symm⟩

/-! ## Following a point -/

theorem follow_of_marked {marks : Array Bool} (h : Marked marks q) (fuel : Nat) :
    p.follow fuel q marks = ([], marks) := by
  cases fuel with
  | zero => rfl
  | succ fuel => exact if_pos h

/-- An unmarked point is listed and marked, and its image comes next. -/
theorem follow_of_unmarked {marks : Array Bool} (h : ¬ Marked marks q) (fuel : Nat) :
    p.follow (fuel + 1) q marks
      = (q :: (p.follow fuel (p.act q) (marks.setIfInBounds q true)).1,
        (p.follow fuel (p.act q) (marks.setIfInBounds q true)).2) :=
  if_neg h

/-- Following a point that was reached after `k` steps lists the rest of the cycle. -/
theorem On.follow_spec (hp : p.On n) (fuel : Nat) : ∀ (k : Nat) (marks : Array Bool),
    k ≤ minimalPeriod p.act a → minimalPeriod p.act a - k ≤ fuel →
    (∀ j, j < minimalPeriod p.act a → (Marked marks (p.act^[j] a) ↔ j < k)) →
    (p.follow fuel (p.act^[k] a) marks).1
        = List.iterate p.act (p.act^[k] a) (minimalPeriod p.act a - k)
      ∧ ∀ q, Marked (p.follow fuel (p.act^[k] a) marks).2 q ↔ Marked marks q
        ∨ q ∈ List.iterate p.act (p.act^[k] a) (minimalPeriod p.act a - k) := by
  induction fuel with
  | zero =>
      intro k marks hk hfuel _
      rw [show minimalPeriod p.act a - k = 0 by omega]
      simp [follow]
  | succ fuel ih =>
      intro k marks hk hfuel hmarked
      rcases Nat.lt_or_eq_of_le hk with hlt | heq
      · have hfree : ¬ Marked marks (p.act^[k] a) := by
          rw [hmarked k hlt]
          exact Nat.lt_irrefl k
        have hnext : ∀ j, j < minimalPeriod p.act a →
            (Marked (marks.setIfInBounds (p.act^[k] a) true) (p.act^[j] a) ↔ j < k + 1) := by
          intro j hj
          rw [marked_set, hmarked j hj, Nat.lt_succ_iff_lt_or_eq]
          refine or_congr_right ⟨fun h => ?_, fun h => by rw [h]⟩
          exact Function.iterate_injOn_Iio_minimalPeriod hj hlt h
        obtain ⟨hlist, hmarks⟩ := ih (k + 1) _ hlt (by omega) hnext
        rw [Function.iterate_succ_apply'] at hlist hmarks
        rw [follow_of_unmarked hfree,
          show minimalPeriod p.act a - k = minimalPeriod p.act a - (k + 1) + 1 by omega,
          List.iterate]
        refine ⟨by rw [hlist], fun q => ?_⟩
        rw [hmarks q, marked_set, List.mem_cons, or_assoc]
      · -- once around, and back at the first point
        have hback : Marked marks (p.act^[k] a) := by
          rw [heq, Function.iterate_minimalPeriod]
          exact (hmarked 0 (hp.period_pos a)).mpr (heq ▸ hp.period_pos a)
        rw [follow_of_marked hback, heq, Nat.sub_self]
        simp

/-- Following a point of an unmarked cycle lists and marks the whole cycle. -/
theorem On.follow_eq (hp : p.On n) (ha : a < n) {marks : Array Bool}
    (hfree : ∀ q ∈ p.cycleOf a, ¬ Marked marks q) :
    (p.follow n a marks).1 = p.cycleOf a
      ∧ ∀ q, Marked (p.follow n a marks).2 q ↔ Marked marks q ∨ q ∈ p.cycleOf a := by
  refine hp.follow_spec (a := a) n 0 marks (Nat.zero_le _) (hp.period_le ha) ?_
  intro j _
  refine iff_of_false (hfree _ (hp.mem_cycleOf.mpr ⟨j, rfl⟩)) (Nat.not_lt_zero j)

/-! ## The decomposition -/

theorem On.head_cycleOf (hp : p.On n) (a : Nat) : (p.cycleOf a).head? = some a := by
  obtain ⟨m, hm⟩ := Nat.exists_eq_succ_of_ne_zero (hp.period_pos a).ne'
  rw [cycleOf, hm, List.iterate, List.head?_cons]

/-- Points on one cycle are a class. -/
theorem On.classes (hp : p.On n) : Classes n p.cycleOf where
  lt := hp.lt_of_mem_cycleOf
  head _ := hp.head_cycleOf _
  nodup _ := nodup_cycleOf p _
  symm _ := hp.mem_cycleOf_comm.mp
  trans _ := hp.cycleOf_trans

theorem cyclesFrom_of_marked {marks : Array Bool} (h : Marked marks q) (points : List Nat) :
    p.cyclesFrom (q :: points) marks = p.cyclesFrom points marks :=
  if_pos h

theorem cyclesFrom_of_unmarked {marks : Array Bool} (h : ¬ Marked marks q) (points : List Nat) :
    p.cyclesFrom (q :: points) marks
      = (p.follow p.degree q marks).1 :: p.cyclesFrom points (p.follow p.degree q marks).2 :=
  if_neg h

theorem On.scans (hp : p.On n) : Scans n p.cycleOf p.cyclesFrom where
  nil _ := rfl
  pass points hmarked := cyclesFrom_of_marked hmarked points
  list := by
    intro q marks points hq hmarked hfree
    obtain ⟨hcycle, hmarks⟩ := hp.follow_eq hq hfree
    refine ⟨(p.follow n q marks).2, ?_, hmarks⟩
    rw [cyclesFrom_of_unmarked hmarked, hp.degree_eq, hcycle]

/-- The point is the smallest one of its cycle. -/
noncomputable def leads (p : SignedPerm) (a : Nat) : Bool := (p.cycleOf a).all (a ≤ ·)

/-- The decomposition lists the cycles of the points that are the smallest ones of theirs. -/
theorem On.cycles_eq (hp : p.On n) :
    p.cycles = ((List.range n).filter p.leads).map p.cycleOf := by
  rw [cycles, hp.degree_eq]
  exact hp.classes.scan_eq hp.scans

theorem On.cycles_eq_listed (hp : p.On n) : p.cycles = listed n p.cycleOf := hp.cycles_eq

theorem On.exists_cycleOf_eq (hp : p.On n) {cycle : List Nat} (hcycle : cycle ∈ p.cycles) :
    ∃ a, p.cycleOf a = cycle := by
  rw [hp.cycles_eq_listed] at hcycle
  obtain ⟨a, -, hcycle⟩ := Classes.mem_listed.mp hcycle
  exact ⟨a, hcycle⟩

theorem On.ne_nil_of_mem_cycles (hp : p.On n) {cycle : List Nat} (hcycle : cycle ∈ p.cycles) :
    cycle ≠ [] := by
  obtain ⟨a, rfl⟩ := hp.exists_cycleOf_eq hcycle
  exact List.ne_nil_of_mem (hp.self_mem_cycleOf a)

/-- Every point is on exactly one of the cycles. -/
theorem On.flatten_cycles_perm (hp : p.On n) : p.cycles.flatten.Perm (List.range n) :=
  hp.cycles_eq_listed ▸ hp.classes.flatten_perm

theorem On.nodup_flatten_cycles (hp : p.On n) : p.cycles.flatten.Nodup :=
  hp.flatten_cycles_perm.nodup_iff.mpr List.nodup_range

theorem On.mem_flatten_cycles (hp : p.On n) : q ∈ p.cycles.flatten ↔ q < n :=
  hp.flatten_cycles_perm.mem_iff.trans List.mem_range

/-- The points of a cycle are those on the cycle of any of them. -/
theorem On.mem_iff_of_mem_cycles (hp : p.On n) {cycle : List Nat} (hcycle : cycle ∈ p.cycles)
    (ha : a ∈ cycle) : q ∈ cycle ↔ q ∈ p.cycleOf a :=
  (hp.classes.mem_iff_of_mem_listed (hp.cycles_eq_listed ▸ hcycle) ha).2

end SignedPerm

end SlotSymmetry
