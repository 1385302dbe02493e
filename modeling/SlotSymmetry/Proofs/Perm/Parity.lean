import Mathlib.GroupTheory.Perm.Cycle.Factors
import SlotSymmetry.Proofs.Perm.Cycles
import SlotSymmetry.Proofs.Perm.Parts

/-! # Parity

    The parity that is read off the cycle lengths is the sign of the permutation
    of the points (`Signed.parity_eq`).  The permutation is the product of the
    cycles of the points that are the smallest ones of theirs, and a cycle is odd
    if it has an even number of points.  So the parity of a product is the
    product of the parities, which no count of cycles says by itself. -/

namespace SlotSymmetry

open Equiv.Perm (SameCycle)

namespace Signed

variable {n : Nat}

/-! ## The cycles of the permutation of the points -/

theorem val_toPerm_pow (x : Signed n) (k : Nat) (i : Fin n) :
    ((toPerm x ^ k) i : Nat) = x.val.act^[k] i := by
  rw [← map_pow, val_toPerm, x.on.iterate_act]

theorem mem_cycleOf_iff (x : Signed n) {a q : Fin n} :
    (q : Nat) ∈ x.val.cycleOf a ↔ SameCycle (toPerm x) a q := by
  rw [x.on.mem_cycleOf]
  constructor
  · rintro ⟨k, hk⟩
    refine ⟨k, Fin.ext ?_⟩
    rw [zpow_natCast, val_toPerm_pow, hk]
  · intro h
    obtain ⟨k, rfl⟩ := h.exists_nat_pow_eq
    exact ⟨k, val_toPerm_pow x k a⟩

/-- A point that moves is on a cycle of as many points as are moved along it. -/
theorem card_support_cycleOf (x : Signed n) {a : Fin n} (hmoved : toPerm x a ≠ a) :
    ((toPerm x).cycleOf a).support.card = (x.val.cycleOf a).length := by
  have hpoints : ((toPerm x).cycleOf a).support.map Fin.valEmbedding
      = (x.val.cycleOf a).toFinset := by
    ext q
    rw [Finset.mem_map, List.mem_toFinset]
    constructor
    · rintro ⟨i, hi, rfl⟩
      exact x.mem_cycleOf_iff.mpr ((Equiv.Perm.mem_support_cycleOf_iff' hmoved).mp hi)
    · intro hq
      have hlt := x.on.lt_of_mem_cycleOf a.isLt hq
      exact ⟨⟨q, hlt⟩,
        (Equiv.Perm.mem_support_cycleOf_iff' hmoved).mpr (x.mem_cycleOf_iff.mp hq), rfl⟩
  rw [← Finset.card_map Fin.valEmbedding, hpoints,
    List.toFinset_card_of_nodup (SignedPerm.nodup_cycleOf x.val a)]

/-- The sign of a cycle that is listed from one of its points on. -/
def cycleSign (cycle : List Nat) : ℤˣ := if cycle.length % 2 = 0 then -1 else 1

theorem sign_cycleOf (x : Signed n) (a : Fin n) :
    Equiv.Perm.sign ((toPerm x).cycleOf a) = cycleSign (x.val.cycleOf a) := by
  by_cases hmoved : toPerm x a = a
  · have hfixed : Function.IsFixedPt x.val.act a := congrArg Fin.val hmoved
    rw [(Equiv.Perm.cycleOf_eq_one_iff _).mpr hmoved, Equiv.Perm.sign_one, cycleSign,
      SignedPerm.length_cycleOf, Function.minimalPeriod_eq_one_iff_isFixedPt.mpr hfixed]
    rfl
  · rw [(Equiv.Perm.isCycle_cycleOf _ hmoved).sign, x.card_support_cycleOf hmoved, cycleSign]
    rcases Nat.even_or_odd (x.val.cycleOf a).length with heven | hodd
    · rw [if_pos (Nat.even_iff.mp heven), heven.neg_one_pow]
    · rw [if_neg (by rw [Nat.odd_iff.mp hodd]; decide), hodd.neg_one_pow, neg_neg]

/-! ## Their product -/

/-- Cycles through points that do not share one act as the permutation where one of them passes
    and nowhere else. -/
theorem prod_cycleOf_apply (σ : Equiv.Perm (Fin n)) {heads : List (Fin n)}
    (hheads : heads.Pairwise fun a b => ¬ SameCycle σ a b) (q : Fin n) :
    (heads.map σ.cycleOf).prod q = if ∃ a ∈ heads, SameCycle σ a q then σ q else q := by
  induction heads with
  | nil => simp
  | cons a heads ih =>
      obtain ⟨hfirst, hrest⟩ := List.pairwise_cons.mp hheads
      rw [List.map_cons, List.prod_cons, Equiv.Perm.mul_apply, ih hrest]
      by_cases hlater : ∃ b ∈ heads, SameCycle σ b q
      · obtain ⟨b, hb, hsame⟩ := hlater
        have hother : ¬ SameCycle σ a (σ q) := by
          intro h
          exact hfirst b hb ((Equiv.Perm.sameCycle_apply_right.mp h).trans hsame.symm)
        rw [if_pos ⟨b, hb, hsame⟩, if_pos ⟨b, List.mem_cons_of_mem a hb, hsame⟩,
          Equiv.Perm.cycleOf_apply_of_not_sameCycle hother]
      · rw [if_neg hlater, Equiv.Perm.cycleOf_apply]
        refine if_congr ?_ rfl rfl
        simp only [List.mem_cons, exists_eq_or_imp, or_iff_left hlater]

/-- The points that are the smallest ones of their cycles. -/
noncomputable def heads (x : Signed n) : List (Fin n) :=
  (List.finRange n).filter fun a => x.val.leads a

theorem cycles_eq_map_heads (x : Signed n) :
    x.val.cycles = x.heads.map fun a : Fin n => x.val.cycleOf a := by
  rw [x.on.cycles_eq, ← List.map_coe_finRange_eq_range, List.filter_map, List.map_map]
  rfl

theorem pairwise_heads (x : Signed n) :
    x.heads.Pairwise fun a b => ¬ SameCycle (toPerm x) a b := by
  have hnodup : x.heads.Nodup := (List.nodup_finRange n).filter _
  refine hnodup.imp_of_mem ?_
  intro a b ha hb hne hsame
  have hleads : ∀ {c : Fin n}, c ∈ x.heads → (c : Nat) ∈ leading n x.val.cycleOf :=
    fun {c} hc => List.mem_filter.mpr ⟨List.mem_range.mpr c.isLt, (List.mem_filter.mp hc).2⟩
  exact hne (Fin.ext
    (x.on.classes.eq_of_leading (hleads ha) (hleads hb) (x.mem_cycleOf_iff.mpr hsame)))

theorem prod_heads (x : Signed n) : (x.heads.map (toPerm x).cycleOf).prod = toPerm x := by
  refine Equiv.ext fun q => ?_
  rw [prod_cycleOf_apply _ x.pairwise_heads, if_pos]
  obtain ⟨a, ha, hmem⟩ := x.on.classes.exists_leading q.isLt
  obtain ⟨hlt, hleads⟩ := List.mem_filter.mp ha
  refine ⟨⟨a, List.mem_range.mp hlt⟩, ?_, x.mem_cycleOf_iff.mp hmem⟩
  exact List.mem_filter.mpr ⟨List.mem_finRange _, hleads⟩

/-! ## Signs from cycle lengths -/

/-- The sign is turned once for every cycle of even length. -/
theorem foldl_parity (cycles : List (List Nat)) (s : ℤˣ) :
    cycles.foldl (fun sign cycle => if cycle.length % 2 = 0 then -sign else sign) (s : Int)
      = ((s * (cycles.map cycleSign).prod : ℤˣ) : Int) := by
  induction cycles generalizing s with
  | nil => simp
  | cons cycle cycles ih =>
      rw [List.foldl_cons, List.map_cons, List.prod_cons, ← mul_assoc, ← ih, cycleSign]
      split <;> simp

theorem prod_cycleSign (x : Signed n) :
    (x.val.cycles.map cycleSign).prod = Equiv.Perm.sign (toPerm x) :=
  calc (x.val.cycles.map cycleSign).prod
      = (x.heads.map fun a => Equiv.Perm.sign ((toPerm x).cycleOf a)).prod := by
        rw [cycles_eq_map_heads, List.map_map]
        exact congrArg List.prod (List.map_congr_left fun a _ => (x.sign_cycleOf a).symm)
    _ = Equiv.Perm.sign (x.heads.map (toPerm x).cycleOf).prod := by
        rw [map_list_prod, List.map_map]
        rfl
    _ = Equiv.Perm.sign (toPerm x) := by rw [prod_heads]

/-- The parity read off the cycles is the sign of the permutation of the points. -/
theorem parity_eq (x : Signed n) : x.val.parity = (Equiv.Perm.sign (toPerm x) : Int) := by
  have hfold := foldl_parity x.val.cycles 1
  rwa [one_mul, prod_cycleSign] at hfold

theorem parity_eq_neg_one_iff (x : Signed n) :
    x.val.parity = -1 ↔ Equiv.Perm.sign (toPerm x) = -1 := by
  rw [parity_eq, ← Units.val_one, ← Units.val_neg, Units.val_inj]

end Signed

end SlotSymmetry
