import Mathlib.GroupTheory.Perm.Fin
import SlotSymmetry.Proofs.Perm.Parity

/-! # Inversions and transpositions

    Three numbers say whether a permutation of the points is even: the number of
    its cycles of even length, of the pairs that it puts in the wrong order, and
    of the transpositions that it is split into.  The parity is `-1` to the power
    of each of them, and the sign of the permutation of the points, so it is
    multiplicative. -/

namespace SlotSymmetry

namespace SignedPerm

/-- The pairs of points that the permutation puts in the wrong order. -/
def inversions (p : SignedPerm) : Finset (Nat × Nat) :=
  (Finset.range p.degree ×ˢ Finset.range p.degree).filter
    fun q => q.1 < q.2 ∧ p.act q.2 < p.act q.1

end SignedPerm

namespace Signed

variable {n : Nat}

/-! ## Inversions -/

/-- A factor of the sign for every pair, which turns it if the pair is an inversion. -/
theorem prod_Ioi_toPerm (x : Signed n) (i : Fin n) :
    (∏ j ∈ Finset.Ioi i, if toPerm x i < toPerm x j then (1 : ℤˣ) else -1)
      = ∏ j : Fin n, if (i : Nat) < j ∧ x.val.act j < x.val.act i then -1 else 1 := by
  rw [← Finset.filter_lt_eq_Ioi, Finset.prod_filter]
  refine Finset.prod_congr rfl fun j _ => ?_
  by_cases hij : i < j
  · have hne : toPerm x i ≠ toPerm x j := fun h => hij.ne ((toPerm x).injective h)
    rcases hne.lt_or_gt with hlt | hgt
    · rw [if_pos hij, if_pos hlt, if_neg fun h => (Nat.lt_asymm hlt h.2).elim]
    · rw [if_pos hij, if_neg hgt.asymm, if_pos ⟨hij, hgt⟩]
  · rw [if_neg hij, if_neg fun h => hij h.1]

theorem parity_eq_inversions (x : Signed n) :
    x.val.parity = (-1) ^ x.val.inversions.card := by
  let turn (i j : Nat) : ℤˣ := if i < j ∧ x.val.act j < x.val.act i then -1 else 1
  have hprod : Equiv.Perm.sign (toPerm x) = ∏ _q ∈ x.val.inversions, -1 :=
    calc Equiv.Perm.sign (toPerm x)
        = ∏ i : Fin n, ∏ j : Fin n, turn i j := by
          rw [Equiv.Perm.sign_eq_prod_prod_Ioi]
          exact Finset.prod_congr rfl fun i _ => x.prod_Ioi_toPerm i
      _ = ∏ i ∈ Finset.range n, ∏ j ∈ Finset.range n, turn i j := by
          rw [Finset.prod_range]
          exact Finset.prod_congr rfl fun i _ => (Finset.prod_range _).symm
      _ = ∏ q ∈ Finset.range n ×ˢ Finset.range n, turn q.1 q.2 :=
          (Finset.prod_product _ _ fun q => turn q.1 q.2).symm
      _ = ∏ _q ∈ x.val.inversions, -1 := by
          rw [← Finset.prod_filter, SignedPerm.inversions, x.on.degree_eq]
  rw [parity_eq, hprod, Finset.prod_const, Units.val_pow_eq_pow_val, Units.val_neg, Units.val_one]

/-! ## Transpositions -/

/-- A cycle of one point more is split into one transposition more. -/
theorem cycleSign_eq {cycle : List Nat} (hne : cycle ≠ []) :
    (cycleSign cycle : Int) = (-1) ^ (SignedPerm.transpositionsOfCycle cycle).length := by
  obtain ⟨first, rest, rfl⟩ := List.exists_cons_of_ne_nil hne
  rw [cycleSign, List.length_cons, SignedPerm.transpositionsOfCycle, List.length_map,
    List.length_reverse]
  rcases Nat.even_or_odd rest.length with heven | hodd
  · rw [heven.neg_one_pow, if_neg (by rw [Nat.add_mod, Nat.even_iff.mp heven]; decide)]
    rfl
  · rw [hodd.neg_one_pow, if_pos (by rw [Nat.add_mod, Nat.odd_iff.mp hodd])]
    rfl

theorem prod_cycleSign_eq {cycles : List (List Nat)} (hne : ∀ cycle ∈ cycles, cycle ≠ []) :
    ((cycles.map cycleSign).prod : Int)
      = (-1) ^ (cycles.flatMap SignedPerm.transpositionsOfCycle).length := by
  induction cycles with
  | nil => rfl
  | cons cycle cycles ih =>
      obtain ⟨hcycle, hcycles⟩ := List.forall_mem_cons.mp hne
      rw [List.map_cons, List.prod_cons, Units.val_mul, cycleSign_eq hcycle, ih hcycles,
        List.flatMap_cons, List.length_append, pow_add]

theorem parity_eq_transpositions (x : Signed n) :
    x.val.parity = (-1) ^ x.val.transpositions.length := by
  rw [parity_eq, ← prod_cycleSign]
  exact prod_cycleSign_eq fun cycle hcycle => x.on.ne_nil_of_mem_cycles hcycle

/-! ## Parity -/

theorem parity_mul (x y : Signed n) : (x * y).val.parity = x.val.parity * y.val.parity := by
  rw [parity_eq, parity_eq, parity_eq, map_mul, map_mul, Units.val_mul]

theorem parity_inv (x : Signed n) : x⁻¹.val.parity = x.val.parity := by
  rw [parity_eq, parity_eq, map_inv, Equiv.Perm.sign_inv]

theorem parity_eq_one_or (x : Signed n) : x.val.parity = 1 ∨ x.val.parity = -1 := by
  rw [parity_eq]
  exact Int.isUnit_iff.mp (Units.isUnit _)

/-- The parity of a product is the product of the parities, and an inverse has the parity of the
    permutation.  A permutation is even exactly if it has an even number of inversions, and if it
    is split into an even number of transpositions.  Its sign plays no part. -/
theorem parity_laws :
    (∀ a b : SignedPerm, a.Valid → b.Valid → a.degree = b.degree →
      ∃ c, a.compose b = .ok c ∧ c.parity = a.parity * b.parity)
      ∧ ∀ p : SignedPerm, p.Valid →
        p.inverse.parity = p.parity
          ∧ (p.parity = 1 ∨ p.parity = -1)
          ∧ (p.parity = 1 ↔ Even p.inversions.card)
          ∧ (p.parity = 1 ↔ Even p.transpositions.length)
          ∧ ∀ flips, (p.withFlips flips).parity = p.parity := by
  constructor
  · intro a b ha hb hdegree
    let x : Signed b.degree := ⟨a, ha, hdegree⟩
    let y : Signed b.degree := ⟨b, hb, rfl⟩
    exact ⟨a * b, x.on.compose_eq y.on, x.parity_mul y⟩
  · intro p hp
    let x : Signed p.degree := ⟨p, hp, rfl⟩
    have heven (k : Nat) : (-1 : Int) ^ k = 1 ↔ Even k :=
      neg_one_pow_eq_one_iff_even (by decide)
    refine ⟨x.parity_inv, x.parity_eq_one_or, ?_, ?_, ?_⟩
    · rw [← heven, ← x.parity_eq_inversions]
    · rw [← heven, ← x.parity_eq_transpositions]
    · intro flips
      let y : Signed p.degree := ⟨p.withFlips flips, x.on.withFlips flips⟩
      exact y.parity_eq.trans x.parity_eq.symm

/-- The rotation of four points is odd whichever way this is counted, and its square is even. -/
theorem parity_laws_rotation :
    ∃ p, p = SignedPerm.ofImage #[1, 2, 3, 0] true ∧ p.parity = -1 ∧ ¬ Even p.inversions.card
      ∧ ¬ Even p.transpositions.length ∧ ∃ c, p.compose p = .ok c ∧ c.parity = 1 := by
  have hvalid : (SignedPerm.ofImage #[1, 2, 3, 0] true).Valid := by decide +kernel
  have hodd : (SignedPerm.ofImage #[1, 2, 3, 0] true).parity = -1 := by decide +kernel
  have hne : (SignedPerm.ofImage #[1, 2, 3, 0] true).parity ≠ 1 := by rw [hodd]; decide
  obtain ⟨hcompose, heach⟩ := parity_laws
  obtain ⟨-, -, hinversions, htranspositions, -⟩ := heach _ hvalid
  obtain ⟨c, hc, hparity⟩ := hcompose _ _ hvalid hvalid rfl
  refine ⟨_, rfl, hodd, mt hinversions.mpr hne, mt htranspositions.mpr hne, c, hc, ?_⟩
  rw [hparity, hodd]
  rfl

end Signed

end SlotSymmetry
