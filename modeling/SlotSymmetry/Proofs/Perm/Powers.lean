import SlotSymmetry.Perm.Power
import SlotSymmetry.Proofs.Perm.Parts

/-! # Powers

    The exponent is read from its lowest binary digit up while the base is
    squared, and at every digit the result times the base to the exponent that
    is left is the same (`Signed.mulPow_val`).  In the end nothing is left of the
    exponent.  So the result is the power in the group of signed permutations,
    and with it the product of as many copies of the permutation, whichever
    digits the exponent has. -/

namespace SlotSymmetry

namespace Signed

variable {n : Nat}

/-! ## Squaring -/

/-- The factors that an exponent stands for are those of its lowest digit and those of the square
    to the other digits. -/
theorem pow_eq_mul_square_pow (y : Signed n) (k : Nat) : y ^ k = y ^ (k % 2) * (y * y) ^ (k / 2) :=
  calc y ^ k = y ^ (k % 2 + 2 * (k / 2)) := by rw [Nat.mod_add_div]
    _ = y ^ (k % 2) * (y * y) ^ (k / 2) := by rw [pow_add, pow_mul, pow_two]

theorem mulPow_val (x y : Signed n) (k : Nat) :
    SignedPerm.mulPow x.val y.val k = (x * y ^ k).val := by
  induction k using Nat.strongRecOn generalizing x y with
  | ind k ih =>
      rw [SignedPerm.mulPow]
      by_cases hzero : k = 0
      · rw [if_pos hzero, hzero, pow_zero, mul_one]
      · have hless : k / 2 < k := by omega
        rw [if_neg hzero, pow_eq_mul_square_pow, ← mul_assoc, ← val_mul y y]
        rcases Nat.mod_two_eq_zero_or_one k with heven | hodd
        · rw [if_neg (by omega), heven, pow_zero, mul_one]
          exact ih _ hless x (y * y)
        · rw [if_pos hodd, hodd, pow_one, ← val_mul x y]
          exact ih _ hless (x * y) (y * y)

theorem val_pow (x : Signed n) (k : Nat) : (x ^ k).val = x.val.pow k := by
  have hrun : SignedPerm.mulPow (1 : Signed n).val x.val k = (1 * x ^ k).val := mulPow_val 1 x k
  rw [SignedPerm.pow, x.on.degree_eq, ← val_one, hrun, one_mul]

/-! ## Repetition -/

/-- Composing with the same permutation again and again multiplies by its power. -/
theorem foldlM_compose_replicate (x y : Signed n) (k : Nat) :
    (List.replicate k y.val).foldlM SignedPerm.compose x.val = .ok (x * y ^ k).val := by
  induction k generalizing x with
  | zero => rw [pow_zero, mul_one]; rfl
  | succ k ih =>
      rw [List.replicate_succ, List.foldlM_cons, x.on.compose_eq y.on, pow_succ', ← mul_assoc]
      exact ih (x * y)

theorem flips_pow_iff (x : Signed n) (k : Nat) :
    (x ^ k).val.flips = true ↔ x.val.flips = true ∧ Odd k := by
  rw [← sign_eq_neg_one_iff, ← sign_eq_neg_one_iff, map_pow]
  rcases Int.units_eq_one_or (sign x) with hsign | hsign
  · rw [hsign, one_pow]
    exact ⟨fun h => absurd h (by decide), fun h => absurd h.1 (by decide)⟩
  · rw [hsign, neg_one_pow_eq_neg_one_iff_odd (by decide)]
    exact ⟨fun h => ⟨rfl, h⟩, fun h => h.2⟩

end Signed

namespace SignedPerm

/-- A power is what composing the symmetric identity with the permutation as many times gives,
    tables and sign.  So a product of powers is the power to the sum of the exponents, a power of a
    power the one to their product, and a power is antisymmetric exactly if the permutation is and
    the exponent is odd. -/
theorem pow_eq_repeated {p : SignedPerm} (hp : p.Valid) :
    (∀ k, (List.replicate k p).foldlM compose (id p.degree) = .ok (p.pow k)
        ∧ (p.pow k).Valid ∧ (p.pow k).degree = p.degree)
      ∧ (∀ j k, (p.pow j).compose (p.pow k) = .ok (p.pow (j + k)))
      ∧ (∀ j k, (p.pow j).pow k = p.pow (j * k))
      ∧ ∀ k, (p.pow k).flips = true ↔ p.flips = true ∧ Odd k := by
  let x : Signed p.degree := ⟨p, hp, rfl⟩
  have hpow (k : Nat) : p.pow k = (x ^ k).val := (x.val_pow k).symm
  refine ⟨fun k => ⟨?_, ?_, ?_⟩, fun j k => ?_, fun j k => ?_, fun k => ?_⟩
  · have hrun := Signed.foldlM_compose_replicate 1 x k
    rwa [one_mul, ← hpow] at hrun
  · exact hpow k ▸ (x ^ k).on.valid
  · exact hpow k ▸ (x ^ k).on.degree_eq
  · rw [hpow, hpow, hpow, (x ^ j).on.compose_eq (x ^ k).on, pow_add]
    rfl
  · rw [hpow, hpow, pow_mul, (x ^ j).val_pow]
  · rw [hpow]
    exact x.flips_pow_iff k

/-- An antisymmetric rotation of three points: the fifth power by two squarings, the sign of odd
    and even powers. -/
theorem pow_eq_repeated_rotation :
    ∃ p, p = ofImage #[1, 2, 0] true
      ∧ [p, p, p, p, p].foldlM compose (id 3) = .ok (p.pow 5)
      ∧ (p.pow 2).compose (p.pow 3) = .ok (p.pow 5) ∧ (p.pow 2).pow 3 = p.pow 6
      ∧ (p.pow 5).flips = true ∧ ¬ (p.pow 6).flips = true := by
  obtain ⟨hrepeated, hadd, hmul, hflips⟩ :=
    pow_eq_repeated (p := ofImage #[1, 2, 0] true) (by decide +kernel)
  exact ⟨_, rfl, (hrepeated 5).1, hadd 2 3, hmul 2 3, (hflips 5).mpr ⟨rfl, by decide⟩,
    mt (hflips 6).mp fun h => absurd h.2 (by decide)⟩

end SignedPerm

end SlotSymmetry
