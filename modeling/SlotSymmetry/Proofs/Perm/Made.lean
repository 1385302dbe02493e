import SlotSymmetry.Proofs.Perm.OverlappingCycles
import SlotSymmetry.Proofs.Perm.Period
import SlotSymmetry.Proofs.Perm.Sorting

/-! # Permutations made from permutations

    No constructor takes valid permutations to one that is not (`Made.valid`).
    Most of them fill in the table of the inverse unchecked, so for each of them
    the table of images has to be seen to be a bijection.  Composition, inverses
    and the identity obey the laws of a group on the valid permutations of the
    same points (`composition_laws`). -/

namespace SlotSymmetry

namespace SignedPerm

variable {n i j : Nat} {a b p : SignedPerm}

/-! ## Transpositions and products -/

theorem transposition_on (hp : transposition n i j = .ok p) : p.On n := by
  rw [transposition] at hp
  split at hp
  · exact nomatch hp
  · split at hp
    · exact nomatch hp
    · next hi hj =>
        have hi' : i < (Array.range n).size := by simpa using hi
        have hj' : j < (Array.range n).size := by simpa using hj
        rw [← Except.ok.inj hp, Array.swapIfInBounds_def, dif_pos hi', dif_pos hj']
        refine ofImage_on_of_perm ?_ false
        rw [← Array.toList_range]
        exact (Array.swap_perm hi' hj').toList

theorem on_of_compose (ha : a.Valid) (hb : b.Valid) (hp : a.compose b = .ok p) :
    p.On a.degree := by
  by_cases hsame : a.degree = b.degree
  · have hona : a.On a.degree := ⟨ha, rfl⟩
    have honb : b.On a.degree := ⟨hb, hsame.symm⟩
    rw [hona.compose_eq honb] at hp
    exact Except.ok.inj hp ▸ hona.mul honb
  · rw [compose, if_pos hsame] at hp
    cases hp

/-! ## Whatever is made -/

/-- The permutations that the constructors make, each from the permutations that it is given. -/
inductive Made : List SignedPerm → SignedPerm → Prop where
  | identity (n : Nat) : Made [] (id n)
  | image {image : Array Nat} {p : SignedPerm} (made : ofImage? image = .ok p) : Made [] p
  | transposition {n i j : Nat} {p : SignedPerm} (made : transposition n i j = .ok p) : Made [] p
  | disjointCycles {n : Nat} {cycles : List (List Nat)} {p : SignedPerm}
      (made : ofDisjointCycles n cycles = .ok p) : Made [] p
  | cycles {n : Nat} {cycles : List (List Nat)} {order : CycleOrder} {p : SignedPerm}
      (made : ofCycles n cycles order = .ok p) : Made [] p
  | sorting {α : Type} [LE α] [DecidableLE α] (data : List α) : Made [] (sorting data)
  | withFlips (p : SignedPerm) (flips : Bool) : Made [p] (p.withFlips flips)
  | negated (p : SignedPerm) : Made [p] p.negated
  | inverse (p : SignedPerm) : Made [p] p.inverse
  | product {a b p : SignedPerm} (made : a.compose b = .ok p) : Made [a, b] p
  | power (p : SignedPerm) (k : Nat) : Made [p] (p.pow k)

theorem Made.valid {given : List SignedPerm} (h : Made given p) (hgiven : ∀ q ∈ given, q.Valid) :
    p.Valid := by
  have hon {q : SignedPerm} (hq : q ∈ given) : q.On q.degree := ⟨hgiven q hq, rfl⟩
  cases h with
  | identity n => exact (id_on n).valid
  | image made =>
      obtain ⟨hperm, rfl⟩ := ofImage?_eq_ok_iff.mp made
      exact (ofImage_on_of_perm hperm false).valid
  | transposition made => exact (transposition_on made).valid
  | disjointCycles made => exact (ofDisjointCycles_eq_ok_iff.mp made).2.on.valid
  | cycles made => exact (ofCycles_eq_ok_iff.mp made).2.on.valid
  | sorting data => exact (sorting_on data).valid
  | withFlips p flips => exact ((hon List.mem_cons_self).withFlips flips).valid
  | negated p => exact (hon List.mem_cons_self).negated.valid
  | inverse p => exact (hon List.mem_cons_self).inverse.valid
  | product made =>
      have hb := hgiven _ (List.mem_cons_of_mem _ List.mem_cons_self)
      exact (on_of_compose (hgiven _ List.mem_cons_self) hb made).valid
  | power p k => exact ((hon List.mem_cons_self).pow k).valid

/-! ## The laws of composition -/

/-- The valid permutations of `0..n` are a group under composition, and two flips cancel. -/
structure CompositionLaws (n : Nat) : Prop where
  closed : ∀ a b : SignedPerm, a.On n → b.On n → ∃ p, a.compose b = .ok p ∧ p.On n
    ∧ (∀ i, p.act i = a.act (b.act i)) ∧ p.flips = (a.flips != b.flips)
  assoc : ∀ a b c : SignedPerm, a.On n → b.On n → c.On n →
    ∃ p, (a.compose b >>= (·.compose c)) = .ok p ∧ (b.compose c >>= a.compose) = .ok p
  id_compose : ∀ a : SignedPerm, a.On n → (id n).compose a = .ok a
  compose_id : ∀ a : SignedPerm, a.On n → a.compose (id n) = .ok a
  inverse_compose : ∀ a : SignedPerm, a.On n → a.inverse.compose a = .ok (id n)
  compose_inverse : ∀ a : SignedPerm, a.On n → a.compose a.inverse = .ok (id n)
  flips_inverse : ∀ a : SignedPerm, a.inverse.flips = a.flips
  invMul_eq : ∀ a b : SignedPerm, a.On n → b.On n → a.inverse.compose b = .ok (a.invMul b)

theorem composition_laws (n : Nat) : CompositionLaws n where
  closed a b ha hb := ⟨a * b, ha.compose_eq hb, ha.mul hb, ha.act_mul hb, rfl⟩
  assoc a b c ha hb hc := by
    refine ⟨a * b * c, ?_, ?_⟩
    · rw [ha.compose_eq hb]
      exact (ha.mul hb).compose_eq hc
    · rw [hb.compose_eq hc]
      refine (ha.compose_eq (hb.mul hc)).trans ?_
      have hassoc := congrArg Signed.val (mul_assoc (⟨a, ha⟩ : Signed n) ⟨b, hb⟩ ⟨c, hc⟩)
      exact congrArg Except.ok hassoc.symm
  id_compose a ha := by
    rw [(id_on n).compose_eq ha]
    exact congrArg (Except.ok ∘ Signed.val) (one_mul (⟨a, ha⟩ : Signed n))
  compose_id a ha := by
    rw [ha.compose_eq (id_on n)]
    exact congrArg (Except.ok ∘ Signed.val) (mul_one (⟨a, ha⟩ : Signed n))
  inverse_compose a ha := by
    rw [ha.inverse.compose_eq ha]
    exact congrArg (Except.ok ∘ Signed.val) (inv_mul_cancel (⟨a, ha⟩ : Signed n))
  compose_inverse a ha := by
    rw [ha.compose_eq ha.inverse]
    exact congrArg (Except.ok ∘ Signed.val) (mul_inv_cancel (⟨a, ha⟩ : Signed n))
  flips_inverse _ := rfl
  invMul_eq a b ha hb := ha.inverse.compose_eq hb

end SignedPerm

end SlotSymmetry
