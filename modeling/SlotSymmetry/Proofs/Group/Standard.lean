import Mathlib.Data.ZMod.QuotientGroup
import Mathlib.GroupTheory.Perm.Closure
import Mathlib.GroupTheory.Perm.Fin
import SlotSymmetry.Proofs.Group.Operations
import SlotSymmetry.Proofs.Perm.Parity

/-! # The standard groups

    The full group holds the elements whose sign follows a rule, which is a
    homomorphism on the images: no flip at all, or a flip for an odd
    permutation.  The generators follow the rule, so they span nothing else and
    never the antisymmetric identity; and their images, the rotation and the
    swap of two points next to each other on it, generate all permutations, so
    they span all of it.  The cyclic group consists of the powers of the
    rotation. -/

namespace SlotSymmetry

namespace SignedGroup

open Equiv (Perm)
open Signed (sign toPerm)

variable {n : Nat} {signed : Bool} {x : Signed n}

/-! ## The generators as permutations of the points -/

theorem toPerm_rotation (hn : 0 < n) (flips : Bool) :
    toPerm ⟨rotation n flips, rotation_on hn flips⟩ = finRotate n := by
  refine Equiv.ext fun i => Fin.ext ?_
  have := i.neZero
  rw [finRotate_apply, Fin.val_add, Fin.val_one', Nat.add_mod_mod]
  exact rotation_act flips i.isLt

theorem toPerm_firstSwap (hn : 2 ≤ n) (flips : Bool) :
    toPerm ⟨firstSwap n flips, firstSwap_on hn flips⟩
      = Equiv.swap ⟨0, by omega⟩ ⟨1, by omega⟩ := by
  refine Equiv.ext fun i => Fin.ext ?_
  refine (firstSwap_act hn flips i.isLt).trans ?_
  rw [Equiv.swap_apply_def, Equiv.swap_apply_def]
  simp only [Fin.ext_iff, apply_ite Fin.val]

/-- The swap exchanges the first point with the one that the rotation sends it to. -/
theorem finRotate_first (hn : 2 ≤ n) :
    finRotate n ⟨0, by omega⟩ = (⟨1, by omega⟩ : Fin n) := by
  rw [← toPerm_rotation (by omega) false]
  refine Fin.ext ((rotation_act false (by omega : 0 < n)).trans ?_)
  exact Nat.mod_eq_of_lt hn

/-! ## Signs by a rule -/

/-- The sign that goes with the images: that of the permutation, or none at all. -/
def signRule (n : Nat) (signed : Bool) : Perm (Fin n) →* ℤˣ := if signed then Perm.sign else 1

/-- The elements whose sign follows the rule. -/
def fullPart (n : Nat) (signed : Bool) : Subgroup (Signed n) :=
  sign.eqLocus ((signRule n signed).comp toPerm)

theorem mem_fullPart : x ∈ fullPart n signed ↔ sign x = signRule n signed (toPerm x) := Iff.rfl

theorem mem_fullPart_false : x ∈ fullPart n false ↔ x.val.flips = false := by
  rw [mem_fullPart, ← Signed.sign_eq_one_iff]
  rfl

theorem mem_fullPart_true : x ∈ fullPart n true ↔ (x.val.flips = true ↔ x.val.parity = -1) := by
  rw [mem_fullPart, ← Signed.sign_eq_neg_one_iff, x.parity_eq_neg_one_iff]
  show sign x = Perm.sign (toPerm x) ↔ _
  rcases Int.units_eq_one_or (sign x) with h | h <;>
    rcases Int.units_eq_one_or (Perm.sign (toPerm x)) with h' | h' <;> rw [h, h'] <;> decide

/-- The images determine the elements whose sign follows the rule. -/
theorem eq_of_mem_fullPart {y : Signed n} (hx : x ∈ fullPart n signed) (hy : y ∈ fullPart n signed)
    (himage : toPerm x = toPerm y) : x = y := by
  refine Signed.eq_of_toPerm himage ?_
  rw [mem_fullPart.mp hx, mem_fullPart.mp hy, himage]

theorem flip_not_mem_fullPart : Signed.flip n ∉ fullPart n signed := by
  intro h
  -- it would be the identity, which has the same images
  have himage : toPerm (Signed.flip n) = toPerm 1 :=
    Equiv.ext fun i => Fin.ext ((Signed.flip_smul (i : Nat)).trans (one_smul _ (i : Nat)).symm)
  exact Signed.flip_ne_one (eq_of_mem_fullPart h (Subgroup.one_mem _) himage)

/-! ## All permutations -/

theorem firstSwap_mem_fullPart (hn : 2 ≤ n) :
    (⟨firstSwap n signed, firstSwap_on hn signed⟩ : Signed n) ∈ fullPart n signed := by
  cases signed with
  | false => exact mem_fullPart_false.mpr rfl
  | true =>
      refine mem_fullPart_true.mpr (iff_of_true rfl ?_)
      rw [Signed.parity_eq_neg_one_iff, toPerm_firstSwap hn, Perm.sign_swap]
      exact fun h => nomatch congrArg Fin.val h

/-- The sign of the rotation is that of its parity, which does not depend on the sign. -/
theorem rotation_mem_fullPart (hn : 0 < n) :
    (⟨rotation n (signed && (rotation n false).parity == -1), rotation_on hn _⟩ : Signed n)
      ∈ fullPart n signed := by
  cases signed with
  | false => exact mem_fullPart_false.mpr rfl
  | true =>
      have hparity : (rotation n false).parity = -1 ↔ Perm.sign (finRotate n) = -1 := by
        rw [← toPerm_rotation hn false]
        exact Signed.parity_eq_neg_one_iff ⟨rotation n false, rotation_on hn false⟩
      rw [mem_fullPart_true, Signed.parity_eq_neg_one_iff, toPerm_rotation hn, ← hparity]
      show (true && (rotation n false).parity == -1) = true ↔ (rotation n false).parity = -1
      rw [Bool.true_and, beq_iff_eq]

theorem span_fullGenerators_le (hn : 2 ≤ n) :
    Signed.span n (fullGenerators n signed) ≤ fullPart n signed := by
  refine span_le.mpr fun g hg => ?_
  have hswap : g.val = firstSwap n signed → g ∈ fullPart n signed := by
    intro heq
    rw [show g = ⟨firstSwap n signed, firstSwap_on hn signed⟩ from Signed.eq_of_val heq]
    exact firstSwap_mem_fullPart hn
  rw [fullGenerators] at hg
  split at hg
  · exact hswap (List.mem_singleton.mp hg)
  · rcases List.mem_cons.mp hg with heq | hg
    · exact hswap heq
    · rw [show g = ⟨_, rotation_on (by omega) _⟩ from Signed.eq_of_val (List.mem_singleton.mp hg)]
      exact rotation_mem_fullPart (by omega)

/-- The generators have all permutations of the points as images of their products. -/
theorem map_span_fullGenerators (hn : 2 ≤ n) :
    (Signed.span n (fullGenerators n signed)).map toPerm = ⊤ := by
  have hswap : Equiv.swap ⟨0, by omega⟩ ⟨1, by omega⟩
      ∈ (Signed.span n (fullGenerators n signed)).map toPerm := by
    rw [← toPerm_firstSwap hn signed]
    refine Subgroup.mem_map_of_mem toPerm (mem_span_of_mem _ ?_)
    rw [fullGenerators]
    split <;> exact List.mem_cons_self
  have hrotate : finRotate n ∈ (Signed.span n (fullGenerators n signed)).map toPerm := by
    rcases Nat.eq_or_lt_of_le hn with rfl | hlt
    · -- on two points the rotation is the swap
      rwa [show finRotate 2 = Equiv.swap ⟨0, by omega⟩ ⟨1, by omega⟩ by decide]
    · rw [← toPerm_rotation (by omega) (signed && (rotation n false).parity == -1)]
      refine Subgroup.mem_map_of_mem toPerm (mem_span_of_mem _ ?_)
      rw [fullGenerators, if_neg (by omega)]
      exact List.mem_cons_of_mem _ List.mem_cons_self
  have hclosure := Perm.closure_cycle_adjacent_swap (isCycle_finRotate_of_le hn)
    (support_finRotate_of_le hn) ⟨0, by omega⟩
  rw [finRotate_first hn] at hclosure
  rw [eq_top_iff, ← hclosure, Subgroup.closure_le]
  exact Set.insert_subset hrotate (Set.singleton_subset_iff.mpr hswap)

theorem span_fullGenerators (hn : 2 ≤ n) :
    Signed.span n (fullGenerators n signed) = fullPart n signed := by
  refine le_antisymm (span_fullGenerators_le hn) fun x hx => ?_
  have himage : toPerm x ∈ (Signed.span n (fullGenerators n signed)).map toPerm := by
    rw [map_span_fullGenerators hn]
    exact Subgroup.mem_top _
  obtain ⟨y, hy, heq⟩ := Subgroup.mem_map.mp himage
  rwa [eq_of_mem_fullPart hx (span_fullGenerators_le hn hy) heq.symm]

/-- Fewer than two points have only one arrangement. -/
theorem fullPart_eq_bot (hn : n < 2) : fullPart n signed = ⊥ := by
  have : Subsingleton (Fin n) := Fin.subsingleton_iff_le_one.mpr (by omega)
  rw [eq_bot_iff]
  intro x hx
  exact Subgroup.mem_bot.mpr (eq_of_mem_fullPart hx (Subgroup.one_mem _) (Subsingleton.elim _ _))

theorem map_fullPart (n : Nat) (signed : Bool) : (fullPart n signed).map toPerm = ⊤ := by
  rcases Nat.lt_or_ge n 2 with hlt | hn
  · have : Subsingleton (Fin n) := Fin.subsingleton_iff_le_one.mpr (by omega)
    exact Subsingleton.elim _ _
  · rw [← span_fullGenerators hn, map_span_fullGenerators hn]

/-- The images of the full group are all permutations of the points, each once. -/
theorem card_fullPart (n : Nat) (signed : Bool) : Nat.card (fullPart n signed) = n.factorial := by
  have hbijective : Function.Bijective fun x : fullPart n signed => toPerm x.val := by
    constructor
    · intro x y himage
      exact Subtype.ext (eq_of_mem_fullPart x.property y.property himage)
    · intro σ
      have hσ : σ ∈ (fullPart n signed).map toPerm := by
        rw [map_fullPart]
        exact Subgroup.mem_top σ
      obtain ⟨x, hx, heq⟩ := Subgroup.mem_map.mp hσ
      exact ⟨⟨x, hx⟩, heq⟩
  rw [Nat.card_eq_of_bijective _ hbijective, Nat.card_eq_fintype_card, Fintype.card_perm,
    Fintype.card_fin]

theorem exists_full (n : Nat) (signed : Bool) :
    ∃ G, full n signed = .ok G ∧ G.Presents n (fullPart n signed) := by
  rw [full]
  split
  · next hn =>
      refine ⟨trivial n, rfl, ?_⟩
      rw [fullPart_eq_bot hn]
      exact trivial_presents n
  · next hn =>
      rw [Nat.not_lt] at hn
      rw [← span_fullGenerators hn]
      refine exists_generate (fullGenerators_on hn signed) ?_
      rw [span_fullGenerators hn]
      exact flip_not_mem_fullPart

/-! ## The rotations -/

/-- The element turns the points by some number of places, and has a symmetric sign. -/
def Turns (x : Signed n) : Prop :=
  x.val.flips = false ∧ ∃ r, ∀ i, i < n → x.val.act i = (i + r) % n

/-- The rotation by one place. -/
def turn (hn : 0 < n) : Signed n := ⟨rotation n false, rotation_on hn false⟩

theorem turn_pow (hn : 0 < n) (k : Nat) :
    (turn hn ^ k).val.flips = false ∧ ∀ i, i < n → (turn hn ^ k).val.act i = (i + k) % n := by
  induction k with
  | zero =>
      refine ⟨rfl, fun i hi => ?_⟩
      rw [pow_zero, Nat.add_zero, Nat.mod_eq_of_lt hi]
      exact one_smul (Signed n) i
  | succ k ih =>
      rw [pow_succ']
      refine ⟨?_, fun i hi => ?_⟩
      · rw [Signed.flips_mul, ih.1]
        rfl
      · show (turn hn * turn hn ^ k) • i = (i + (k + 1)) % n
        rw [mul_smul]
        show (rotation n false).act ((turn hn ^ k).val.act i) = (i + (k + 1)) % n
        rw [ih.2 i hi, rotation_act false (Nat.mod_lt _ hn), Nat.mod_add_mod, Nat.add_assoc]

theorem turns_iff_exists_pow (hn : 0 < n) : Turns x ↔ ∃ k : Nat, turn hn ^ k = x := by
  constructor
  · rintro ⟨hflips, r, hr⟩
    obtain ⟨hsym, hact⟩ := turn_pow hn r
    refine ⟨r, Signed.eq_of_val ((turn hn ^ r).on.ext x.on ?_ (hsym.trans hflips.symm))⟩
    intro i hi
    rw [hact i hi, hr i hi]
  · rintro ⟨k, rfl⟩
    exact ⟨(turn_pow hn k).1, k, (turn_pow hn k).2⟩

theorem span_rotation (hn : 0 < n) :
    Signed.span n [rotation n false] = Subgroup.zpowers (turn hn) := by
  rw [Subgroup.zpowers_eq_closure]
  refine congrArg Subgroup.closure (Set.ext fun x => ?_)
  rw [Set.mem_singleton_iff]
  constructor
  · intro hx
    exact Signed.eq_of_val (List.mem_singleton.mp hx)
  · rintro rfl
    exact List.mem_singleton_self _

theorem mem_zpowers_turn (hn : 0 < n) : x ∈ Subgroup.zpowers (turn hn) ↔ Turns x := by
  rw [turns_iff_exists_pow hn, ← mem_powers_iff_mem_zpowers, Submonoid.mem_powers_iff]

theorem orderOf_turn (hn : 0 < n) : orderOf (turn hn) = n := by
  refine Nat.dvd_antisymm (orderOf_dvd_of_pow_eq_one ?_) (Nat.dvd_of_mod_eq_zero ?_)
  · obtain ⟨hsym, hact⟩ := turn_pow hn n
    refine Signed.eq_of_val ((turn hn ^ n).on.ext (SignedPerm.id_on n) ?_ hsym)
    intro i hi
    rw [hact i hi, Nat.add_mod_right, Nat.mod_eq_of_lt hi]
    exact (SignedPerm.act_id n i).symm
  · -- the power that is the identity fixes the first point
    have hfirst := (turn_pow hn (orderOf (turn hn))).2 0 hn
    rw [pow_orderOf_eq_one, Nat.zero_add] at hfirst
    rw [← hfirst]
    exact one_smul (Signed n) 0

theorem exists_cyclic (n : Nat) :
    ∃ G K, cyclic n = .ok G ∧ G.Presents n K ∧ (∀ x, x ∈ K ↔ Turns x)
      ∧ Nat.card K = max n 1 := by
  rw [cyclic]
  split
  · next hn =>
      refine ⟨trivial n, ⊥, rfl, trivial_presents n, fun x => ?_, ?_⟩
      · rw [← fullPart_eq_bot hn, mem_fullPart_false, Turns]
        refine (and_iff_left ⟨0, fun i hi => ?_⟩).symm
        have hlt := x.on.act_lt hi
        obtain rfl : n = 1 := by omega
        omega
      · rw [Subgroup.card_bot]
        omega
  · next hn =>
      have hpos : 0 < n := by omega
      have hflip : Signed.flip n ∉ Signed.span n [rotation n false] := by
        rw [span_rotation hpos, mem_zpowers_turn]
        exact fun h => Bool.false_ne_true h.1.symm
      obtain ⟨G, hG, hpresents⟩ :=
        exists_generate (List.forall_mem_singleton.mpr (rotation_on hpos false)) hflip
      rw [span_rotation hpos] at hpresents
      refine ⟨G, _, hG, hpresents, fun x => mem_zpowers_turn hpos, ?_⟩
      rw [Nat.card_zpowers, orderOf_turn]
      omega

/-! ## What they contain -/

/-- The standard groups exist on any number of points.  The symmetric one holds the permutations
    with a symmetric sign, the antisymmetric one those with the sign of their parity, and the
    cyclic one the rotations. -/
theorem standard_groups (n : Nat) :
    (∃ G, symmetric n = .ok G ∧ G.order = n.factorial
        ∧ ∀ p : SignedPerm, p.Valid →
          (G.contains p = true ↔ p.degree = n ∧ p.flips = false))
      ∧ (∃ G, antisymmetric n = .ok G ∧ G.order = n.factorial
        ∧ ∀ p : SignedPerm, p.Valid →
          (G.contains p = true ↔ p.degree = n ∧ (p.flips = true ↔ p.parity = -1)))
      ∧ ∃ G, cyclic n = .ok G ∧ G.order = max n 1
        ∧ ∀ p : SignedPerm, p.Valid →
          (G.contains p = true ↔
            p.degree = n ∧ p.flips = false ∧ ∃ r, ∀ i, i < n → p.act i = (i + r) % n) := by
  have hon : ∀ {p : SignedPerm}, p.Valid → (p.On n ↔ p.degree = n) :=
    fun hp => ⟨fun h => h.degree_eq, fun h => ⟨hp, h⟩⟩
  refine ⟨?_, ?_, ?_⟩
  · obtain ⟨G, hG, hpresents⟩ := exists_full n false
    refine ⟨G, hG, by rw [hpresents.order_eq, card_fullPart], fun p hp => ?_⟩
    rw [hpresents.contains_iff hp, ← hon hp, ← exists_prop]
    exact exists_congr fun _ => mem_fullPart_false
  · obtain ⟨G, hG, hpresents⟩ := exists_full n true
    refine ⟨G, hG, by rw [hpresents.order_eq, card_fullPart], fun p hp => ?_⟩
    rw [hpresents.contains_iff hp, ← hon hp, ← exists_prop]
    exact exists_congr fun _ => mem_fullPart_true
  · obtain ⟨G, K, hG, hpresents, hmem, hcard⟩ := exists_cyclic n
    refine ⟨G, hG, hpresents.order_eq.trans hcard, fun p hp => ?_⟩
    rw [hpresents.contains_iff hp, ← hon hp, ← exists_prop]
    exact exists_congr fun _ => hmem _

/-- On three points: a swap is odd and has to flip, the rotation is even. -/
theorem standard_groups_three :
    ∃ G, antisymmetric 3 = .ok G ∧ G.order = 6 ∧ G.contains (rotation 3 false) = true
      ∧ G.contains (firstSwap 3 true) = true ∧ G.contains (firstSwap 3 false) = false := by
  have heven : (rotation 3 false).parity = 1 := by decide +kernel
  have hodd : ∀ flips, (firstSwap 3 flips).parity = -1 := by decide +kernel
  have hrotation : (rotation 3 false).On 3 := rotation_on (by omega) false
  have hswap : ∀ flips, (firstSwap 3 flips).On 3 := firstSwap_on (by omega)
  obtain ⟨-, ⟨G, hG, horder, hexact⟩, -⟩ := standard_groups 3
  refine ⟨G, hG, horder, ?_, ?_, ?_⟩
  · rw [hexact _ hrotation.valid, heven]
    exact ⟨hrotation.degree_eq, iff_of_false nofun nofun⟩
  · rw [hexact _ (hswap true).valid]
    exact ⟨(hswap true).degree_eq, iff_of_true rfl (hodd true)⟩
  · rw [Bool.eq_false_iff, ne_eq, hexact _ (hswap false).valid]
    exact fun h => nomatch h.2.mpr (hodd false)

end SignedGroup

end SlotSymmetry
