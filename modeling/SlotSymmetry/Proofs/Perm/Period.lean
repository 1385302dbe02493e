import SlotSymmetry.Proofs.Perm.Cycles
import SlotSymmetry.Proofs.Perm.Powers

/-! # The order of a permutation

    The order is worked out from the lengths of the cycles, one after another,
    and what is known of it at any time divides the least common multiple of all
    of them (`foldl_lcmStep`).  So it fits into a word on the way if it does at
    the end.  A power fixes the points of a cycle exactly if the length of the
    cycle divides the exponent, and with it all points exactly if the order
    does (`On.pow_fixes_iff`). -/

namespace SlotSymmetry

open Function (IsPeriodicPt)

namespace SignedPerm

/-! ## Least common multiples -/

section Lengths

variable {lengths : List Nat} {known k : Nat}

theorem lcmStep_eq (known length : Nat) : lcmStep known length = known.lcm length := by
  show known / known.gcd length * length = known * length / known.gcd length
  exact Nat.div_mul_right_comm (Nat.gcd_dvd_left known length) length

/-- One length after another gives the least common multiple of what is known and of all that is
    to come. -/
theorem foldl_lcmStep (lengths : List Nat) (known : Nat) :
    lengths.foldl lcmStep known = known.lcm (lengths.foldr Nat.lcm 1) := by
  induction lengths generalizing known with
  | nil => exact (Nat.lcm_one_right known).symm
  | cons length lengths ih =>
      rw [List.foldl_cons, List.foldr_cons, ih, lcmStep_eq, Nat.lcm_assoc]

theorem foldr_lcm_dvd_iff :
    lengths.foldr Nat.lcm 1 ∣ k ↔ ∀ length ∈ lengths, length ∣ k := by
  induction lengths with
  | nil => exact iff_of_true (Nat.one_dvd k) fun _ h => absurd h List.not_mem_nil
  | cons length lengths ih =>
      rw [List.foldr_cons, Nat.lcm_dvd_iff, ih, List.forall_mem_cons]

theorem foldr_lcm_pos (hpos : ∀ length ∈ lengths, 0 < length) :
    0 < lengths.foldr Nat.lcm 1 := by
  induction lengths with
  | nil => exact Nat.one_pos
  | cons length lengths ih =>
      rw [List.forall_mem_cons] at hpos
      exact Nat.lcm_pos hpos.1 (ih hpos.2)

/-- One more cycle length in the least common multiple, in words of 64 bits.  There is no answer
    if the division is by zero or the product does not fit into a word; remainders and quotients of
    words always do. -/
def lcmInWords (known length : Nat) : Option Nat :=
  if known.gcd length = 0 then none
  else if lcmStep known length < 2 ^ 64 then some (lcmStep known length)
  else none

theorem lcmInWords_eq (hknown : 0 < known) (length : Nat) :
    lcmInWords known length
      = if lcmStep known length < 2 ^ 64 then some (lcmStep known length) else none :=
  if_neg (Nat.gcd_pos_of_pos_left length hknown).ne'

/-- A word that gets too large on the way would be part of a result that is too large. -/
theorem foldlM_lcmInWords (hpos : ∀ length ∈ lengths, 0 < length) (hknown : 0 < known)
    (hword : known < 2 ^ 64) :
    lengths.foldlM lcmInWords known
      = if lengths.foldl lcmStep known < 2 ^ 64 then some (lengths.foldl lcmStep known)
        else none := by
  induction lengths generalizing known with
  | nil => exact (if_pos hword).symm
  | cons length lengths ih =>
      rw [List.forall_mem_cons] at hpos
      have hstep : 0 < lcmStep known length := lcmStep_eq known length ▸ Nat.lcm_pos hknown hpos.1
      rw [List.foldlM_cons, List.foldl_cons, lcmInWords_eq hknown]
      by_cases hfits : lcmStep known length < 2 ^ 64
      · rw [if_pos hfits]
        exact ih hpos.2 hstep hfits
      · have hle : lcmStep known length ≤ lengths.foldl lcmStep (lcmStep known length) := by
          rw [foldl_lcmStep]
          exact Nat.le_of_dvd (Nat.lcm_pos hstep (foldr_lcm_pos hpos.2)) (Nat.dvd_lcm_left _ _)
        rw [if_neg hfits, if_neg fun hlt => hfits (Nat.lt_of_le_of_lt hle hlt)]
        rfl

end Lengths

/-- The order of the permutation, worked out in words of 64 bits. -/
def orderInWords (p : SignedPerm) : Option Nat := (p.cycles.map List.length).foldlM lcmInWords 1

variable {n : Nat} {p : SignedPerm}

theorem order_eq_lcm (p : SignedPerm) :
    p.order = (p.cycles.map List.length).foldr Nat.lcm 1 := by
  rw [order, foldl_lcmStep, Nat.lcm_one_left]

theorem order_dvd_iff {k : Nat} : p.order ∣ k ↔ ∀ cycle ∈ p.cycles, cycle.length ∣ k := by
  rw [order_eq_lcm, foldr_lcm_dvd_iff, List.forall_mem_map]

theorem On.forall_length_pos (hp : p.On n) : ∀ length ∈ p.cycles.map List.length, 0 < length := by
  rw [List.forall_mem_map]
  exact fun cycle hcycle => List.length_pos_of_ne_nil (hp.ne_nil_of_mem_cycles hcycle)

theorem On.order_pos (hp : p.On n) : 0 < p.order :=
  order_eq_lcm p ▸ foldr_lcm_pos hp.forall_length_pos

theorem On.orderInWords_eq (hp : p.On n) :
    p.orderInWords = if p.order < 2 ^ 64 then some p.order else none :=
  foldlM_lcmInWords hp.forall_length_pos Nat.one_pos (by decide)

/-! ## Powers that fix every point -/

theorem On.pow (hp : p.On n) (k : Nat) : (p.pow k).On n :=
  (Signed.val_pow ⟨p, hp⟩ k) ▸ ((⟨p, hp⟩ : Signed n) ^ k).on

theorem On.act_pow (hp : p.On n) (k a : Nat) : (p.pow k).act a = p.act^[k] a := by
  rw [hp.iterate_act, ← Signed.val_pow ⟨p, hp⟩ k]
  rfl

/-- A power fixes every point exactly if the length of every cycle divides the exponent. -/
theorem On.pow_fixes_iff (hp : p.On n) (k : Nat) :
    (∀ a, (p.pow k).act a = a) ↔ p.order ∣ k := by
  rw [order_dvd_iff]
  constructor
  · intro hfixes cycle hcycle
    obtain ⟨a, rfl⟩ := hp.exists_cycleOf_eq hcycle
    have hperiodic : IsPeriodicPt p.act k a := (hp.act_pow k a).symm.trans (hfixes a)
    rw [length_cycleOf]
    exact hperiodic.minimalPeriod_dvd
  · intro hdvd b
    by_cases hb : b < n
    · obtain ⟨cycle, hcycle, hmem⟩ := List.mem_flatten.mp (hp.mem_flatten_cycles.mpr hb)
      obtain ⟨a, rfl⟩ := hp.exists_cycleOf_eq hcycle
      obtain ⟨j, rfl⟩ := hp.mem_cycleOf.mp hmem
      -- all points of a cycle have the period of the one that it is listed for
      have hperiodic : IsPeriodicPt p.act k a :=
        (Function.isPeriodicPt_minimalPeriod p.act a).trans_dvd
          (length_cycleOf p a ▸ hdvd _ hcycle)
      exact (hp.act_pow k _).trans (hperiodic.apply_iterate j)
    · exact (hp.pow k).act_of_le (Nat.not_lt.mp hb)

theorem On.image_eq_id_iff (hp : p.On n) : p.image = (id n).image ↔ ∀ a, p.act a = a := by
  constructor
  · intro himage a
    rw [act, himage]
    exact act_id n a
  · intro hfixes
    exact image_eq_of_act hp.degree_eq (id_on n).degree_eq fun a _ =>
      (hfixes a).trans (act_id n a).symm

/-- The order of a valid permutation is the least common multiple of the lengths of its cycles.  If
    it fits into a word, no step of working it out needs more than a word.  A power has the identity
    image exactly if the order divides the exponent, so the order is the least positive exponent for
    which it has.  It is one if there is no point, and the sign plays no part. -/
theorem order_is_period {p : SignedPerm} (hp : p.Valid) :
    p.order = (p.cycles.map List.length).foldr Nat.lcm 1
      ∧ ((p.cycles.map List.length).foldr Nat.lcm 1 < 2 ^ 64 → p.orderInWords = some p.order)
      ∧ (∀ k, (p.pow k).image = (id p.degree).image ↔ p.order ∣ k)
      ∧ IsLeast {k | 0 < k ∧ (p.pow k).image = (id p.degree).image} p.order
      ∧ (p.degree = 0 → p.order = 1)
      ∧ ∀ flips, (p.withFlips flips).order = p.order := by
  have hon : p.On p.degree := ⟨hp, rfl⟩
  have hperiod (k : Nat) : (p.pow k).image = (id p.degree).image ↔ p.order ∣ k := by
    rw [(hon.pow k).image_eq_id_iff, hon.pow_fixes_iff]
  refine ⟨order_eq_lcm p, fun hfits => ?_, hperiod, ⟨⟨hon.order_pos, ?_⟩, ?_⟩, fun hempty => ?_,
    fun flips => ?_⟩
  · rw [← order_eq_lcm] at hfits
    rw [hon.orderInWords_eq, if_pos hfits]
  · exact (hperiod p.order).mpr (Nat.dvd_refl _)
  · rintro k ⟨hpos, himage⟩
    exact Nat.le_of_dvd hpos ((hperiod k).mp himage)
  · refine Nat.dvd_one.mp ((hon.pow_fixes_iff 1).mp fun a => ?_)
    exact (hon.pow 1).act_of_le (hempty ▸ Nat.zero_le a)
  · -- the cycles are listed by the images alone
    have hcycles : (p.withFlips flips).cycles = p.cycles :=
      (hon.withFlips flips).cycles_eq_listed.trans hon.cycles_eq_listed.symm
    rw [order, hcycles, order]

/-- A rotation of two points beside one of three. -/
theorem order_is_period_five :
    ∃ p, p = ofImage #[1, 0, 3, 4, 2] true ∧ p.order = 6 ∧ p.orderInWords = some 6
      ∧ (p.pow 12).image = (id 5).image ∧ (p.pow 9).image ≠ (id 5).image
      ∧ (ofImage #[] true).order = 1 := by
  obtain ⟨hlcm, hwords, hperiod, -, -, -⟩ :=
    order_is_period (p := ofImage #[1, 0, 3, 4, 2] true) (by decide +kernel)
  obtain ⟨-, -, -, -, hempty, -⟩ := order_is_period (p := ofImage #[] true) (by decide +kernel)
  have horder : (ofImage #[1, 0, 3, 4, 2] true).order = 6 := by decide +kernel
  refine ⟨_, rfl, horder, ?_, (hperiod 12).mpr ?_, mt (hperiod 9).mp ?_, hempty rfl⟩
  · rw [hwords (by rw [← hlcm, horder]; decide), horder]
  · rw [horder]; decide
  · rw [horder]; decide

end SignedPerm

end SlotSymmetry
