import Mathlib.Algebra.Group.Basic
import Mathlib.GroupTheory.GroupAction.Defs
import SlotSymmetry.Orbit.Transversal
import SlotSymmetry.Proofs.Orbit.Growth
import SlotSymmetry.Proofs.Perm.Signed

/-! # Transversals of grown orbits

    The way back from a point of an orbit is a word in the generators.
    `Returns` is the walk along the links that ends at the root, whatever its
    length; by induction on the place of the point there is one, and the length
    of the orbit bounds it.  `Carries way t` says that multiplying along the way
    multiplies by `t` on the right, and that undoing it multiplies by the
    inverse of `t` on the left.  By induction on the walk, the way back carries
    an element of the span that takes the seed to the point: the `transporter`.
    The points of a grown orbit are therefore exactly the images of the seed. -/

namespace SlotSymmetry

namespace Orbit

/-! ## Words -/

/-- Along this way one multiplies by `t`, and undoing it one multiplies by its inverse. -/
structure Carries {n : Nat} (way : List (Nat × SignedPerm)) (t : Signed n) : Prop where
  forth : ∀ s : Signed n, way.foldl (fun t (_, g) => t * g) s.val = (s * t).val
  back : ∀ x : Signed n, way.foldl (fun h (_, g) => g.invMul h) x.val = (t⁻¹ * x).val

theorem Carries.nil {n : Nat} : Carries [] (1 : Signed n) := by
  refine ⟨fun s => ?_, fun x => ?_⟩
  · rw [mul_one]
    rfl
  · rw [inv_one, one_mul]
    rfl

theorem Carries.cons {n : Nat} {way : List (Nat × SignedPerm)} {t : Signed n}
    (h : Carries way t) (i : Nat) (g : Signed n) : Carries ((i, g.val) :: way) (g * t) := by
  refine ⟨fun s => ?_, fun x => ?_⟩
  · rw [List.foldl_cons, ← mul_assoc]
    exact h.forth (s * g)
  · rw [List.foldl_cons, mul_inv_rev, mul_assoc]
    exact h.back (g⁻¹ * x)

/-! ## The way back -/

/-- The walk from a point back along the links to the root, with the generators met on it.
    Nothing bounds its length. -/
inductive Returns (o : Orbit) (gens : List SignedPerm) :
    Nat → List (Nat × SignedPerm) → Prop where
  | root {q : Nat} : o.link q = some .root → Returns o gens q []
  | step {q i : Nat} {g : SignedPerm} {way : List (Nat × SignedPerm)} :
      o.link q = some (.step i) → gens[i]? = some g → Returns o gens (g.actInv q) way →
      Returns o gens q ((i, g) :: way)

section

variable {n : Nat} {gens : List SignedPerm} {seed : Nat} {o : Orbit}

theorem backward_of_root (fuel : Nat) {q : Nat} (h : o.link q = some .root) :
    o.backward gens fuel q = [] := by
  cases fuel with
  | zero => rfl
  | succ fuel => rw [backward, h]

theorem backward_of_step (fuel : Nat) {q i : Nat} {g : SignedPerm}
    (h : o.link q = some (.step i)) (hg : gens[i]? = some g) :
    o.backward gens (fuel + 1) q = (i, g) :: o.backward gens fuel (g.actInv q) := by
  rw [backward, h]
  simp only [hg]

theorem backward_of_unlinked (fuel : Nat) {q : Nat} (h : o.link q = none) :
    o.backward gens fuel q = [] := by
  cases fuel with
  | zero => rfl
  | succ fuel => rw [backward, h]

/-- Fuel for every link of the walk is enough. -/
theorem Returns.backward_eq {q : Nat} {way : List (Nat × SignedPerm)} (h : Returns o gens q way) :
    ∀ {fuel : Nat}, way.length ≤ fuel → o.backward gens fuel q = way := by
  induction h with
  | root hl =>
      intro fuel _
      exact backward_of_root fuel hl
  | @step q i g way hl hg _ ih =>
      intro fuel hfuel
      rw [List.length_cons] at hfuel
      obtain ⟨fuel, rfl⟩ : ∃ k, fuel = k + 1 := ⟨fuel - 1, by omega⟩
      rw [backward_of_step fuel hl hg, ih (by omega)]

/-- The walk from the point at a place ends at the root: every link leads to an earlier
    place. -/
theorem Stage.exists_returns (h : Stage n gens seed o) (hgens : ∀ g ∈ gens, g.On n)
    (place : Nat) : ∀ q : Nat, o.points[place]? = some q →
      ∃ way, Returns o gens q way ∧ way.length ≤ place := by
  induction place using Nat.strongRecOn with
  | ind place ih =>
      intro q hq
      have hlinked := (h.linked_iff q).mpr (Array.mem_of_getElem? hq)
      obtain ⟨l, hl⟩ := Option.isSome_iff_exists.mp hlinked
      cases l with
      | root => exact ⟨[], .root hl, Nat.zero_le _⟩
      | step i =>
          obtain ⟨g, earlier, p, hg, hlt, hp, hact⟩ := h.step place q i hq hl
          obtain ⟨way, hway, hlength⟩ := ih earlier hlt p hp
          have hback : g.actInv q = p := by
            rw [← hact]
            exact (hgens g (List.mem_of_getElem? hg)).actInv_act p
          refine ⟨(i, g) :: way, .step hl hg (by rwa [hback]), ?_⟩
          rw [List.length_cons]
          omega

/-- From every point of the orbit the walk ends, before the fuel of the way back does. -/
theorem Stage.returns_wayBack (h : Stage n gens seed o) (hgens : ∀ g ∈ gens, g.On n) {q : Nat}
    (hq : o.contains q = true) :
    Returns o gens q (o.wayBack gens q) ∧ (o.wayBack gens q).length < o.length := by
  obtain ⟨place, hplace⟩ := h.exists_place hq
  obtain ⟨way, hway, hle⟩ := h.exists_returns hgens place q hplace
  have hlt : way.length < o.length :=
    Nat.lt_of_le_of_lt hle (Array.getElem?_eq_some_iff.mp hplace).1
  have heq : o.wayBack gens q = way := hway.backward_eq (Nat.le_of_lt hlt)
  rw [heq]
  exact ⟨hway, hlt⟩

/-- The walk carries an element of the span that takes the seed to the point. -/
theorem Returns.exists_carries {q : Nat} {way : List (Nat × SignedPerm)}
    (hway : Returns o gens q way) (h : Stage n gens seed o) (hgens : ∀ g ∈ gens, g.On n) :
    ∃ t ∈ Signed.span n gens, t • seed = q ∧ Carries way t := by
  induction hway with
  | @root q hl =>
      refine ⟨1, (Signed.span n gens).one_mem, ?_, Carries.nil⟩
      rw [one_smul, (h.root_iff q).mp hl]
  | @step q i g way hl hg _ ih =>
      obtain ⟨t, ht, hseed, hcarries⟩ := ih
      have hmem : g ∈ gens := List.mem_of_getElem? hg
      refine ⟨⟨g, hgens g hmem⟩ * t, ?_, ?_, hcarries.cons i ⟨g, hgens g hmem⟩⟩
      · exact (Signed.span n gens).mul_mem (mem_span_of_mem (hgens g hmem) hmem) ht
      · rw [mul_smul, hseed]
        exact (hgens g hmem).act_actInv q

/-! ## The transporter -/

/-- Every point has an element of the span that its way back carries; it takes the seed to
    the point, if that belongs to the orbit. -/
theorem Stage.exists_transporter (h : Stage n gens seed o) (hgens : ∀ g ∈ gens, g.On n)
    (q : Nat) : ∃ t ∈ Signed.span n gens,
      (o.contains q = true → t • seed = q) ∧ Carries (o.wayBack gens q) t := by
  cases hq : o.contains q with
  | false =>
      refine ⟨1, (Signed.span n gens).one_mem, nofun, ?_⟩
      rw [wayBack, backward_of_unlinked _ (h.link_eq_none_iff.mpr hq)]
      exact Carries.nil
  | true =>
      obtain ⟨t, ht, hseed, hway⟩ := (h.returns_wayBack hgens hq).1.exists_carries h hgens
      exact ⟨t, ht, fun _ => hseed, hway⟩

theorem Carries.carrier_eq {q : Nat} {t : Signed n} (hway : Carries (o.wayBack gens q) t)
    (hdegree : o.degree = n) : o.carrier gens q = t.val := by
  rw [carrier, hdegree, ← Signed.val_one, hway.forth, one_mul]

/-- The product of the generators on the way to a point, as an element of the group. -/
def Stage.transporter (h : Stage n gens seed o) (hgens : ∀ g ∈ gens, g.On n) (q : Nat) :
    Signed n :=
  ⟨o.carrier gens q, by
    obtain ⟨t, -, -, hway⟩ := h.exists_transporter hgens q
    rw [hway.carrier_eq h.degree_eq]
    exact t.on⟩

theorem Stage.transporter_spec (h : Stage n gens seed o) (hgens : ∀ g ∈ gens, g.On n) (q : Nat) :
    h.transporter hgens q ∈ Signed.span n gens
      ∧ (o.contains q = true → h.transporter hgens q • seed = q)
      ∧ Carries (o.wayBack gens q) (h.transporter hgens q) := by
  obtain ⟨t, ht, hseed, hway⟩ := h.exists_transporter hgens q
  have heq : h.transporter hgens q = t := Signed.eq_of_val (hway.carrier_eq h.degree_eq)
  rw [heq]
  exact ⟨ht, hseed, hway⟩

theorem Stage.transporter_mem (h : Stage n gens seed o) (hgens : ∀ g ∈ gens, g.On n) (q : Nat) :
    h.transporter hgens q ∈ Signed.span n gens :=
  (h.transporter_spec hgens q).1

theorem Stage.transporter_smul (h : Stage n gens seed o) (hgens : ∀ g ∈ gens, g.On n) {q : Nat}
    (hq : o.contains q = true) : h.transporter hgens q • seed = q :=
  (h.transporter_spec hgens q).2.1 hq

theorem Stage.transversal_eq (h : Stage n gens seed o) (hgens : ∀ g ∈ gens, g.On n) {q : Nat}
    (hq : o.contains q = true) : o.transversal gens q = some (h.transporter hgens q).val := by
  rw [transversal, if_pos hq]
  rfl

theorem Stage.unwind_eq (h : Stage n gens seed o) (hgens : ∀ g ∈ gens, g.On n) (q : Nat)
    (x : Signed n) : o.unwind gens q x.val = ((h.transporter hgens q)⁻¹ * x).val :=
  (h.transporter_spec hgens q).2.2.back x

theorem Stage.transporter_seed (h : Stage n gens seed o) (hgens : ∀ g ∈ gens, g.On n) :
    h.transporter hgens seed = 1 := by
  refine Signed.eq_of_val ?_
  show o.carrier gens seed = SignedPerm.id n
  rw [carrier, wayBack, backward_of_root _ ((h.root_iff seed).mpr rfl), h.degree_eq]
  rfl

/-! ## The points of a grown orbit -/

theorem find?_degree_eq_none (hgens : ∀ g ∈ gens, g.On n) :
    gens.find? (·.degree != n) = none := by
  rw [List.find?_eq_none]
  intro g hg
  simp [(hgens g hg).degree_eq]

/-- Valid generators lead out of no orbit. -/
theorem ofSeed_eq_grow (hgens : ∀ g ∈ gens, g.On n) (hseed : seed < n) :
    ofSeed n gens seed = .ok (grow n gens seed) := by
  have hstage := grow_stage gens hseed
  have hclosed : (grow n gens seed).isClosed gens = true := by
    rw [isClosed, Array.all_eq_true_iff_forall_mem]
    intro q hq
    rw [List.all_eq_true]
    intro g hg
    rw [decide_eq_true_eq, hstage.degree_eq]
    exact (hgens g hg).act_lt (hstage.lt_of_contains ((hstage.contains_iff q).mpr hq))
  rw [ofSeed, if_neg (Nat.not_le.mpr hseed), find?_degree_eq_none hgens]
  show (if (grow n gens seed).isClosed gens = true then _ else _) = _
  rw [if_pos hclosed]

/-- What the inputs of an orbit are, told by its success. -/
theorem inputs_of_ofSeed (ho : ofSeed n gens seed = .ok o) :
    seed < n ∧ (∀ g ∈ gens, g.degree = n) ∧ o = grow n gens seed := by
  rw [ofSeed] at ho
  split at ho
  · exact nomatch ho
  · rename_i hseed
    split at ho
    · exact nomatch ho
    · rename_i hdegrees
      refine ⟨Nat.lt_of_not_le hseed, fun g hg => ?_, ?_⟩
      · simpa using List.find?_eq_none.mp hdegrees g hg
      · dsimp only at ho
        split at ho
        · exact (Except.ok.inj ho).symm
        · exact nomatch ho

theorem eq_grow_of_ok (hgens : ∀ g ∈ gens, g.On n) (hseed : seed < n)
    (ho : ofSeed n gens seed = .ok o) : o = grow n gens seed :=
  Except.ok.inj (ho.symm.trans (ofSeed_eq_grow hgens hseed))

/-- The points of a grown orbit are the images of the seed under the span. -/
theorem grow_contains_iff (hgens : ∀ g ∈ gens, g.On n) (hseed : seed < n) {q : Nat} :
    (grow n gens seed).contains q = true ↔ ∃ x ∈ Signed.span n gens, x • seed = q := by
  have h := grow_stage gens hseed
  constructor
  · intro hq
    exact ⟨h.transporter hgens q, h.transporter_mem hgens q, h.transporter_smul hgens hq⟩
  · rintro ⟨x, hx, rfl⟩
    refine span_induction (P := fun x => (grow n gens seed).contains (x • seed) = true) ?_ ?_ hx
    · rw [one_smul]
      exact h.contains_seed
    · intro g x hg _ ih
      rw [mul_smul]
      exact grow_closed hseed ih hg (g.smul_lt (x.smul_lt hseed))

end

end Orbit

end SlotSymmetry
