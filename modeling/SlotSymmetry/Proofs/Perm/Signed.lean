import Mathlib.GroupTheory.GroupAction.Defs
import Mathlib.GroupTheory.OrderOfElement
import SlotSymmetry.Perm.Generated
import SlotSymmetry.Proofs.Perm.Laws

/-! # The group of signed permutations

    The valid signed permutations of `0..n` are a finite group `Signed n`, which
    acts on the points.  A list of permutations spans a subgroup of it, and the
    finite products of members of the list are exactly the elements of the
    span (`generated_iff`): in a finite group an inverse is a power. -/

namespace SlotSymmetry

/-- The valid signed permutations of `0..n`. -/
structure Signed (n : Nat) where
  val : SignedPerm
  on : val.On n

namespace Signed

variable {n : Nat}

instance : Mul (Signed n) := ⟨fun x y => ⟨x.val * y.val, x.on.mul y.on⟩⟩

instance : One (Signed n) := ⟨⟨SignedPerm.id n, SignedPerm.id_on n⟩⟩

instance : Inv (Signed n) := ⟨fun x => ⟨x.val.inverse, x.on.inverse⟩⟩

instance : SMul (Signed n) Nat := ⟨fun x i => x.val.act i⟩

/-- The antisymmetric identity: it fixes every point and flips the sign. -/
def flip (n : Nat) : Signed n := ⟨(SignedPerm.id n).negated, (SignedPerm.id_on n).negated⟩

@[simp] theorem val_mul (x y : Signed n) : (x * y).val = x.val * y.val := rfl

@[simp] theorem val_one : (1 : Signed n).val = SignedPerm.id n := rfl

theorem flips_mul (x y : Signed n) : (x * y).val.flips = (x.val.flips != y.val.flips) := rfl

theorem eq_of_val {x y : Signed n} (h : x.val = y.val) : x = y := by
  cases x
  cases y
  cases h
  rfl

/-- An element is determined by its action and its sign. -/
theorem ext {x y : Signed n} (hact : ∀ i : Nat, x • i = y • i)
    (hflips : x.val.flips = y.val.flips) : x = y :=
  eq_of_val (x.on.ext y.on (fun i _ => hact i) hflips)

theorem mul_smul' (x y : Signed n) (i : Nat) : (x * y) • i = x • y • i := x.on.act_mul y.on i

theorem one_smul' (i : Nat) : (1 : Signed n) • i = i := SignedPerm.act_id n i

theorem inv_smul_smul' (x : Signed n) (i : Nat) : x⁻¹ • x • i = i := x.on.actInv_act i

instance : Group (Signed n) where
  mul_assoc x y z := by
    refine ext (fun i => ?_) ?_
    · rw [mul_smul', mul_smul', mul_smul', mul_smul']
    · rw [flips_mul, flips_mul, flips_mul, flips_mul]
      exact Bool.bne_assoc _ _ _
  one_mul x := by
    refine ext (fun i => ?_) ?_
    · rw [mul_smul', one_smul']
    · exact Bool.false_bne _
  mul_one x := by
    refine ext (fun i => ?_) ?_
    · rw [mul_smul', one_smul']
    · exact Bool.bne_false _
  inv_mul_cancel x := by
    refine ext (fun i => ?_) ?_
    · rw [mul_smul', inv_smul_smul', one_smul']
    · exact bne_self_eq_false _

instance : MulAction (Signed n) Nat where
  one_smul := one_smul'
  mul_smul := mul_smul'

theorem smul_lt (x : Signed n) {i : Nat} (h : i < n) : x • i < n := x.on.act_lt h

/-- There are finitely many images and two signs. -/
instance : Finite (Signed n) := by
  let tables : Signed n → (Fin n → Fin n) × Bool :=
    fun x => (fun i => ⟨x • (i : Nat), x.smul_lt i.isLt⟩, x.val.flips)
  refine Finite.of_injective tables ?_
  intro x y hxy
  refine eq_of_val (x.on.ext y.on (fun i hi => ?_) (congrArg Prod.snd hxy))
  exact congrArg Fin.val (congrFun (congrArg Prod.fst hxy) ⟨i, hi⟩)

/-! ## The two elements that fix every point -/

theorem isIdentity_iff (x : Signed n) : x.val.isIdentity = true ↔ ∀ i : Nat, x • i = i :=
  x.on.isIdentity_iff

theorem eq_one_of_isIdentity {x : Signed n} (hfix : x.val.isIdentity = true)
    (hsign : x.val.flips = false) : x = 1 := by
  refine ext (fun i => ?_) hsign
  rw [x.isIdentity_iff.mp hfix i, one_smul]

theorem eq_flip_of_isIdentity {x : Signed n} (hfix : x.val.isIdentity = true)
    (hsign : x.val.flips = true) : x = flip n := by
  refine ext (fun i => ?_) hsign
  rw [x.isIdentity_iff.mp hfix i]
  exact (SignedPerm.act_id n i).symm

theorem one_isIdentity : (1 : Signed n).val.isIdentity = true :=
  (isIdentity_iff 1).mpr (one_smul _)

theorem flip_smul (i : Nat) : flip n • i = i := SignedPerm.act_id n i

theorem flip_ne_one : flip n ≠ 1 := by
  intro h
  have : (flip n).val.flips = (1 : Signed n).val.flips := by rw [h]
  exact Bool.noConfusion this

theorem negated_eq {p : SignedPerm} (hp : p.On n) :
    (⟨p.negated, hp.negated⟩ : Signed n) = flip n * ⟨p, hp⟩ := by
  refine ext (fun i => ?_) (Bool.true_bne _).symm
  rw [mul_smul, flip_smul]
  rfl

theorem isInconsistent_iff (x : Signed n) : x.val.isInconsistent = true ↔ x = flip n := by
  rw [SignedPerm.isInconsistent_iff]
  constructor
  · rintro ⟨hsign, hfix⟩
    exact eq_flip_of_isIdentity hfix hsign
  · rintro rfl
    exact ⟨rfl, (isIdentity_iff _).mpr flip_smul⟩

end Signed

theorem SignedPerm.inverse_mul {n : Nat} {a b : SignedPerm} (ha : a.On n) (hb : b.On n) :
    (a * b).inverse = b.inverse * a.inverse :=
  congrArg Signed.val (mul_inv_rev (⟨a, ha⟩ : Signed n) ⟨b, hb⟩)

/-! ## Spans -/

/-- The subgroup that the members of the list generate. -/
def Signed.span (n : Nat) (gens : List SignedPerm) : Subgroup (Signed n) :=
  Subgroup.closure {x | x.val ∈ gens}

section Span

variable {n : Nat} {gens gens' : List SignedPerm}

theorem mem_span_of_mem {g : SignedPerm} (hg : g.On n) (h : g ∈ gens) :
    (⟨g, hg⟩ : Signed n) ∈ Signed.span n gens :=
  Subgroup.subset_closure h

theorem span_le {K : Subgroup (Signed n)} :
    Signed.span n gens ≤ K ↔ ∀ g : Signed n, g.val ∈ gens → g ∈ K :=
  Subgroup.closure_le K

theorem span_mono (h : ∀ g ∈ gens, g ∈ gens') : Signed.span n gens ≤ Signed.span n gens' :=
  Subgroup.closure_mono fun _ hx => h _ hx

theorem span_nil : Signed.span n [] = ⊥ := by
  refine le_antisymm (span_le.mpr ?_) bot_le
  intro g hg
  exact absurd hg List.not_mem_nil

/-- What holds of the identity and is kept by multiplying with a member of the list on the
    left holds of the whole span. -/
theorem span_induction {P : Signed n → Prop} (one : P 1)
    (mul : ∀ g x : Signed n, g.val ∈ gens → x ∈ Signed.span n gens → P x → P (g * x))
    {x : Signed n} (hx : x ∈ Signed.span n gens) : P x := by
  -- the span is already closed under inverses as a monoid
  have hmonoid : (Signed.span n gens).toSubmonoid
      = Submonoid.closure {x : Signed n | x.val ∈ gens} :=
    Subgroup.closure_toSubmonoid_of_finite
  have hx' : x ∈ Submonoid.closure {x : Signed n | x.val ∈ gens} := hmonoid ▸ hx
  induction hx' using Submonoid.closure_induction_left with
  | one => exact one
  | mul_left g hg y hy ih =>
      have hy' : y ∈ Signed.span n gens := by
        show y ∈ (Signed.span n gens).toSubmonoid
        rw [hmonoid]
        exact hy
      exact mul g y hg hy' (ih hy')

/-- The finite products of members of the list are the elements of the span. -/
theorem generated_iff (hgens : ∀ g ∈ gens, g.On n) {p : SignedPerm} :
    SignedPerm.Generated n gens p ↔ ∃ hp : p.On n, (⟨p, hp⟩ : Signed n) ∈ Signed.span n gens := by
  constructor
  · intro h
    induction h with
    | one => exact ⟨SignedPerm.id_on n, (Signed.span n gens).one_mem⟩
    | @mul g p hg _ ih =>
        obtain ⟨hp, hmem⟩ := ih
        have hgmem := mem_span_of_mem (hgens g hg) hg
        exact ⟨(hgens g hg).mul hp, (Signed.span n gens).mul_mem hgmem hmem⟩
  · rintro ⟨hp, hmem⟩
    exact span_induction (P := fun x => SignedPerm.Generated n gens x.val) .one
      (fun g x hg _ ih => .mul hg ih) hmem

/-- To look for an element of the span is to look for a finite product of members of the list. -/
theorem exists_mem_span_iff (hgens : ∀ g ∈ gens, g.On n) (P : SignedPerm → Prop) :
    (∃ x ∈ Signed.span n gens, P x.val) ↔ ∃ p, SignedPerm.Generated n gens p ∧ P p := by
  constructor
  · rintro ⟨x, hx, hP⟩
    exact ⟨x.val, (generated_iff hgens).mpr ⟨x.on, hx⟩, hP⟩
  · rintro ⟨p, hp, hP⟩
    obtain ⟨hon, hx⟩ := (generated_iff hgens).mp hp
    exact ⟨⟨p, hon⟩, hx, hP⟩

end Span

end SlotSymmetry
