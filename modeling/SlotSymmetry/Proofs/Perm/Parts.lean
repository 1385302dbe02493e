import Mathlib.Algebra.Group.Subgroup.Ker
import Mathlib.Algebra.Group.Int.Units
import SlotSymmetry.Proofs.Perm.Signed

/-! # Signs and images

    A signed permutation has two parts, its sign and its images, and both are
    homomorphisms: to the signs `1` and `-1`, and to the permutations of the
    points below `n`.  Together they determine it.  The elements with a
    symmetric sign are the kernel of the first one. -/

namespace SlotSymmetry

namespace Signed

variable {n : Nat} {x y : Signed n}

/-! ## Signs -/

/-- The sign of an element, `-1` if it flips. -/
def sign : Signed n →* ℤˣ where
  toFun x := if x.val.flips then -1 else 1
  map_one' := rfl
  map_mul' x y := by
    rw [flips_mul]
    cases x.val.flips <;> cases y.val.flips <;> rfl

theorem sign_apply (x : Signed n) : sign x = if x.val.flips then -1 else 1 := rfl

theorem sign_eq_one_iff : sign x = 1 ↔ x.val.flips = false := by
  rw [sign_apply]
  cases x.val.flips <;> decide

theorem sign_eq_neg_one_iff : sign x = -1 ↔ x.val.flips = true := by
  rw [sign_apply]
  cases x.val.flips <;> decide

theorem sign_eq_sign_iff : sign x = sign y ↔ x.val.flips = y.val.flips := by
  rw [sign_apply, sign_apply]
  cases x.val.flips <;> cases y.val.flips <;> decide

/-- The elements with a symmetric sign. -/
def symmetricPart (n : Nat) : Subgroup (Signed n) := sign.ker

theorem mem_symmetricPart : x ∈ symmetricPart n ↔ x.val.flips = false := by
  rw [symmetricPart, MonoidHom.mem_ker, sign_eq_one_iff]

/-! ## Images -/

/-- The permutation of the points below `n`. -/
def toPerm : Signed n →* Equiv.Perm (Fin n) where
  toFun x :=
    { toFun i := ⟨x • (i : Nat), x.smul_lt i.isLt⟩
      invFun i := ⟨x⁻¹ • (i : Nat), x⁻¹.smul_lt i.isLt⟩
      left_inv i := Fin.ext (inv_smul_smul x (i : Nat))
      right_inv i := Fin.ext (smul_inv_smul x (i : Nat)) }
  map_one' := Equiv.ext fun i => Fin.ext (one_smul _ (i : Nat))
  map_mul' x y := Equiv.ext fun i => Fin.ext (mul_smul x y (i : Nat))

theorem val_toPerm (x : Signed n) (i : Fin n) : (toPerm x i : Nat) = x • (i : Nat) := rfl

/-- An element is determined by its images and its sign. -/
theorem eq_of_toPerm (himage : toPerm x = toPerm y) (hsign : sign x = sign y) : x = y := by
  refine eq_of_val (x.on.ext y.on ?_ (sign_eq_sign_iff.mp hsign))
  intro i hi
  exact congrArg Fin.val (Equiv.congr_fun himage ⟨i, hi⟩)

end Signed

end SlotSymmetry
