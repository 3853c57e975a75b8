import Mathlib
import CompressedSensing.Decimal.Binary
import CompressedSensing.Proofs.Scalar.Exact
import CompressedSensing.Scalar.ComplexOver
/-!
# The real numbers as scalars

The exact reading of the library: reals are real numbers, entries are real or complex numbers
over them. Nothing is a NaN and everything is finite.

The instances are scoped to `CompressedSensing.Reals`.
-/

namespace CompressedSensing
namespace Reals

/-- The real number that a machine number stands for. -/
noncomputable def ofBinary : Binary → ℝ
  | .finite v => (if v.negative then -1 else 1) * v.mantissa * 2 ^ v.exponent
  | _ => 0

noncomputable scoped instance : Trigonometric ℝ where
  lt a b := decide (a < b)
  le a b := decide (a ≤ b)
  sqrt := Real.sqrt
  abs a := |a|
  hypot a b := Real.sqrt (a * a + b * b)
  isNaN _ := false
  isFinite _ := true
  ofNat n := n
  decimal m e := m / 10 ^ e
  ofFloat a := ofBinary (Format.double.decode a.toBits.toNat)
  epsilon := 2 ^ (-52 : ℤ)
  minPositive := 2 ^ (-1022 : ℤ)
  pi := Real.pi
  cos := Real.cos
  sin := Real.sin

noncomputable scoped instance : Precision ℝ ℝ where
  narrow a := a

noncomputable scoped instance : Scalar ℝ ℝ where
  conj a := a
  modulus a := |a|
  normSq a := a * a
  re a := a
  im _ := 0
  ofParts a _ := a
  ofReal a := a
  isZero := RealLike.isZero
  isFinite _ := true
  isComplex := false

/-- A real number has no finite text in general; the one given here is that of its integral
part. -/
noncomputable scoped instance : DecimalText ℝ where
  plain a := toString ⌊a⌋
  pointed a := toString ⌊a⌋ ++ ".0"

instance : ExactScalar ℝ where
  add_assoc := add_assoc
  add_comm := add_comm
  zero_add := zero_add
  neg_add_cancel := neg_add_cancel
  sub_eq_add_neg := sub_eq_add_neg
  mul_assoc := mul_assoc
  mul_comm := mul_comm
  one_mul := one_mul
  mul_add := mul_add
  conj_conj _ := rfl
  conj_add _ _ := rfl
  conj_mul _ _ := rfl
  conj_ofReal _ := rfl

lemma epsilon_nonneg : (0 : ℝ) ≤ RealLike.epsilon := by
  show (0 : ℝ) ≤ 2 ^ (-52 : ℤ)
  positivity

lemma max_eq (x y : ℝ) : RealLike.max x y = max x y := by
  show (if decide (x < y) = true then y else x) = max x y
  by_cases hxy : x < y
  · rw [if_pos (decide_eq_true hxy), max_eq_right hxy.le]
  · rw [if_neg (by simpa using hxy), max_eq_left (not_lt.1 hxy)]

end Reals

/-! ## Complex numbers over the real numbers -/

namespace ComplexOver

@[ext] theorem ext {R : Type} {z w : ComplexOver R} (hre : z.re = w.re) (him : z.im = w.im) :
    z = w := by
  cases z
  cases w
  simp_all

section

variable {R : Type} [RealLike R]

@[simp] theorem re_add (z w : ComplexOver R) : (z + w).re = z.re + w.re := rfl

@[simp] theorem im_add (z w : ComplexOver R) : (z + w).im = z.im + w.im := rfl

@[simp] theorem re_mul (z w : ComplexOver R) : (z * w).re = z.re * w.re - z.im * w.im := rfl

@[simp] theorem im_mul (z w : ComplexOver R) : (z * w).im = z.re * w.im + z.im * w.re := rfl

@[simp] theorem re_one : (1 : ComplexOver R).re = 1 := rfl

@[simp] theorem im_one : (1 : ComplexOver R).im = 0 := rfl

@[simp] theorem re_conj (z : ComplexOver R) : (Scalar.conj z).re = z.re := rfl

@[simp] theorem im_conj (z : ComplexOver R) : (Scalar.conj z).im = -z.im := rfl

end

open Reals

instance : ExactScalar (ComplexOver ℝ) where
  add_assoc _ _ _ := ext (add_assoc _ _ _) (add_assoc _ _ _)
  add_comm _ _ := ext (add_comm _ _) (add_comm _ _)
  zero_add _ := ext (zero_add _) (zero_add _)
  neg_add_cancel _ := ext (neg_add_cancel _) (neg_add_cancel _)
  sub_eq_add_neg _ _ := ext (sub_eq_add_neg _ _) (sub_eq_add_neg _ _)
  mul_assoc a b c := by
    ext
    · simp only [re_mul, im_mul]
      ring
    · simp only [re_mul, im_mul]
      ring
  mul_comm a b := by
    ext
    · simp only [re_mul]
      ring
    · simp only [im_mul]
      ring
  one_mul a := by
    ext
    · simp only [re_mul, re_one, im_one]
      ring
    · simp only [im_mul, re_one, im_one]
      ring
  mul_add a b c := by
    ext
    · simp only [re_mul, re_add, im_add]
      ring
    · simp only [im_mul, re_add, im_add]
      ring
  conj_conj a := ext rfl (neg_neg a.im)
  conj_add a b := ext rfl (neg_add a.im b.im)
  conj_mul a b := by
    ext
    · simp only [re_mul, re_conj, im_conj]
      ring
    · simp only [im_mul, re_conj, im_conj]
      ring
  conj_ofReal _ := ext rfl neg_zero

end ComplexOver
end CompressedSensing
