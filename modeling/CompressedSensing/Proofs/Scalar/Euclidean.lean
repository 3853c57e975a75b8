import Mathlib
import CompressedSensing.Proofs.Scalar.Reals
/-!
# Exact scalars with a norm

`HermitianScalar T` says that the squared modulus of an entry is what it gives with its conjugate,
and that sums of squared moduli are exact, in whatever type of reals they are held.

`EuclideanScalar T` says that squared moduli of entries are real numbers, that they are what an
entry gives with its conjugate, and that only zero has modulus zero. This makes sums of squared
moduli a positive definite form. Real and complex numbers are like that.
-/

namespace CompressedSensing

/-- Exact entries whose squared moduli are `z̄ z`, held in a type of reals with exact sums. -/
class HermitianScalar (T : Type) {R : outParam Type} [RealLike R] [Scalar T R] : Prop extends
    ExactScalar T where
  ofReal_zero : (Scalar.ofReal (0 : R) : T) = 0
  ofReal_add (a b : R) : (Scalar.ofReal (a + b) : T) = Scalar.ofReal a + Scalar.ofReal b
  ofReal_injective : Function.Injective (Scalar.ofReal : R → T)
  conj_mul_self (z : T) : Scalar.conj z * z = Scalar.ofReal (Scalar.normSq z)

open Reals

/-- Exact entries with a positive definite squared modulus. -/
class EuclideanScalar (T : Type) [Scalar T ℝ] : Prop extends ExactScalar T where
  isFinite_eq_true (z : T) : Scalar.isFinite z = true
  ofReal_one : (Scalar.ofReal (1 : ℝ) : T) = 1
  ofReal_add (a b : ℝ) : (Scalar.ofReal (a + b) : T) = Scalar.ofReal a + Scalar.ofReal b
  ofReal_injective : Function.Injective (Scalar.ofReal : ℝ → T)
  conj_mul_self (z : T) : Scalar.conj z * z = Scalar.ofReal (Scalar.normSq z)
  normSq_nonneg (z : T) : (0 : ℝ) ≤ Scalar.normSq z
  eq_zero_of_normSq (z : T) : Scalar.normSq z = (0 : ℝ) → z = 0

open scoped ExactScalar in
instance EuclideanScalar.hermitianScalar {T : Type} [Scalar T ℝ] [EuclideanScalar T] :
    HermitianScalar T where
  ofReal_zero := by
    have hadd := EuclideanScalar.ofReal_add (T := T) 0 0
    rw [add_zero] at hadd
    exact left_eq_add.1 hadd
  ofReal_add := EuclideanScalar.ofReal_add
  ofReal_injective := EuclideanScalar.ofReal_injective
  conj_mul_self := EuclideanScalar.conj_mul_self

instance : EuclideanScalar ℝ where
  isFinite_eq_true _ := rfl
  ofReal_one := rfl
  ofReal_add _ _ := rfl
  ofReal_injective _ _ h := h
  conj_mul_self _ := rfl
  normSq_nonneg z := mul_self_nonneg z
  eq_zero_of_normSq _ h := mul_self_eq_zero.1 h

instance : EuclideanScalar (ComplexOver ℝ) where
  isFinite_eq_true _ := rfl
  ofReal_one := rfl
  ofReal_add _ _ := ComplexOver.ext rfl (zero_add (0 : ℝ)).symm
  ofReal_injective _ _ h := congrArg ComplexOver.re h
  conj_mul_self z := by
    refine ComplexOver.ext ?_ ?_
    · show z.re * z.re - -z.im * z.im = z.re * z.re + z.im * z.im
      ring
    · show z.re * z.im + -z.im * z.re = 0
      ring
  normSq_nonneg z := add_nonneg (mul_self_nonneg z.re) (mul_self_nonneg z.im)
  eq_zero_of_normSq z h := by
    have hsum : z.re * z.re + z.im * z.im = 0 := h
    have hre := mul_self_nonneg z.re
    have him := mul_self_nonneg z.im
    exact ComplexOver.ext (mul_self_eq_zero.1 (by linarith)) (mul_self_eq_zero.1 (by linarith))

end CompressedSensing
