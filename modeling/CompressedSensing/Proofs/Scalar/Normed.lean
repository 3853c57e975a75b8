import Mathlib
import CompressedSensing.Proofs.Scalar.Euclidean
/-!
# Exact scalars that form a normed field

`NormedScalar T` adds to a positive definite squared modulus what rankings and quotients need:
the modulus is the root of the squared modulus, real constants multiply like the reals, and
nothing but zero cannot be divided by. Squared moduli are then multiplicative.
-/

namespace CompressedSensing

open Reals

/-- Exact entries with moduli and quotients. -/
class NormedScalar (T : Type) [Scalar T ℝ] : Prop extends EuclideanScalar T where
  modulus_eq_sqrt (z : T) : (Scalar.modulus z : ℝ) = Real.sqrt (Scalar.normSq z)
  ofReal_mul (a b : ℝ) : (Scalar.ofReal (a * b) : T) = Scalar.ofReal a * Scalar.ofReal b
  div_mul_cancel (a c : T) : c ≠ 0 → a / c * c = a

instance NormedScalar.exactScalar {T : Type} [Scalar T ℝ] [NormedScalar T] : ExactScalar T :=
  inferInstance

instance : NormedScalar ℝ where
  modulus_eq_sqrt z := (Real.sqrt_mul_self_eq_abs z).symm
  ofReal_mul _ _ := rfl
  div_mul_cancel a _ hc := div_mul_cancel₀ a hc

instance : NormedScalar (ComplexOver ℝ) where
  modulus_eq_sqrt _ := rfl
  ofReal_mul a b := by
    refine ComplexOver.ext ?_ ?_
    · show a * b = a * b - 0 * 0
      ring
    · show (0 : ℝ) = a * 0 + 0 * b
      ring
  div_mul_cancel a c hc := by
    have hnorm : c.re * c.re + c.im * c.im ≠ 0 :=
      fun h => hc (EuclideanScalar.eq_zero_of_normSq c h)
    refine ComplexOver.ext ?_ ?_
    · show (a.re * c.re + a.im * c.im) / (c.re * c.re + c.im * c.im) * c.re
        - (a.im * c.re - a.re * c.im) / (c.re * c.re + c.im * c.im) * c.im = a.re
      rw [div_mul_eq_mul_div, div_mul_eq_mul_div, ← sub_div, div_eq_iff hnorm]
      ring
    · show (a.re * c.re + a.im * c.im) / (c.re * c.re + c.im * c.im) * c.im
        + (a.im * c.re - a.re * c.im) / (c.re * c.re + c.im * c.im) * c.re = a.im
      rw [div_mul_eq_mul_div, div_mul_eq_mul_div, ← add_div, div_eq_iff hnorm]
      ring

namespace NormedScalar

open scoped ExactScalar

variable {T : Type} [Scalar T ℝ] [NormedScalar T]

lemma ofReal_zero : (Scalar.ofReal (0 : ℝ) : T) = 0 := HermitianScalar.ofReal_zero

lemma ofReal_ne_zero {μ : ℝ} (hμ : μ ≠ 0) : (Scalar.ofReal μ : T) ≠ 0 := by
  intro h
  rw [← ofReal_zero] at h
  exact hμ (EuclideanScalar.ofReal_injective h)

/-- Real constants as a ring homomorphism. -/
def ofRealHom (T : Type) [Scalar T ℝ] [NormedScalar T] : ℝ →+* T where
  toFun := Scalar.ofReal
  map_one' := EuclideanScalar.ofReal_one
  map_mul' := ofReal_mul
  map_zero' := ofReal_zero
  map_add' := EuclideanScalar.ofReal_add

lemma ofReal_natCast (n : ℕ) : (Scalar.ofReal (n : ℝ) : T) = n := map_natCast (ofRealHom T) n

lemma ofReal_finsetSum {ι : Type} (s : Finset ι) (f : ι → ℝ) :
    (Scalar.ofReal (∑ i ∈ s, f i) : T) = ∑ i ∈ s, Scalar.ofReal (f i) := map_sum (ofRealHom T) f s

protected lemma one_ne_zero : (1 : T) ≠ 0 := by
  rw [← EuclideanScalar.ofReal_one]
  exact ofReal_ne_zero one_ne_zero

lemma normSq_zero : (Scalar.normSq (0 : T) : ℝ) = 0 := by
  refine EuclideanScalar.ofReal_injective (T := T) ?_
  rw [← EuclideanScalar.conj_mul_self, mul_zero, ofReal_zero]

lemma normSq_mul (z w : T) :
    (Scalar.normSq (z * w) : ℝ) = Scalar.normSq z * Scalar.normSq w := by
  refine EuclideanScalar.ofReal_injective (T := T) ?_
  rw [ofReal_mul, ← EuclideanScalar.conj_mul_self, ← EuclideanScalar.conj_mul_self,
    ← EuclideanScalar.conj_mul_self, ExactScalar.conj_mul]
  ring

lemma normSq_ofReal (r : ℝ) : (Scalar.normSq (Scalar.ofReal r : T) : ℝ) = r * r := by
  refine EuclideanScalar.ofReal_injective (T := T) ?_
  rw [← EuclideanScalar.conj_mul_self, ExactScalar.conj_ofReal, ofReal_mul]

lemma normSq_pos {a : T} (ha : a ≠ 0) : 0 < (Scalar.normSq a : ℝ) :=
  (EuclideanScalar.normSq_nonneg a).lt_of_ne fun h =>
    ha (EuclideanScalar.eq_zero_of_normSq a h.symm)

lemma modulus_mul (z w : T) :
    (Scalar.modulus (z * w) : ℝ) = Scalar.modulus z * Scalar.modulus w := by
  rw [modulus_eq_sqrt, modulus_eq_sqrt, modulus_eq_sqrt, normSq_mul,
    Real.sqrt_mul (EuclideanScalar.normSq_nonneg z)]

lemma modulus_pos {a : T} (ha : a ≠ 0) : 0 < (Scalar.modulus a : ℝ) := by
  rw [modulus_eq_sqrt]
  exact Real.sqrt_pos.2 (normSq_pos ha)

/-- Moduli are compared through their squares. -/
lemma modulus_le_iff {z w : T} :
    (Scalar.modulus z : ℝ) ≤ Scalar.modulus w ↔ (Scalar.normSq z : ℝ) ≤ Scalar.normSq w := by
  rw [modulus_eq_sqrt, modulus_eq_sqrt, Real.sqrt_le_sqrt_iff (EuclideanScalar.normSq_nonneg w)]

end NormedScalar
end CompressedSensing
