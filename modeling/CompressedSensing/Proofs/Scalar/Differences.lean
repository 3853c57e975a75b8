import Mathlib
import CompressedSensing.Proofs.Scalar.Extended
/-!
# Laws of differences

The rule that ends a run compares a difference of norms with a product. `DifferenceLaws R` says
what a comparison with zero can be read from: a difference that is a number has the sign that the
order says, products of numbers that are not negative are not negative, and neither are square
roots. A difference of equal infinities and the product of zero with an infinity are NaN, so each
law asks for a number; nothing follows from a NaN.

`FiniteLaws R` adds that finite numbers have differences, and `ExactOrder R` says that there is no
NaN at all, as over the reals.
-/

namespace CompressedSensing

/-- Differences, products and square roots that keep to the order where they are numbers. -/
class DifferenceLaws (R : Type) [RealLike R] : Prop extends OrderLaws R where
  isNaN_zero : RealLike.isNaN (0 : R) = false
  isNaN_of_sub (a b : R) : RealLike.isNaN (a - b) = false →
    RealLike.isNaN a = false ∧ RealLike.isNaN b = false
  sub_le_zero (a b : R) : RealLike.le a b = true → RealLike.isNaN (a - b) = false →
    RealLike.le (a - b) 0 = true
  zero_le_mul (a b : R) : RealLike.le 0 a = true → RealLike.le 0 b = true →
    RealLike.isNaN (a * b) = false → RealLike.le 0 (a * b) = true
  zero_le_sqrt (a : R) : RealLike.isNaN (RealLike.sqrt a) = false →
    RealLike.le 0 (RealLike.sqrt a) = true

/-- Finite numbers can be subtracted. -/
class FiniteLaws (R : Type) [RealLike R] : Prop extends DifferenceLaws R where
  isNaN_sub (a b : R) : RealLike.isFinite a = true → RealLike.isFinite b = true →
    RealLike.isNaN (a - b) = false

/-- Exact ordered numbers: every comparison is decided. -/
class ExactOrder (R : Type) [RealLike R] : Prop extends DifferenceLaws R where
  isNaN_eq_false (a : R) : RealLike.isNaN a = false

/-! ## The reals -/

open Reals

instance : ExactOrder ℝ where
  isNaN_zero := rfl
  isNaN_of_sub _ _ _ := ⟨rfl, rfl⟩
  sub_le_zero _ _ h _ := decide_eq_true (sub_nonpos_of_le (of_decide_eq_true h))
  zero_le_mul _ _ h h' _ :=
    decide_eq_true (mul_nonneg (of_decide_eq_true h) (of_decide_eq_true h'))
  zero_le_sqrt a _ := decide_eq_true (Real.sqrt_nonneg a)
  isNaN_eq_false _ := rfl

instance : FiniteLaws ℝ where
  isNaN_sub _ _ _ _ := rfl

/-! ## Rational numbers with infinities and NaN -/

namespace Extended

/-- Only equal infinities and NaN have no difference. -/
lemma isNaN_sub_iff {a b : Extended} :
    RealLike.isNaN (a - b) = true ↔
      a = nan ∨ b = nan ∨ ∃ s, a = infinite s ∧ b = infinite s := by
  show decide (add a b.neg = nan) = true ↔ _
  rw [decide_eq_true_iff]
  cases a with
  | nan => simp [add]
  | infinite s => cases b <;> cases s <;> simp [add, neg]
  | finite p => cases b <;> simp [add, neg]

instance : DifferenceLaws Extended where
  isNaN_zero := rfl
  isNaN_of_sub a b h := by
    have hnot : ¬ RealLike.isNaN (a - b) = true := by simp [h]
    rw [isNaN_sub_iff, not_or, not_or] at hnot
    exact ⟨decide_eq_false hnot.1, decide_eq_false hnot.2.1⟩
  sub_le_zero a b hle hnum := by
    cases a with
    | nan => cases hle
    | infinite s =>
      cases b with
      | nan => cases s <;> cases hle
      | infinite t =>
        -- only infinities of different signs have a difference
        cases s with
        | true =>
          cases t with
          | true => cases hnum
          | false => rfl
        | false =>
          cases t with
          | true => cases hle
          | false => cases hnum
      | finite q =>
        cases s with
        | true => rfl
        | false => cases hle
    | finite p =>
      cases b with
      | nan => cases hle
      | infinite t =>
        cases t with
        | true => cases hle
        | false => rfl
      | finite q =>
        have hpq := le_finite_iff.1 hle
        refine le_finite_iff.2 (?_ : p + -q ≤ 0)
        linarith
  zero_le_mul a b ha hb hnum := by
    rw [zero_le_iff] at ha hb ⊢
    rcases ha with rfl | ⟨p, hp, rfl⟩
    · left
      rcases hb with rfl | ⟨q, hq, rfl⟩
      · rfl
      · have hq' : q ≠ 0 := by
          rintro rfl
          cases hnum
        show (if q = 0 then nan else infinite (false != decide (q < 0))) = _
        rw [if_neg hq', decide_eq_false (not_lt.2 hq)]
        rfl
    · rcases hb with rfl | ⟨q, hq, rfl⟩
      · left
        have hp' : p ≠ 0 := by
          rintro rfl
          cases hnum
        show (if p = 0 then nan else infinite (false != decide (p < 0))) = _
        rw [if_neg hp', decide_eq_false (not_lt.2 hp)]
        rfl
      · exact .inr ⟨p * q, mul_nonneg hp hq, rfl⟩
  zero_le_sqrt a hnum := by
    -- a number with a root is not negative
    refine NormLaws.zero_le_sqrt (T := Extended) a (zero_le_iff.2 ?_)
    cases a with
    | nan => cases hnum
    | infinite s =>
      cases s with
      | true => cases hnum
      | false => exact .inl rfl
    | finite q =>
      refine .inr ⟨q, ?_, rfl⟩
      by_contra hneg
      have hroot : RealLike.sqrt (finite q) = nan := if_pos (not_le.1 hneg)
      rw [hroot] at hnum
      cases hnum

instance : FiniteLaws Extended where
  isNaN_sub a b ha hb := by
    cases a with
    | nan => cases ha
    | infinite s => cases ha
    | finite p =>
      cases b with
      | nan => cases hb
      | infinite s => cases hb
      | finite q => rfl

end Extended
end CompressedSensing
