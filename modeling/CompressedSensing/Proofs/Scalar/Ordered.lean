import Mathlib
import CompressedSensing.Proofs.Scalar.Reals
/-!
# Laws of comparisons and norms

The laws that hold both of exact reals and of machine numbers with their infinities and NaN.

* `OrderLaws R`: apart from NaN, which compares with nothing, the numbers are ordered linearly;
  `lt` and `le` are the two halves of that order. Distinct numbers may compare as equal, as the
  two zeros do.
* `NormLaws T R`: squared moduli, their sums and square roots are not negative, and nothing is
  changed by subtracting a zero. An overflow to infinity breaks neither.
* `ZeroLaws T R`: nothing but a zero is as small as zero. There may be several zeros.
-/

namespace CompressedSensing

/-- Comparisons that are a linear order on everything but NaN. -/
class OrderLaws (R : Type) [RealLike R] : Prop where
  le_refl (a : R) : RealLike.isNaN a = false → RealLike.le a a = true
  le_trans (a b c : R) : RealLike.le a b = true → RealLike.le b c = true →
    RealLike.le a c = true
  le_total (a b : R) : RealLike.isNaN a = false → RealLike.isNaN b = false →
    RealLike.le a b = true ∨ RealLike.le b a = true
  isNaN_left (a b : R) : RealLike.le a b = true → RealLike.isNaN a = false
  isNaN_right (a b : R) : RealLike.le a b = true → RealLike.isNaN b = false
  lt_iff (a b : R) :
    RealLike.lt a b = true ↔ RealLike.le a b = true ∧ RealLike.le b a = false

/-- Norms that are not negative, and differences with zero that change nothing. -/
class NormLaws (T : Type) (R : outParam Type) [RealLike R] [Scalar T R] : Prop where
  zero_le_zero : RealLike.le (0 : R) 0 = true
  zero_le_add (a b : R) : RealLike.le 0 a = true → RealLike.le 0 b = true →
    RealLike.le 0 (a + b) = true
  zero_le_sqrt (a : R) : RealLike.le 0 a = true → RealLike.le 0 (RealLike.sqrt a) = true
  zero_le_normSq (z : T) : Scalar.isFinite z = true → RealLike.le 0 (Scalar.normSq z) = true
  normSq_sub_zero (z w : T) : Scalar.isFinite z = true → Scalar.isZero w = true →
    Scalar.normSq (z - w) = Scalar.normSq z

/-- Entries whose moduli tell zeros from all others. -/
class ZeroLaws (T : Type) (R : outParam Type) [RealLike R] [Scalar T R] : Prop where
  isZero_zero : Scalar.isZero (0 : T) = true
  isZero_of_modulus_le (z : T) :
    RealLike.le (Scalar.modulus z) (Scalar.modulus (0 : T)) = true → Scalar.isZero z = true

namespace OrderLaws

variable {R : Type} [RealLike R] [OrderLaws R] {a b c : R}

lemma lt_of_lt_of_le (h : RealLike.lt a b = true) (h' : RealLike.le b c = true) :
    RealLike.lt a c = true := by
  obtain ⟨hab, hba⟩ := (lt_iff a b).1 h
  refine (lt_iff a c).2 ⟨le_trans _ _ _ hab h', ?_⟩
  by_contra hca
  have := le_trans _ _ _ h' (eq_true_of_ne_false hca)
  rw [hba] at this
  cases this

lemma lt_of_le_of_lt (h : RealLike.le a b = true) (h' : RealLike.lt b c = true) :
    RealLike.lt a c = true := by
  obtain ⟨hbc, hcb⟩ := (lt_iff b c).1 h'
  refine (lt_iff a c).2 ⟨le_trans _ _ _ h hbc, ?_⟩
  by_contra hca
  have := le_trans _ _ _ (eq_true_of_ne_false hca) h
  rw [hcb] at this
  cases this

lemma not_lt_of_le (h : RealLike.le a b = true) : RealLike.lt b a = false := by
  by_contra hlt
  have := ((lt_iff b a).1 (eq_true_of_ne_false hlt)).2
  rw [h] at this
  cases this

lemma not_lt_self (a : R) : RealLike.lt a a = false := by
  by_contra hlt
  obtain ⟨hle, hnot⟩ := (lt_iff a a).1 (eq_true_of_ne_false hlt)
  rw [hle] at hnot
  cases hnot

lemma not_lt_of_isNaN (h : RealLike.isNaN a = true) : RealLike.lt a b = false := by
  by_contra hlt
  have := isNaN_left _ _ ((lt_iff a b).1 (eq_true_of_ne_false hlt)).1
  rw [h] at this
  cases this

lemma le_of_not_lt (ha : RealLike.isNaN a = false) (hb : RealLike.isNaN b = false)
    (h : RealLike.lt a b = false) : RealLike.le b a = true := by
  rcases le_total a b ha hb with hle | hle
  · by_contra hba
    have := (lt_iff a b).2 ⟨hle, eq_false_of_ne_true hba⟩
    rw [h] at this
    cases this
  · exact hle

end OrderLaws

/-- Comparisons that decide a linear order, of numbers only, are lawful. -/
theorem OrderLaws.of_linearOrder {R : Type} [RealLike R] [LinearOrder R]
    (hnumber : ∀ a : R, RealLike.isNaN a = false)
    (hlt : ∀ a b : R, RealLike.lt a b = decide (a < b))
    (hle : ∀ a b : R, RealLike.le a b = decide (a ≤ b)) : OrderLaws R where
  le_refl a _ := (hle a a).trans (decide_eq_true le_rfl)
  le_trans a b c h h' := by
    rw [hle, decide_eq_true_iff] at *
    exact h.trans h'
  le_total a b _ _ := by
    rw [hle, hle, decide_eq_true_iff, decide_eq_true_iff]
    exact LinearOrder.le_total a b
  isNaN_left a _ _ := hnumber a
  isNaN_right _ b _ := hnumber b
  lt_iff a b := by
    rw [hlt, hle, hle, decide_eq_true_iff, decide_eq_true_iff, decide_eq_false_iff_not,
      lt_iff_le_not_ge]

/-! ## The reals -/

open Reals

instance : OrderLaws ℝ := .of_linearOrder (fun _ => rfl) (fun _ _ => rfl) fun _ _ => rfl

instance : NormLaws ℝ ℝ where
  zero_le_zero := decide_eq_true (le_refl 0)
  zero_le_add a b h h' :=
    decide_eq_true (add_nonneg (of_decide_eq_true h) (of_decide_eq_true h'))
  zero_le_sqrt a _ := decide_eq_true (Real.sqrt_nonneg a)
  zero_le_normSq z _ := decide_eq_true (mul_self_nonneg z)
  normSq_sub_zero z w _ hw := by
    have : w = 0 := eq_of_beq hw
    rw [this, sub_zero]

instance : NormLaws (ComplexOver ℝ) ℝ where
  zero_le_zero := decide_eq_true (le_refl 0)
  zero_le_add := NormLaws.zero_le_add (T := ℝ)
  zero_le_sqrt := NormLaws.zero_le_sqrt (T := ℝ)
  zero_le_normSq z _ :=
    decide_eq_true (add_nonneg (mul_self_nonneg z.re) (mul_self_nonneg z.im))
  normSq_sub_zero z w _ hw := by
    have hzero : w.re = 0 ∧ w.im = 0 := by
      simpa [Scalar.isZero, RealLike.isZero] using hw
    have hsub : z - w = z := by
      refine ComplexOver.ext ?_ ?_
      · show z.re - w.re = z.re
        rw [hzero.1, sub_zero]
      · show z.im - w.im = z.im
        rw [hzero.2, sub_zero]
    rw [hsub]

instance : ZeroLaws ℝ ℝ where
  isZero_zero := beq_self_eq_true (0 : ℝ)
  isZero_of_modulus_le z h := by
    have hle : |z| ≤ |0| := of_decide_eq_true h
    rw [abs_zero, abs_nonpos_iff] at hle
    exact beq_iff_eq.2 hle

instance : ZeroLaws (ComplexOver ℝ) ℝ where
  isZero_zero := by
    show ((0 : ℝ) == 0 && (0 : ℝ) == 0) = true
    simp
  isZero_of_modulus_le z h := by
    have hle : Real.sqrt (z.re * z.re + z.im * z.im) ≤ Real.sqrt ((0 : ℝ) * 0 + 0 * 0) :=
      of_decide_eq_true h
    rw [mul_zero, add_zero, Real.sqrt_zero] at hle
    have hsum := Real.sqrt_eq_zero'.1 (hle.antisymm (Real.sqrt_nonneg _))
    have hre : z.re = 0 := by nlinarith [mul_self_nonneg z.im]
    have him : z.im = 0 := by nlinarith [mul_self_nonneg z.re]
    show (z.re == 0 && z.im == 0) = true
    simp [hre, him]

end CompressedSensing
