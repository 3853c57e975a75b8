import Mathlib
import CompressedSensing.Proofs.Operator.Sylvester
import CompressedSensing.Proofs.Operator.Unitary
import CompressedSensing.Proofs.Scalar.Normed
/-!
# The Walsh-Hadamard transform is an involution

The rows of signs are orthogonal: the product of the rows `i` and `j` is the row `i XOR j`, and a
row that has a bit set sums to zero, since one half of the entries is the negative of the other.
With the common factor `s` the matrix is therefore its own inverse as soon as `s² n = 1`, and
being its own adjoint it is unitary. Over the reals and the complex numbers the factor is like
that.
-/

namespace CompressedSensing

open Matrix
open scoped ExactScalar

namespace Basis

variable {T R : Type} [Scalar T R]

/-! ## Orthogonality of the signs -/

/-- The parity of the bits of `a ^^^ b` is the sum of the parities. -/
lemma oddParity_xor (l a b : ℕ) :
    oddParity l (a ^^^ b) = (oddParity l a ^^ oddParity l b) := by
  induction l with
  | zero => rfl
  | succ l ih =>
    rw [oddParity_succ, oddParity_succ, oddParity_succ, ih, Nat.testBit_xor]
    cases oddParity l a <;> cases oddParity l b <;> cases a.testBit l <;> cases b.testBit l <;> rfl

variable [ExactScalar T]

/-- The signs are characters. -/
lemma sign_xor (l a b : ℕ) : sign T l (a ^^^ b) = sign T l a * sign T l b := by
  rw [sign, sign, sign, oddParity_xor]
  cases oddParity l a <;> cases oddParity l b <;> simp

/-- The product of two rows is a row. -/
lemma sign_and_mul_sign_and (l i j k : ℕ) :
    sign T l (i &&& k) * sign T l (j &&& k) = sign T l ((i ^^^ j) &&& k) := by
  rw [Nat.and_xor_distrib_right, sign_xor]

omit [ExactScalar T] in
/-- The row of zero has no negative entry. -/
lemma sign_zero (l : ℕ) : sign T l 0 = 1 := by
  have hparity : oddParity l 0 = false := by
    induction l with
    | zero => rfl
    | succ l ih => rw [oddParity_succ, ih, Nat.zero_testBit]; rfl
  rw [sign, hparity]
  rfl

/-- The upper half of a row is the lower half, with the sign of the top bit. -/
lemma sum_sign_succ (l d : ℕ) :
    ∑ k ∈ Finset.range (2 ^ (l + 1)), sign T (l + 1) (d &&& k)
      = ∑ k ∈ Finset.range (2 ^ l), sign T l (d &&& k)
        + if d.testBit l then -∑ k ∈ Finset.range (2 ^ l), sign T l (d &&& k)
          else ∑ k ∈ Finset.range (2 ^ l), sign T l (d &&& k) := by
  rw [pow_succ, mul_two, Finset.sum_range_add]
  congr 1
  · refine Finset.sum_congr rfl fun k hk => ?_
    exact sign_and_lower d (Finset.mem_range.1 hk)
  · rw [Finset.sum_congr rfl fun k hk => sign_and_upper d (Finset.mem_range.1 hk)]
    split
    · rw [Finset.sum_neg_distrib]
    · rfl

/-- A row with a bit set sums to zero. -/
lemma sum_sign_eq_zero {l d t : ℕ} (ht : t < l) (hbit : d.testBit t = true) :
    ∑ k ∈ Finset.range (2 ^ l), sign T l (d &&& k) = 0 := by
  induction l with
  | zero => omega
  | succ l ih =>
    rw [sum_sign_succ]
    by_cases hl : d.testBit l
    · rw [if_pos hl, add_neg_cancel]
    · -- the bit is a lower one
      have hlt : t < l := by
        refine (Nat.lt_succ_iff.1 ht).lt_of_ne ?_
        rintro rfl
        exact hl hbit
      rw [if_neg hl, ih hlt, add_zero]

/-- Different rows are orthogonal, and each row has the squared norm `2 ^ m`. -/
lemma sum_sign_mul_sign {m : ℕ} (i j : Fin (2 ^ m)) :
    ∑ k : Fin (2 ^ m), sign T m (i &&& k) * sign T m (j &&& k)
      = if i = j then ((2 ^ m : ℕ) : T) else 0 := by
  have hrow : ∑ k : Fin (2 ^ m), sign T m (i &&& k) * sign T m (j &&& k)
      = ∑ k ∈ Finset.range (2 ^ m), sign T m ((i ^^^ j) &&& k) := by
    rw [Finset.sum_range]
    exact Finset.sum_congr rfl fun k _ => sign_and_mul_sign_and m i j k
  rw [hrow]
  by_cases hij : i = j
  · rw [if_pos hij, hij]
    simp [sign_zero]
  · rw [if_neg hij]
    have hne : i.val ^^^ j.val ≠ 0 := fun h => hij (Fin.ext (Nat.xor_eq_zero_iff.1 h))
    obtain ⟨t, ht⟩ := Nat.exists_testBit_of_ne_zero hne
    refine sum_sign_eq_zero ?_ ht
    by_contra hge
    have hlt := Nat.xor_lt_two_pow i.isLt j.isLt
    rw [Nat.testBit_lt_two_pow (hlt.trans_le (Nat.pow_le_pow_right two_pos (not_lt.1 hge)))] at ht
    cases ht

end Basis

namespace WalshHadamard

variable {T R W : Type} [Trigonometric W] [Precision R W] [Scalar T R]

/-- Scaled by a factor with `s² n = 1` the matrix of signs is its own inverse. -/
lemma signMatrix_mul_self [ExactScalar T] {m : ℕ}
    (hfactor : (factor (W := W) (2 ^ m) * factor (W := W) (2 ^ m) * (2 ^ m : ℕ) : T) = 1) :
    signMatrix (W := W) T (2 ^ m) * signMatrix (W := W) T (2 ^ m) = 1 := by
  ext i j
  have hterm (k : Fin (2 ^ m)) :
      signMatrix (W := W) T (2 ^ m) i k * signMatrix (W := W) T (2 ^ m) k j
        = factor (W := W) (2 ^ m) * factor (W := W) (2 ^ m)
          * (Basis.sign T m (i &&& k) * Basis.sign T m (j &&& k)) := by
    simp only [signMatrix, of_apply, Nat.log2_two_pow, Nat.land_comm k.val]
    ring
  rw [mul_apply, Finset.sum_congr rfl fun k _ => hterm k, ← Finset.mul_sum,
    Basis.sum_sign_mul_sign, one_apply]
  split
  · exact hfactor
  · rw [mul_zero]

open Reals in
/-- Over exact square roots the factor is `n^(-1/2)`. -/
lemma factor_mul_factor (T : Type) [Scalar T ℝ] [NormedScalar T] (m : ℕ) :
    (factor (W := ℝ) (2 ^ m) * factor (W := ℝ) (2 ^ m) * (2 ^ m : ℕ) : T) = 1 := by
  have hpos : (0 : ℝ) < (2 ^ m : ℕ) := Nat.cast_pos.2 (Nat.two_pow_pos m)
  have hsqrt : Real.sqrt (2 ^ m : ℕ) * Real.sqrt (2 ^ m : ℕ) = (2 ^ m : ℕ) :=
    Real.mul_self_sqrt hpos.le
  have hreal : 1 / Real.sqrt (2 ^ m : ℕ) * (1 / Real.sqrt (2 ^ m : ℕ)) * (2 ^ m : ℕ) = 1 := by
    rw [div_mul_div_comm, one_mul, hsqrt, one_div_mul_cancel hpos.ne']
  rw [← NormedScalar.ofReal_natCast, ← EuclideanScalar.ofReal_one, ← hreal,
    NormedScalar.ofReal_mul, NormedScalar.ofReal_mul]
  rfl

/-- The transform is its own inverse and keeps squared norms, for every power of two for which the
common factor `s` satisfies `s² n = 1`. The adjoint is the same map, so it is the inverse as well.
-/
theorem times_times_eq [RealLike R] [HermitianScalar T] {m : ℕ}
    (hfactor : (factor (W := W) (2 ^ m) * factor (W := W) (2 ^ m) * (2 ^ m : ℕ) : T) = 1) :
    ∃ t : WalshHadamard, ofSize? (2 ^ m) = .ok t ∧
      ∀ (x : Signal T) (hx : x.size = 2 ^ m) (y z : Vector T (2 ^ m)), ∃ v : Vector T (2 ^ m),
        (t.toOperator (W := W)).times x y = .ok v ∧
        (t.toOperator (W := W)).times v.toArray z = .ok ⟨x, hx⟩ ∧
        (t.toOperator (W := W)).trans v.toArray z = .ok ⟨x, hx⟩ ∧
        (Signal.normSq v.toArray : R) = Signal.normSq x := by
  let t : WalshHadamard := ⟨2 ^ m, isPowerOfTwo_two_pow m⟩
  have hmatrix : (t.toOperator (W := W) : Operator T).HasMatrix (signMatrix (W := W) T (2 ^ m)) :=
    t.hasMatrix
  have hunitary : (signMatrix (W := W) T (2 ^ m))ᴴ * signMatrix (W := W) T (2 ^ m) = 1 := by
    rw [signMatrix_conjTranspose, signMatrix_mul_self hfactor]
  refine ⟨t, dif_pos (isPowerOfTwo_two_pow m), fun x hx y z => ?_⟩
  obtain ⟨v, hv, hback⟩ := hmatrix.times_trans hunitary hx y z
  exact ⟨v, hv, hback, hback, hmatrix.normSq_times hunitary hx hv⟩

open Reals in
/-- Four complex entries, the squares of which sum to seventeen. -/
theorem times_times_eq_four :
    (factor (W := ℝ) (2 ^ 2) * factor (W := ℝ) (2 ^ 2) * (2 ^ 2 : ℕ) : ComplexOver ℝ) = 1 ∧
    ∃ (t : WalshHadamard) (v : Vector (ComplexOver ℝ) (2 ^ 2)), ofSize? (2 ^ 2) = .ok t ∧
      (t.toOperator (W := ℝ)).times #[⟨1, 2⟩, ⟨0, 1⟩, ⟨3, 0⟩, ⟨-1, 1⟩] (Vector.replicate (2 ^ 2) 1)
        = .ok v ∧
      (t.toOperator (W := ℝ)).times v.toArray (Vector.replicate (2 ^ 2) 0)
        = .ok #v[⟨1, 2⟩, ⟨0, 1⟩, ⟨3, 0⟩, ⟨-1, 1⟩] ∧
      (t.toOperator (W := ℝ)).trans v.toArray (Vector.replicate (2 ^ 2) 0)
        = .ok #v[⟨1, 2⟩, ⟨0, 1⟩, ⟨3, 0⟩, ⟨-1, 1⟩] ∧
      (Signal.normSq v.toArray : ℝ) = 17 := by
  have hfactor := factor_mul_factor (ComplexOver ℝ) 2
  obtain ⟨t, ht, hrun⟩ := times_times_eq (T := ComplexOver ℝ) hfactor
  obtain ⟨v, hv, htimes, htrans, hnorm⟩ := hrun #[⟨1, 2⟩, ⟨0, 1⟩, ⟨3, 0⟩, ⟨-1, 1⟩] rfl
    (Vector.replicate (2 ^ 2) 1) (Vector.replicate (2 ^ 2) 0)
  refine ⟨hfactor, t, v, ht, hv, htimes, htrans, hnorm.trans ?_⟩
  norm_num [Signal.normSq, Signal.sum, Scalar.normSq, ComplexOver.normSq]

end WalshHadamard
end CompressedSensing
