import Mathlib
import CompressedSensing.Proofs.Operator.TransformMatrix
import CompressedSensing.Proofs.Operator.Unitary
import CompressedSensing.Proofs.Scalar.Normed
/-!
# The cosine transform is orthonormal

With exact cosines and square roots the rows of the cosine transform are orthonormal. The table is
looked up at `(2j + 1) k mod 4n` and holds what the formula asks for, because the angle `π a / 2n`
has the period `4n` in `a`. A product of two rows is half the sum of the cosines of the difference
and of the sum of the frequencies, and for a frequency `d` that is not a multiple of `2n` the sum

  `Σ_j cos ((2j + 1) π d / 2n)`

telescopes to zero after a multiplication by `2 sin (π d / 2n)`. What is left is the frequency zero,
which comes up once in the row `k > 0` and twice in the row `k = 0`; hence the two factors.
-/

namespace CompressedSensing
namespace CosineTransform

open Matrix Reals
open scoped ExactScalar

/-! ## The table -/

variable {n : ℕ}

/-- The angle `π d / 2n`. -/
noncomputable def angle (n : ℕ) (d : ℤ) : ℝ := Real.pi * d / (2 * n : ℕ)

lemma angle_eq (n : ℕ) (d : ℤ) : angle n d = Real.pi * d / (2 * n) := by
  rw [angle, Nat.cast_mul, Nat.cast_ofNat]

lemma angle_add (n : ℕ) (c d : ℤ) : angle n (c + d) = angle n c + angle n d := by
  rw [angle, angle, angle, Int.cast_add]
  ring

lemma angle_sub (n : ℕ) (c d : ℤ) : angle n (c - d) = angle n c - angle n d := by
  rw [angle, angle, angle, Int.cast_sub]
  ring

lemma angle_mul (n : ℕ) (c d : ℤ) : angle n (c * d) = c * angle n d := by
  rw [angle, angle, Int.cast_mul]
  ring

lemma angle_zero (n : ℕ) : angle n 0 = 0 := by simp [angle]

/-- `4n` steps are a full turn. -/
lemma cos_angle_mod (hn : 0 < n) (a : ℕ) :
    Real.cos (angle n (a % (4 * n) : ℕ)) = Real.cos (angle n a) := by
  have hturn : angle n a = angle n (a % (4 * n) : ℕ) + (a / (4 * n) : ℕ) * (2 * Real.pi) := by
    have hsplit : (a : ℝ) = (a % (4 * n) : ℕ) + 4 * n * (a / (4 * n) : ℕ) := by
      exact_mod_cast (Nat.mod_add_div a (4 * n)).symm
    simp only [angle_eq, Int.cast_natCast]
    rw [hsplit]
    field_simp
    ring
  rw [hturn, Real.cos_add_nat_mul_two_pi]

/-- The lookup gives the cosine of the angle before the reduction. -/
lemma getElem?_table (hn : 0 < n) (a : ℕ) :
    (ofSize n : CosineTransform ℝ).table[a % (4 * n)]? = some (Real.cos (angle n a)) := by
  have hlt : a % (4 * n) < 4 * n := Nat.mod_lt a (by omega)
  have hentry : (ofSize n : CosineTransform ℝ).table[a % (4 * n)]?
      = some (Real.cos (Real.pi * (a % (4 * n) : ℕ) / (2 * n : ℕ))) := by
    show (Array.ofFn _)[a % (4 * n)]? = _
    rw [Array.getElem?_eq_getElem (by simpa using hlt), Array.getElem_ofFn]
    rfl
  rw [hentry, ← cos_angle_mod hn, angle, Int.cast_natCast]

/-- The factor `c_k` of row `k`. -/
noncomputable def weight (n k : ℕ) : ℝ :=
  if k = 0 then Real.sqrt (1 / n) else Real.sqrt ((2 : ℕ) / n)

/-- A coefficient of the table is the weighted cosine `cos (π (2 j + 1) k / (2 n))`. -/
lemma coefficient_eq (hn : 0 < n) (k j : ℕ) :
    (ofSize n : CosineTransform ℝ).coefficient hn k j
      = weight n k * Real.cos (angle n ((2 * j + 1) * k)) := by
  have hlt : (2 * j + 1) * k % (4 * n) < (ofSize n : CosineTransform ℝ).table.size :=
    (ofSize n).lookup_lt hn k j
  have hlookup : (ofSize n : CosineTransform ℝ).table[(2 * j + 1) * k % (4 * n)]
      = Real.cos (angle n ((2 * j + 1) * k)) := by
    apply Option.some.inj
    rw [← Array.getElem?_eq_getElem hlt, getElem?_table hn]
    push_cast
    rfl
  rw [← hlookup]
  rfl

/-! ## Sums of cosines -/

/-- The sum over the odd multiples of an angle telescopes. -/
lemma two_mul_sin_mul_sum_cos (θ : ℝ) (n : ℕ) :
    2 * Real.sin θ * ∑ j ∈ Finset.range n, Real.cos ((2 * j + 1) * θ) = Real.sin (2 * n * θ) := by
  induction n with
  | zero => simp
  | succ n ih =>
    have hnext : 2 * Real.sin θ * Real.cos ((2 * n + 1) * θ)
        = Real.sin (2 * (n + 1) * θ) - Real.sin (2 * n * θ) := by
      rw [Real.sin_sub_sin]
      ring_nf
    rw [Finset.sum_range_succ, mul_add, ih, hnext, Nat.cast_succ]
    ring

/-- A frequency that is not a multiple of `2n` sums to zero. -/
lemma sum_cos_eq_zero {d : ℤ} (hne : d ≠ 0) (hlt : |d| < 2 * n) :
    ∑ j ∈ Finset.range n, Real.cos (angle n ((2 * j + 1) * d)) = 0 := by
  have hpos : (0 : ℝ) < 2 * n := by
    have := (abs_nonneg d).trans_lt hlt
    exact_mod_cast this
  have hd : |(d : ℝ)| < 2 * n := by exact_mod_cast hlt
  obtain ⟨hlow, hhigh⟩ := abs_lt.1 hd
  -- the half angle is between `-π` and `π`, and not zero
  have hsin : Real.sin (angle n d) ≠ 0 := by
    rw [Ne, Real.sin_eq_zero_iff_of_lt_of_lt, angle_eq, div_eq_zero_iff, mul_eq_zero]
    · have := Int.cast_ne_zero (α := ℝ).2 hne
      simp [Real.pi_ne_zero, this, hpos.ne']
    · rw [angle_eq, lt_div_iff₀ hpos]
      nlinarith [Real.pi_pos]
    · rw [angle_eq, div_lt_iff₀ hpos]
      nlinarith [Real.pi_pos]
  have hend : 2 * n * angle n d = d * Real.pi := by
    rw [angle_eq, mul_div_cancel₀ _ hpos.ne', mul_comm]
  have hsum := two_mul_sin_mul_sum_cos (angle n d) n
  rw [hend, Real.sin_int_mul_pi] at hsum
  have hzero := (mul_eq_zero.1 hsum).resolve_left (mul_ne_zero two_ne_zero hsin)
  rw [← hzero]
  refine Finset.sum_congr rfl fun j _ => ?_
  rw [angle_mul]
  push_cast
  rfl

/-- The cosines of frequency zero sum to `n`. -/
lemma sum_cos_zero (n : ℕ) :
    ∑ j ∈ Finset.range n, Real.cos (angle n ((2 * j + 1) * 0)) = n := by
  simp [angle_zero]

/-- The product of the rows `k` and `l` of cosines. -/
noncomputable def rowProduct (n k l : ℕ) : ℝ :=
  ∑ j ∈ Finset.range n,
    Real.cos (angle n ((2 * j + 1) * k)) * Real.cos (angle n ((2 * j + 1) * l))

/-- Products become sums of the difference and of the sum of the frequencies. -/
lemma two_mul_rowProduct (n k l : ℕ) :
    2 * rowProduct n k l
      = ∑ j ∈ Finset.range n, Real.cos (angle n ((2 * j + 1) * (k - l)))
        + ∑ j ∈ Finset.range n, Real.cos (angle n ((2 * j + 1) * (k + l))) := by
  rw [rowProduct, Finset.mul_sum, ← Finset.sum_add_distrib]
  refine Finset.sum_congr rfl fun j _ => ?_
  rw [mul_sub, mul_add, angle_sub, angle_add, Real.cos_sub, Real.cos_add]
  ring

/-- Different frequencies are orthogonal. -/
lemma rowProduct_eq_zero {k l : ℕ} (hk : k < n) (hl : l < n) (hne : k ≠ l) :
    rowProduct n k l = 0 := by
  have hproduct := two_mul_rowProduct n k l
  rw [sum_cos_eq_zero (by omega) (abs_lt.2 ⟨by omega, by omega⟩),
    sum_cos_eq_zero (by omega) (abs_lt.2 ⟨by omega, by omega⟩), add_zero] at hproduct
  exact (mul_eq_zero.1 hproduct).resolve_left two_ne_zero

/-- The row of frequency zero is constant, and any other one has half of its squared norm. -/
lemma rowProduct_self {k : ℕ} (hk : k < n) :
    rowProduct n k k = if k = 0 then (n : ℝ) else n / 2 := by
  have hproduct := two_mul_rowProduct n k k
  rw [sub_self, sum_cos_zero] at hproduct
  by_cases hzero : k = 0
  · rw [hzero, Nat.cast_zero, add_zero, sum_cos_zero] at hproduct
    rw [if_pos hzero, hzero]
    linarith
  · rw [sum_cos_eq_zero (by omega) (abs_lt.2 ⟨by omega, by omega⟩)] at hproduct
    rw [if_neg hzero]
    linarith

/-! ## Orthonormal rows -/

/-- The factors make up for the squared norms of the rows. -/
lemma weight_mul_weight_mul_rowProduct {k : ℕ} (hk : k < n) :
    weight n k * weight n k * rowProduct n k k = 1 := by
  have hn : (n : ℝ) ≠ 0 := Nat.cast_ne_zero.2 (Nat.ne_zero_of_lt hk)
  rw [rowProduct_self hk, weight]
  split
  · rw [Real.mul_self_sqrt (by positivity), one_div_mul_cancel hn]
  · rw [Real.mul_self_sqrt (by positivity), div_mul_div_cancel₀ hn, Nat.cast_ofNat,
      div_self two_ne_zero]

/-- The rows of the coefficients are orthonormal. -/
lemma sum_coefficient_mul_coefficient (k l : Fin n) :
    ∑ j : Fin n, (ofSize n : CosineTransform ℝ).coefficient k.pos k j
        * (ofSize n : CosineTransform ℝ).coefficient l.pos l j
      = if k = l then 1 else 0 := by
  have hn : 0 < n := Nat.zero_lt_of_lt k.isLt
  have hrows : ∑ j : Fin n, (ofSize n : CosineTransform ℝ).coefficient k.pos k j
        * (ofSize n : CosineTransform ℝ).coefficient l.pos l j
      = weight n k * weight n l * rowProduct n k l := by
    rw [rowProduct, Finset.sum_range, Finset.mul_sum]
    refine Finset.sum_congr rfl fun j _ => ?_
    rw [coefficient_eq hn, coefficient_eq hn]
    ring
  rw [hrows]
  split
  · rename_i hkl
    rw [hkl, weight_mul_weight_mul_rowProduct l.isLt]
  · rename_i hkl
    rw [rowProduct_eq_zero k.isLt l.isLt fun h => hkl (Fin.ext h), mul_zero]

variable {T : Type} [Scalar T ℝ] [NormedScalar T]

/-- The matrix of the coefficients, each as an entry. -/
noncomputable def matrix (T : Type) [Scalar T ℝ] (n : ℕ) : Matrix (Fin n) (Fin n) T :=
  of fun k j => Scalar.ofReal ((ofSize n : CosineTransform ℝ).coefficient k.pos k j)

/-- The cosine transform has the matrix of weighted cosines. -/
lemma hasMatrix_ofSize (n : ℕ) :
    ((ofSize n : CosineTransform ℝ).toOperator : Operator T).HasMatrix (matrix T n) :=
  (ofSize n : CosineTransform ℝ).hasMatrix

/-- The rows of the cosine matrix are orthonormal. -/
lemma matrix_mul_conjTranspose (n : ℕ) : matrix T n * (matrix T n)ᴴ = 1 := by
  ext k l
  have hterm (j : Fin n) : matrix T n k j * (matrix T n)ᴴ j l
      = Scalar.ofReal ((ofSize n : CosineTransform ℝ).coefficient k.pos k j
        * (ofSize n : CosineTransform ℝ).coefficient l.pos l j) := by
    rw [conjTranspose_apply, matrix, of_apply, of_apply, ExactScalar.star_ofReal,
      NormedScalar.ofReal_mul]
  rw [mul_apply, Finset.sum_congr rfl fun j _ => hterm j, ← NormedScalar.ofReal_finsetSum,
    sum_coefficient_mul_coefficient, one_apply, apply_ite (Scalar.ofReal (T := T)),
    EuclideanScalar.ofReal_one, NormedScalar.ofReal_zero]

/-- Over exact real or complex entries, with exact cosines and square roots, each map of the cosine
transform undoes the other one; and for every `j` and `k` the table holds `cos (π (2j + 1) k / 2n)`
at the index `(2j + 1) k mod 4n`. -/
theorem times_trans_eq (T : Type) [Scalar T ℝ] [NormedScalar T] {n : ℕ} (hn : 0 < n) :
    let t : CosineTransform ℝ := ofSize n
    (∀ (x : Signal T) (hx : x.size = n) (y z : Vector T n), ∃ v : Vector T n,
      t.toOperator.times x y = .ok v ∧ t.toOperator.trans v.toArray z = .ok ⟨x, hx⟩) ∧
    (∀ (y : Signal T) (hy : y.size = n) (x z : Vector T n), ∃ v : Vector T n,
      t.toOperator.trans y x = .ok v ∧ t.toOperator.times v.toArray z = .ok ⟨y, hy⟩) ∧
    t.table.size = 4 * n ∧
    ∀ j k : ℕ, t.table[(2 * j + 1) * k % (4 * n)]?
      = some (Real.cos (Real.pi * ((2 * j + 1) * k) / (2 * n))) := by
  intro t
  have hmatrix : (t.toOperator : Operator T).HasMatrix (matrix T n) := hasMatrix_ofSize n
  have hrows : matrix T n * (matrix T n)ᴴ = 1 := matrix_mul_conjTranspose n
  refine ⟨fun x hx y z => hmatrix.times_trans (mul_eq_one_comm.1 hrows) hx y z,
    fun y hy x z => hmatrix.trans_times hrows hy x z, Array.size_ofFn, fun j k => ?_⟩
  rw [getElem?_table hn, angle_eq]
  push_cast
  rfl

/-- Three complex entries; the table of twelve cosines is looked up at `25 mod 12`. -/
theorem times_trans_eq_three :
    0 < 3 ∧
    let t : CosineTransform ℝ := ofSize 3
    (∃ v : Vector (ComplexOver ℝ) 3,
      t.toOperator.times #[⟨1, 2⟩, ⟨0, 1⟩, ⟨3, 0⟩] (Vector.replicate 3 1) = .ok v ∧
      t.toOperator.trans v.toArray (Vector.replicate 3 0) = .ok #v[⟨1, 2⟩, ⟨0, 1⟩, ⟨3, 0⟩]) ∧
    (∃ v : Vector (ComplexOver ℝ) 3,
      t.toOperator.trans #[⟨1, 2⟩, ⟨0, 1⟩, ⟨3, 0⟩] (Vector.replicate 3 1) = .ok v ∧
      t.toOperator.times v.toArray (Vector.replicate 3 0) = .ok #v[⟨1, 2⟩, ⟨0, 1⟩, ⟨3, 0⟩]) ∧
    t.table[1]? = some (Real.cos (Real.pi * ((2 * (2 : ℕ) + 1) * (5 : ℕ)) / (2 * (3 : ℕ)))) := by
  obtain ⟨htimes, htrans, -, htable⟩ := times_trans_eq (ComplexOver ℝ) (n := 3) (by decide)
  exact ⟨by decide, htimes #[⟨1, 2⟩, ⟨0, 1⟩, ⟨3, 0⟩] rfl _ _,
    htrans #[⟨1, 2⟩, ⟨0, 1⟩, ⟨3, 0⟩] rfl _ _, htable 2 5⟩

end CosineTransform
end CompressedSensing
