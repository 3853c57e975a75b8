import Mathlib
import CompressedSensing.Proofs.Operator.InPlaceButterfly
import CompressedSensing.Proofs.Scalar.Reals
/-!
# The transform and the basis

The Hadamard basis is made entry by entry from a count of bits: where `i AND j` has an odd number of
them, the entry is negative. The fast transform counts nothing. It runs through its levels, blocks
and pairs in place, and after the last level each entry is the sum of all entries with the signs of
that count. Scaled by the common factor this is the product with the matrix of the basis, which is
its own adjoint.
-/

namespace CompressedSensing

open Matrix
open scoped ExactScalar

variable {T R W : Type} [Trigonometric W] [Precision R W] [Scalar T R]

namespace Basis

/-! ## Counting bits -/

/-- The number of binary digits one. -/
def popcount (n : ℕ) : ℕ := n.bits.count true

lemma popcount_zero : popcount 0 = 0 := by
  rw [popcount, Nat.zero_bits, List.count_nil]

/-- A digit in front counts by itself. -/
lemma popcount_bit (b : Bool) (n : ℕ) : popcount (Nat.bit b n) = b.toNat + popcount n := by
  by_cases hzero : n = 0 ∧ b = false
  · obtain ⟨rfl, rfl⟩ := hzero
    simp [popcount]
  · rw [popcount, Nat.bits_append_bit _ _ fun hn => by simpa [hn] using hzero, List.count_cons,
      ← popcount, add_comm]
    cases b <;> rfl

/-- Any number of digits that is enough gives the parity of the count. -/
lemma oddParity_eq {l n : ℕ} (h : n < 2 ^ l) : oddParity l n = decide (Odd (popcount n)) := by
  induction l generalizing n with
  | zero =>
    obtain rfl : n = 0 := by omega
    rw [popcount_zero]
    rfl
  | succ l ih =>
    cases n using Nat.bitCasesOn with
    | bit b n =>
      have hn : n < 2 ^ l := by
        rw [pow_succ, Nat.bit_val] at h
        omega
      rw [oddParity, Nat.bit_div_two, ih hn, popcount_bit, Nat.bit_mod_two]
      cases b with
      | false => simp
      | true =>
        rw [Bool.toNat_true, add_comm 1]
        simp [Nat.odd_add_one, -Nat.not_odd_iff_even]

/-- The sign is the power of `-1` by the count. -/
lemma sign_eq_pow [ExactScalar T] {l n : ℕ} (h : n < 2 ^ l) :
    sign T l n = (-1) ^ popcount n := by
  rw [sign, oddParity_eq h]
  by_cases hodd : Odd (popcount n)
  · rw [if_pos (decide_eq_true hodd), hodd.neg_one_pow]
  · rw [if_neg (by simpa using hodd), (Nat.not_odd_iff_even.1 hodd).neg_one_pow]

/-- The matrix is made of one factor and of signs, if constants are negated exactly. -/
lemma entry_hadamardMatrix [ExactScalar T]
    (hneg : ∀ w : W, (Scalar.ofWide (-w) : T) = -Scalar.ofWide w) {m : ℕ} (i j : Fin (2 ^ m)) :
    (hadamardMatrix (W := W) (2 ^ m) : DenseMatrix T (2 ^ m) (2 ^ m)).entry i j
      = WalshHadamard.factor (W := W) (2 ^ m) * (-1) ^ popcount (i.val &&& j.val) := by
  have hlt : i.val &&& j.val < 2 ^ ((2 ^ m).log2 + 1) := by
    rw [Nat.log2_two_pow, pow_succ]
    have := Nat.and_lt_two_pow i.val j.isLt
    omega
  have hsign := sign_eq_pow (T := T) hlt
  unfold sign at hsign
  unfold hadamardMatrix
  dsimp only
  rw [DenseMatrix.entry_ofFn, ← hsign, hneg]
  split
  · rw [mul_neg, mul_one]
    rfl
  · rw [mul_one]
    rfl

end Basis

namespace WalshHadamard

variable [ExactScalar T]

/-- Entry `i` of the product with the signs `(-1)^popcount(i AND j)`. -/
def signedSum {n : ℕ} (x : Fin n → T) (i : Fin n) : T :=
  ∑ j, (-1) ^ Basis.popcount (i.val &&& j.val) * x j

lemma isPowerOfTwo_two_pow (m : ℕ) : isPowerOfTwo (2 ^ m) = true := by
  simp [isPowerOfTwo, Nat.log2_two_pow]

omit [Trigonometric W] [Precision R W] in
/-- The levels in place leave the signed sums. -/
lemma inPlace_two_pow {m : ℕ} (v : Vector T (2 ^ m)) :
    inPlace (2 ^ m) v = .ok (Vector.ofFn fun i => signedSum (fun j => v[j]) i) := by
  rw [inPlace_eq ⟨2 ^ m, isPowerOfTwo_two_pow m⟩ le_rfl]
  refine congrArg Except.ok (Vector.ext fun i hi => ?_)
  rw [getElem_butterfly v hi, Vector.getElem_ofFn, signedSum]
  refine Finset.sum_congr rfl fun j _ => ?_
  rw [Basis.sign_eq_pow (Nat.and_lt_two_pow i j.isLt)]

/-- The transform scales the signed sums. -/
lemma run_two_pow {m : ℕ} {x : Signal T} (hx : x.size = 2 ^ m) (y : Vector T (2 ^ m)) :
    run (W := W) ⟨2 ^ m, isPowerOfTwo_two_pow m⟩ x y
      = .ok (Vector.ofFn fun i => factor (W := W) (2 ^ m)
          * signedSum (Signal.coords (2 ^ m) x) i) := by
  rw [run_eq_inPlace, Operator.copyInto_eq x y hx, Except.ok_bind, inPlace_two_pow, Except.ok_bind]
  refine congrArg Except.ok (Vector.ext fun i hi => ?_)
  simp [signedSum, mul_comm]

/-- The product with the matrix of the basis is the same. -/
lemma hadamardMatrix_mulVec (hneg : ∀ w : W, (Scalar.ofWide (-w) : T) = -Scalar.ofWide w) {m : ℕ}
    (x : Fin (2 ^ m) → T) :
    of (Basis.hadamardMatrix (W := W) (2 ^ m) : DenseMatrix T (2 ^ m) (2 ^ m)).entry *ᵥ x
      = fun i => factor (W := W) (2 ^ m) * signedSum x i := by
  funext i
  rw [mulVec, dotProduct, signedSum, Finset.mul_sum]
  refine Finset.sum_congr rfl fun j _ => ?_
  rw [of_apply, Basis.entry_hadamardMatrix hneg, mul_assoc]

/-- The matrix of the basis is its own adjoint. -/
lemma hadamardMatrix_conjTranspose (hneg : ∀ w : W, (Scalar.ofWide (-w) : T) = -Scalar.ofWide w)
    (m : ℕ) :
    (of (Basis.hadamardMatrix (W := W) (2 ^ m) : DenseMatrix T (2 ^ m) (2 ^ m)).entry)ᴴ
      = of (Basis.hadamardMatrix (W := W) (2 ^ m) : DenseMatrix T (2 ^ m) (2 ^ m)).entry := by
  ext i j
  rw [conjTranspose_apply, of_apply, of_apply, Basis.entry_hadamardMatrix hneg,
    Basis.entry_hadamardMatrix hneg, Nat.land_comm, star_mul', star_pow, star_neg, star_one]
  congr 1
  exact conj_ofWide _

/-- For every power of two there are a fast transform and a basis. The levels in place leave the
sums with the signs `(-1)^popcount(i AND j)`, and the transform and its adjoint scale these by one
factor. If constants are negated exactly, the entries of the basis are that factor with these signs,
and products with it are the same answers. -/
theorem transform_eq_hadamard (T : Type) {R W : Type} [Trigonometric W] [Precision R W] [Scalar T R]
    [ExactScalar T] (m : ℕ) :
    ∃ (t : WalshHadamard) (H : DenseMatrix T (2 ^ m) (2 ^ m)),
      ofSize? (2 ^ m) = .ok t ∧ t.size = 2 ^ m ∧ Basis.hadamard? (W := W) (2 ^ m) = .ok H ∧
      (∀ v : Vector T (2 ^ m),
        inPlace t.size v = .ok (Vector.ofFn fun i => signedSum (fun j => v[j]) i)) ∧
      (∀ (x : Signal T) (y : Vector T (2 ^ m)), x.size = 2 ^ m →
        (t.toOperator (W := W)).times x y = .ok (Vector.ofFn fun i => factor (W := W) (2 ^ m)
          * signedSum (Signal.coords (2 ^ m) x) i) ∧
        (t.toOperator (W := W)).trans x y = .ok (Vector.ofFn fun i => factor (W := W) (2 ^ m)
          * signedSum (Signal.coords (2 ^ m) x) i)) ∧
      ((∀ w : W, (Scalar.ofWide (-w) : T) = -Scalar.ofWide w) →
        (∀ i j, H.entry i j
          = factor (W := W) (2 ^ m) * (-1) ^ Basis.popcount (i.val &&& j.val)) ∧
        ∀ (x : Signal T) (y : Vector T (2 ^ m)), x.size = 2 ^ m →
          (t.toOperator (W := W)).times x y = (Operator.dense H).times x y ∧
          (t.toOperator (W := W)).trans x y = (Operator.dense H).trans x y) := by
  refine ⟨⟨2 ^ m, isPowerOfTwo_two_pow m⟩, Basis.hadamardMatrix (W := W) (2 ^ m),
    dif_pos (isPowerOfTwo_two_pow m), rfl, if_pos (isPowerOfTwo_two_pow m), inPlace_two_pow,
    fun x y hx => ⟨run_two_pow hx y, run_two_pow hx y⟩,
    fun hneg => ⟨Basis.entry_hadamardMatrix hneg, fun x y hx => ?_⟩⟩
  have hdense := Operator.hasMatrix_dense
    (Basis.hadamardMatrix (W := W) (2 ^ m) : DenseMatrix T (2 ^ m) (2 ^ m))
  rw [hdense.times_eq x y hx, hdense.trans_eq x y hx, hadamardMatrix_conjTranspose hneg,
    hadamardMatrix_mulVec hneg]
  exact ⟨run_two_pow hx y, run_two_pow hx y⟩

omit [Trigonometric W] [Precision R W] in
/-- The signs of four entries. -/
lemma signedSum_four (x : Fin (2 ^ 2) → T) :
    signedSum x = ![x 0 + x 1 + x 2 + x 3, x 0 - x 1 + x 2 - x 3, x 0 + x 1 - x 2 - x 3,
      x 0 - x 1 - x 2 + x 3] := by
  have hone : Basis.popcount 1 = 1 := by decide
  have htwo : Basis.popcount 2 = 1 := by decide
  have hthree : Basis.popcount 3 = 2 := by decide
  funext i
  show ∑ j : Fin 4, (-1) ^ Basis.popcount (i.val &&& j.val) * x j = _
  rw [Fin.sum_univ_four]
  fin_cases i
  · simp [Basis.popcount_zero]
  · simp [Basis.popcount_zero, hone]
    ring
  · simp [Basis.popcount_zero, htwo]
    ring
  · simp [Basis.popcount_zero, hone, htwo, hthree]
    ring

open Reals

/-- The transform of four entries. The indices 3 and 1 share one bit, so their entry of the basis is
negative. -/
theorem transform_eq_hadamard_four :
    (∀ w : ℝ, (Scalar.ofWide (-w) : ℝ) = -Scalar.ofWide w) ∧
      ∃ (t : WalshHadamard) (H : DenseMatrix ℝ (2 ^ 2) (2 ^ 2)),
        ofSize? (2 ^ 2) = .ok t ∧ Basis.hadamard? (W := ℝ) (2 ^ 2) = .ok H ∧
        t.toOperator.times #[1, 2, 3, 4] (Vector.replicate (2 ^ 2) (0 : ℝ))
          = .ok (Vector.ofFn fun i => factor (2 ^ 2) * ![10, -2, -4, 0] i) ∧
        t.toOperator.times #[1, 2, 3, 4] (Vector.replicate (2 ^ 2) (0 : ℝ))
          = (Operator.dense H).times #[1, 2, 3, 4] (Vector.replicate (2 ^ 2) 0) ∧
        H.entry 3 1 = -factor (2 ^ 2) := by
  have hneg (w : ℝ) : (Scalar.ofWide (-w) : ℝ) = -Scalar.ofWide w := rfl
  obtain ⟨t, H, ht, -, hH, -, hrun, hbasis⟩ := transform_eq_hadamard ℝ (W := ℝ) 2
  obtain ⟨hentry, hproducts⟩ := hbasis hneg
  refine ⟨hneg, t, H, ht, hH, ?_, (hproducts _ _ rfl).1, ?_⟩
  · rw [(hrun #[1, 2, 3, 4] (Vector.replicate (2 ^ 2) (0 : ℝ)) rfl).1]
    rw [signedSum_four]
    have hsums : (![1 + 2 + 3 + 4, 1 - 2 + 3 - 4, 1 + 2 - 3 - 4, 1 - 2 - 3 + 4] : Fin 4 → ℝ)
        = ![10, -2, -4, 0] := by
      norm_num
    rw [← hsums]
    rfl
  · have hodd : Basis.popcount (3 &&& 1) = 1 := by decide
    rw [hentry]
    show _ * (-1) ^ Basis.popcount (3 &&& 1) = _
    rw [hodd, pow_one, mul_neg_one]

end WalshHadamard
end CompressedSensing
