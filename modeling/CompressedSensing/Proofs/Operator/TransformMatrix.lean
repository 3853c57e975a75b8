import Mathlib
import CompressedSensing.Operator.Transform.Convolution
import CompressedSensing.Operator.Transform.Cosine
import CompressedSensing.Proofs.Operator.ButterflySum
import CompressedSensing.Proofs.Operator.MatrixForm
/-!
# Matrices of the transforms

The Walsh-Hadamard transform has a symmetric matrix of signs, the cosine transform the matrix of
its coefficients, and a circular convolution the matrix that gathers each entry of the kernel
along a shifted diagonal. For the convolution the point is that the adjoint's index `(j + l) mod n`
inverts the index `(i - l) mod n`.
-/

namespace CompressedSensing

open Matrix
open scoped ExactScalar

variable {T R W : Type} [Trigonometric W] [Precision R W] [Scalar T R] [ExactScalar T]

omit [Trigonometric W] in
/-- Wide reals are their own conjugates. -/
@[simp] lemma conj_ofWide (w : W) : Scalar.conj (Scalar.ofWide w : T) = Scalar.ofWide w :=
  ExactScalar.conj_ofReal _

namespace WalshHadamard

/-- The size of a transform is a power of two. -/
lemma size_eq (t : WalshHadamard) : t.size = 2 ^ t.size.log2 := by
  have h := t.powerOfTwo
  simp only [isPowerOfTwo, Bool.and_eq_true, beq_iff_eq] at h
  exact h.2.symm

/-- The matrix of signs, scaled. -/
def signMatrix (T : Type) {R W : Type} [Trigonometric W] [Precision R W] [Scalar T R] (n : ℕ) :
    Matrix (Fin n) (Fin n) T :=
  of fun i j => Basis.sign T n.log2 (i &&& j) * factor (W := W) n

/-- The matrix of signs is its own conjugate transpose. -/
lemma signMatrix_conjTranspose (n : ℕ) :
    (signMatrix (W := W) T n)ᴴ = signMatrix (W := W) T n := by
  ext i j
  rw [conjTranspose_apply, signMatrix, of_apply, of_apply, Nat.land_comm]
  exact (ExactScalar.conj_mul _ _).trans (congrArg₂ _ (Basis.conj_sign _ _) (conj_ofWide _))

/-- A run is the product with the matrix of signs. -/
lemma run_eq (t : WalshHadamard) (x : Signal T) (y : Vector T t.size) (hx : x.size = t.size) :
    t.run (W := W) x y
      = .ok (Vector.ofFn (signMatrix (W := W) T t.size *ᵥ Signal.coords t.size x)) := by
  obtain ⟨n, hn⟩ := t
  obtain ⟨m, rfl⟩ : ∃ m, n = 2 ^ m := ⟨_, size_eq ⟨n, hn⟩⟩
  show (copyInto x y >>= fun y => if 1 < 2 ^ m ∧ 2 ^ m < 2 ^ m then throw .misuse
    else pure ((butterfly (2 ^ m) y).map (· * factor (W := W) (2 ^ m)))) = _
  rw [Operator.copyInto_eq x y hx]
  show ite _ _ _ = _
  rw [if_neg (by omega)]
  refine congrArg _ (Vector.ext fun i hi => ?_)
  rw [Vector.getElem_map, getElem_butterfly _ hi, Vector.getElem_ofFn, mulVec, dotProduct,
    Finset.sum_mul]
  refine Finset.sum_congr rfl fun j _ => ?_
  simp only [signMatrix, of_apply, Nat.log2_two_pow, Fin.getElem_fin, Vector.getElem_ofFn]
  ring

lemma hasMatrix (t : WalshHadamard) :
    (t.toOperator (W := W) : Operator T).HasMatrix (signMatrix (W := W) T t.size) where
  rows_eq := rfl
  cols_eq := rfl
  times_eq x y hx := t.run_eq x y hx
  trans_eq y x hy := by
    rw [signMatrix_conjTranspose]
    exact t.run_eq y x hy

end WalshHadamard

namespace CosineTransform

/-- The matrix of the coefficients. -/
def coefficients (T : Type) {R : Type} [Precision R W] [Scalar T R] (t : CosineTransform W) :
    Matrix (Fin t.size) (Fin t.size) T :=
  of fun k j => Scalar.ofWide (t.coefficient k.pos k j)

omit [Trigonometric W] in
/-- The sums for a vector of `n` entries are a product with a matrix. -/
lemma combine_eq {n : ℕ} (f : 0 < n → ℕ → ℕ → T) (x : Signal T) (hx : x.size = n) :
    combine n f x
      = .ok (Vector.ofFn ((of fun i j : Fin n => f i.pos i j) *ᵥ Signal.coords n x)) := by
  rw [combine]
  split
  · refine congrArg _ (congrArg _ (funext fun i => ?_))
    rw [Signal.mapIdx_eq_ofFn _ x hx, Signal.sum_ofFn]
    exact Finset.sum_congr rfl fun j _ => mul_comm _ _
  · -- there is no entry to sum for
    rename_i hn
    rw [if_neg fun h => hn h.1]
    exact congrArg _ (Vector.ext fun i hi => absurd (Nat.zero_lt_of_lt hi) hn)

lemma coefficients_conjTranspose (t : CosineTransform W) :
    (t.coefficients T)ᴴ
      = of fun j k : Fin t.size => (Scalar.ofWide (t.coefficient k.pos k j) : T) := by
  ext j k
  exact conj_ofWide _

lemma hasMatrix (t : CosineTransform W) :
    (t.toOperator : Operator T).HasMatrix (t.coefficients T) where
  rows_eq := rfl
  cols_eq := rfl
  times_eq x _ hx := combine_eq (fun h k j => Scalar.ofWide (t.coefficient h k j)) x hx
  trans_eq y _ hy := by
    rw [coefficients_conjTranspose]
    exact combine_eq (fun h j k => Scalar.ofWide (t.coefficient h k j)) y hy

end CosineTransform

namespace CircularConvolution

/-- Shifting `i` back by `l` gives `j` just if shifting `j` by `l` gives `i`, both modulo `n`. -/
lemma mod_eq_iff {n l i j : ℕ} (hl : l ≤ n) (hi : i < n) (hj : j < n) :
    (i + n - l) % n = j ↔ (j + l) % n = i := by
  have hsub : (i + n - l) % n = if l ≤ i then i - l else i + n - l := by
    split
    · rw [show i + n - l = i - l + n by omega, Nat.add_mod_right, Nat.mod_eq_of_lt (by omega)]
    · exact Nat.mod_eq_of_lt (by omega)
  have hadd : (j + l) % n = if j + l < n then j + l else j + l - n := by
    split
    · exact Nat.mod_eq_of_lt ‹_›
    · rw [Nat.mod_eq_sub_mod (by omega), Nat.mod_eq_of_lt (by omega)]
  rw [hsub, hadd]
  split <;> split <;> omega

/-- The sum of the kernel's entries over the shifts that take `j` to `i`. -/
def shiftMatrix (c : CircularConvolution T) : Matrix (Fin c.length) (Fin c.length) T :=
  of fun i j => ∑ l : Fin c.kernel.size,
    if (i.val + c.length - l.val) % c.length = j then
      Signal.coords c.kernel.size c.kernel l else 0

/-- A sum over the kernel, each entry taken with the entry of `x` at `index i l`, is the product
with the matrix of these indices. -/
lemma combine_eq (kernel x : Signal T) (w : T → T) (index : ℕ → ℕ → ℕ) {n : ℕ}
    (hx : x.size = n) (hindex : 0 < n → ∀ i l, index i l < n) :
    combine kernel x w index
      = .ok (Vector.ofFn ((of fun i j : Fin n => ∑ l : Fin kernel.size,
          if index i l = j then w (Signal.coords kernel.size kernel l) else 0)
            *ᵥ Signal.coords n x)) := by
  have hall : ((List.range n).all fun i => (List.range kernel.size).all fun l =>
      index i l < x.size) = true := by
    simp only [List.all_eq_true, List.mem_range, decide_eq_true_eq, hx]
    exact fun i hi l _ => hindex (by omega) i l
  rw [combine, if_pos hall]
  -- each entry of the kernel meets one column
  refine congrArg _ (congrArg _ (funext fun i => ?_))
  rw [Signal.mapIdx_eq_ofFn _ kernel rfl, Signal.sum_ofFn, mulVec, dotProduct]
  simp only [of_apply, Finset.sum_mul]
  rw [Finset.sum_comm]
  refine Finset.sum_congr rfl fun l _ => ?_
  have hlt : index i l < n := hindex (Nat.zero_lt_of_lt i.isLt) i l
  rw [Finset.sum_eq_single ⟨index i l, hlt⟩]
  · rw [if_pos rfl]
    rfl
  · intro j _ hj
    rw [if_neg fun e => hj (Fin.ext e.symm), zero_mul]
  · simp

/-- The conjugate transpose shifts the other way, by the conjugate kernel. -/
lemma shiftMatrix_conjTranspose (c : CircularConvolution T) :
    c.shiftMatrixᴴ = of fun j i : Fin c.length => ∑ l : Fin c.kernel.size,
      if (j.val + l.val) % c.length = i then
        Scalar.conj (Signal.coords c.kernel.size c.kernel l) else 0 := by
  ext j i
  rw [conjTranspose_apply, shiftMatrix, of_apply, of_apply, star_sum]
  refine Finset.sum_congr rfl fun l _ => ?_
  have hl : l.val ≤ c.length := l.isLt.le.trans c.fits
  rw [apply_ite star, star_zero]
  exact if_congr (mod_eq_iff hl i.isLt j.isLt) rfl rfl

lemma hasMatrix (c : CircularConvolution T) : c.toOperator.HasMatrix c.shiftMatrix where
  rows_eq := rfl
  cols_eq := rfl
  times_eq x _ hx := combine_eq c.kernel x id _ hx fun hn _ _ => Nat.mod_lt _ hn
  trans_eq y _ hy := by
    rw [shiftMatrix_conjTranspose]
    exact combine_eq c.kernel y Scalar.conj _ hy fun hn _ _ => Nat.mod_lt _ hn

end CircularConvolution
end CompressedSensing
