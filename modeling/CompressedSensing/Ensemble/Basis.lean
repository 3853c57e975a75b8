import CompressedSensing.Operator.Transform.Cosine
import CompressedSensing.Operator.Transform.WalshHadamard
import CompressedSensing.Scalar.ComplexOver
/-!
# Bases and dictionaries

The classical orthonormal bases as explicit matrices, and the dictionaries that put one of them
beside the unit vectors.
-/

namespace CompressedSensing
namespace Basis

/-- Whether `n` has an odd number of binary digits one; `fuel` bounds the number of digits. -/
def oddParity : (fuel : Nat) → (n : Nat) → Bool
  | 0, _ => false
  | fuel + 1, n => (n % 2 == 1) ^^ oddParity fuel (n / 2)

section

variable {T R W : Type} [RealLike R] [Trigonometric W] [Precision R W] [Scalar T R]

/-- The Hadamard matrix: entry `(i, j)` is `n^(-1/2)` with the sign `(-1)^popcount(i AND j)`. -/
def hadamardMatrix (n : Nat) : DenseMatrix T n n :=
  let s : W := RealLike.recip (RealLike.sqrt (RealLike.ofNat n))
  let plus : T := Scalar.ofWide s
  let minus : T := Scalar.ofWide (-s)
  DenseMatrix.ofFn fun i j => if oddParity (n.log2 + 1) (i.val &&& j.val) then minus else plus

/-- The Hadamard basis, for a power of two. -/
def hadamard? (n : Nat) : Except Error (DenseMatrix T n n) :=
  if isPowerOfTwo n then .ok (hadamardMatrix (W := W) n) else .error (.basisSize n)

/-- The cosine basis: row `k` is the cosine of frequency `k`. -/
def cosine (n : Nat) : Except Error (DenseMatrix T n n) :=
  ((CosineTransform.ofSize n : CosineTransform W).toOperator : Operator T).toMatrix

/-- The unit vectors, then the columns of `B`. -/
def besideIdentity {n : Nat} (b : DenseMatrix T n n) : DenseMatrix T n (n + n) :=
  DenseMatrix.ofFn fun i j =>
    if h : j.val < n then if i.val = j.val then 1 else 0
    else b.entry i ⟨j.val - n, by omega⟩

/-- The dictionary of unit vectors and Hadamard columns. -/
def diracHadamard? (n : Nat) : Except Error (DenseMatrix T n (n + n)) :=
  return besideIdentity (← hadamard? (W := W) n)

/-- The dictionary of unit vectors and cosines. -/
def diracCosine (n : Nat) : Except Error (DenseMatrix T n (n + n)) :=
  return besideIdentity (← cosine (W := W) n).transpose

end

/-- The Fourier basis: column `k` is `n^(-1/2) e^(2πi jk/n)`. -/
def fourier {W : Type} [Trigonometric W] (n : Nat) : DenseMatrix (ComplexOver W) n n :=
  let s : W := RealLike.recip (RealLike.sqrt (RealLike.ofNat n))
  DenseMatrix.ofFn fun j k =>
    ComplexOver.ofPolar s
      (RealLike.ofNat 2 * Trigonometric.pi * RealLike.ofNat (j.val * k.val % n)
        / RealLike.ofNat n)

end Basis
end CompressedSensing
