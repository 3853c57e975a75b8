import CompressedSensing.Matrix.Cholesky
/-!
# Structural checks

Symmetry is compared entry for entry, with no tolerance. Orthogonality compares a Gram matrix of
size `k` with the identity: off the diagonal up to `k · 10⁻⁶`, on it up to `10⁻⁵` more.
-/

namespace CompressedSensing
namespace DenseMatrix

variable {T R W : Type} [RealLike R] [Trigonometric W] [Precision R W] [Scalar T R] {m n : Nat}

/-- The matrix as a square one, if it is. -/
def square? (a : DenseMatrix T m n) : Option (DenseMatrix T n n) :=
  if h : m = n then some (h ▸ a) else none

/-- Whether `A = Aᵀ`; only the pairs below the diagonal are compared. -/
def isSymmetric (a : DenseMatrix T n n) : Bool :=
  (List.finRange n).all fun i => (List.finRange n).all fun j =>
    !(j.val < i.val) || a.entry i j == a.entry j i

/-- Whether `A = Aᴴ`, the diagonal included. -/
def isHermitian (a : DenseMatrix T n n) : Bool :=
  (List.finRange n).all fun i => (List.finRange n).all fun j =>
    !(j.val ≤ i.val) || a.entry i j == Scalar.conj (a.entry j i)

/-- Hermitian with a Cholesky factor. -/
def isPositiveDefinite (a : DenseMatrix T n n) : Bool :=
  isHermitian a && (Cholesky.factor a).isSome

/-- Whether a Gram matrix is near the identity. -/
def isNearIdentity (g : DenseMatrix T n n) : Bool :=
  let absolute : R := Precision.narrow (RealLike.ofNat n * RealLike.decimal 1 6 : W)
  let relative : R := Precision.narrow (RealLike.decimal 1 5 : W)
  (List.finRange n).all fun i => (List.finRange n).all fun j =>
    let target : T := if i = j then 1 else 0
    RealLike.le (Scalar.modulus (g.entry i j - target))
      (absolute + relative * Scalar.modulus target)

/-- Whether `AᵀA ≈ I`. -/
def hasOrthogonalColumns (a : DenseMatrix T m n) : Bool :=
  isNearIdentity (W := W) (a.transpose.mul a)

/-- Whether `AAᵀ ≈ I`. -/
def hasOrthogonalRows (a : DenseMatrix T m n) : Bool :=
  isNearIdentity (W := W) (a.mul a.transpose)

/-- Whether `AᴴA ≈ I`. -/
def hasUnitaryColumns (a : DenseMatrix T m n) : Bool :=
  isNearIdentity (W := W) (a.adjoint.mul a)

/-- Whether `AAᴴ ≈ I`. -/
def hasUnitaryRows (a : DenseMatrix T m n) : Bool :=
  isNearIdentity (W := W) (a.mul a.adjoint)

end DenseMatrix

/-- The answers to all structural questions about a matrix. -/
structure MatrixProperties where
  square : Bool
  symmetric : Bool
  hermitian : Bool
  positiveDefinite : Bool
  orthogonalColumns : Bool
  orthogonalRows : Bool
  unitaryColumns : Bool
  unitaryRows : Bool
deriving DecidableEq, Repr

/-- Every structural check; those that need a square matrix fail on any other. -/
def SizedMatrix.properties {T R W : Type} [RealLike R] [Trigonometric W] [Precision R W]
    [Scalar T R] (a : SizedMatrix T) : MatrixProperties :=
  let square := a.matrix.square?
  { square := square.isSome
    symmetric := square.any DenseMatrix.isSymmetric
    hermitian := square.any DenseMatrix.isHermitian
    positiveDefinite := square.any DenseMatrix.isPositiveDefinite
    orthogonalColumns := a.matrix.hasOrthogonalColumns (W := W)
    orthogonalRows := a.matrix.hasOrthogonalRows (W := W)
    unitaryColumns := a.matrix.hasUnitaryColumns (W := W)
    unitaryRows := a.matrix.hasUnitaryRows (W := W) }

end CompressedSensing
