import CompressedSensing.LeastSquares.Backend
import CompressedSensing.Matrix.SVD
/-!
# Minimum-norm least squares

Among the vectors that minimize `‖A z - b‖` there is one of least norm, and a singular value
decomposition shows it: `z = Σ v (uᴴ b) / σ` over the singular values that are not zero. A value
counts as zero unless it exceeds `max(m, n) · ε · σ_max`, so directions outside the numerical
range of `A` get no weight.
-/

namespace CompressedSensing
namespace MinimumNorm

variable {T R : Type} [RealLike R] [Scalar T R]

/-- Singular values up to this one count as zero. -/
def rankTolerance (values : Array R) (dimension : Nat) : R :=
  values.foldl RealLike.max 0 * RealLike.epsilon * RealLike.ofNat dimension

/-- Whether a singular value counts. -/
def counts (tolerance value : R) : Bool := !RealLike.isNaN value && !RealLike.le value tolerance

/-- Adds the term `v (uᴴ b) / σ` of one triple. -/
@[specialize] def addTerm (b z : Signal T) (t : SingularTriple T R) : Signal T :=
  let overlap : T := Signal.sum (Array.zipWith (fun u b => Scalar.conj u * b) t.left b)
  let c := Scalar.scaleReal overlap (RealLike.recip t.value)
  Array.zipWith (fun z v => z + v * c) z t.right

/-- The triples whose singular value counts, for a matrix with `m` rows and `n` columns. -/
@[specialize] def significant (m n : Nat) (triples : Array (SingularTriple T R)) :
    Array (SingularTriple T R) :=
  let tolerance := rankTolerance (triples.map SingularTriple.value) (max m n)
  triples.filter fun t => counts tolerance t.value

/-- The terms that make up a solution: none without rows, without unknowns, or without a
decomposition. -/
@[specialize] def terms (m n : Nat) (triples? : Option (Array (SingularTriple T R))) :
    Array (SingularTriple T R) :=
  if n = 0 ∨ m = 0 then #[] else significant m n (triples?.getD #[])

/-- The minimum-norm solution for `n` unknowns from an attempt at a decomposition. Without terms
the answer is zero. -/
@[specialize] def ofDecomposition (m n : Nat) (triples? : Option (Array (SingularTriple T R)))
    (b : Signal T) : Signal T :=
  (terms m n triples?).foldl (addTerm b) (Signal.zeros n)

/-- The minimum-norm solution of `A z ≈ b`. -/
@[specialize] def solve {m n : Nat} (a : DenseMatrix T m n) (b : Signal T) : Signal T :=
  ofDecomposition (R := R) m n (SingularTriple.ofMatrix a) b

/-- The same for a right-hand side of any length: entries behind the last row are not used, and
missing ones are a misuse unless the answer is zero anyway. -/
@[specialize] def solveUnchecked {m n : Nat} (a : DenseMatrix T m n) (b : Signal T) :
    Except Error (Signal T) :=
  let triples? : Option (Array (SingularTriple T R)) := SingularTriple.ofMatrix a
  if b.size < m ∧ (terms m n triples?).size ≠ 0 then .error .misuse
  else .ok (ofDecomposition m n triples? b)

/-- Minimum-norm least squares as a backend. -/
@[specialize] def backend : Backend T := Backend.ofSolver "svd" solve

end MinimumNorm
end CompressedSensing
