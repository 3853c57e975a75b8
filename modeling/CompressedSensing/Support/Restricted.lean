import CompressedSensing.LeastSquares.Backend
import CompressedSensing.Operator.Algebra
import CompressedSensing.Support.Validation
/-!
# Least squares on a support

`min ‖A x - b‖` over the signals `x` that vanish outside a support. The columns of the support
are formed through unit vectors, so any operator will do.
-/

namespace CompressedSensing

variable {T R : Type} [RealLike R] [Scalar T R]

namespace Operator

/-- The matrix of the columns at `support`, in that order. -/
@[specialize] def restrictedMatrix (a : Operator T) (support : Array Nat) :
    Except Error (DenseMatrix T a.rows support.size) :=
  (ColumnSubset.toOperator ⟨a, support⟩).toMatrix

/-- The coefficients at `support`, in that order, of a least-squares solution. An empty support
makes no request. -/
@[specialize] def solveOn (a : Operator T) (b : Signal T) (support : Array Nat)
    (backend : Backend T) : Solving (Signal T) := do
  if b.size ≠ a.rows then throw (.measurementLength b.size a.rows)
  Solving.ofExcept (Support.validate support a.cols)
  if support.isEmpty then return #[]
  let columns ← Solving.ofExcept (a.restrictedMatrix support)
  request backend columns b

/-- The least-squares solution as a signal of full length. -/
@[specialize] def solveDenseOn (a : Operator T) (b : Signal T) (support : Array Nat)
    (backend : Backend T) : Solving (Signal T) := do
  let z ← a.solveOn b support backend
  Solving.ofExcept (Signal.embed a.cols support z)

end Operator
end CompressedSensing
