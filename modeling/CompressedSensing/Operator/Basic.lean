import CompressedSensing.Matrix.Basic
/-!
# Linear operators

An operator is a shape and two maps, `times` for `A x` and `trans` for `Aᴴ y`; recovery knows
an operator through these alone. A map receives a vector and a buffer and hands the buffer back
filled, so the length of the answer is that of the buffer by type. Each map decides by itself
what it does with a vector or a buffer of unexpected length: it may fail with `Error.misuse`, or
use what is there.

`apply` and `applyAdjoint` supply a zero buffer of the right length, and `toMatrix` reads an
operator off its values on unit vectors.
-/

namespace CompressedSensing

/-- A linear map between spaces of signals, with its adjoint. -/
structure Operator (T : Type) where
  /-- Length of the answers of `times`. -/
  rows : Nat
  /-- Length of the vectors `times` is meant for. -/
  cols : Nat
  /-- Writes `A x` into a buffer. -/
  times : Signal T → {k : Nat} → Vector T k → Except Error (Vector T k)
  /-- Writes `Aᴴ y` into a buffer. -/
  trans : Signal T → {k : Nat} → Vector T k → Except Error (Vector T k)

namespace Operator

variable {T R : Type} [RealLike R] [Scalar T R]

/-- Rows and columns. -/
def shape (a : Operator T) : Nat × Nat := (a.rows, a.cols)

/-- The image `A x`, with its length in the type. -/
@[specialize] def image (a : Operator T) (x : Signal T) : Except Error (Vector T a.rows) :=
  a.times x (Vector.replicate a.rows 0)

/-- The image `Aᴴ y`, with its length in the type. -/
@[specialize] def adjointImage (a : Operator T) (y : Signal T) :
    Except Error (Vector T a.cols) :=
  a.trans y (Vector.replicate a.cols 0)

/-- The image `A x`. -/
@[specialize] def apply (a : Operator T) (x : Signal T) : Except Error (Signal T) :=
  return (← a.image x).toArray

/-- The image `Aᴴ y`. -/
@[specialize] def applyAdjoint (a : Operator T) (y : Signal T) : Except Error (Signal T) :=
  return (← a.adjointImage y).toArray

/-- The residual `b - A x`. Where `b` is shorter than `A x` the entries of `A x` behind it are
left as they are. -/
@[specialize] def residual (a : Operator T) (b x : Signal T) : Except Error (Signal T) :=
  return (Signal.overlay (fun axi bi => bi - axi) (← a.image x) b).toArray

/-- The matrix of `A`, column by column from unit vectors. -/
@[specialize] def toMatrix (a : Operator T) : Except Error (DenseMatrix T a.rows a.cols) :=
  return ⟨← Vector.ofFnM fun j : Fin a.cols => a.image (Signal.unit a.cols j)⟩

/-- The matrix of `Aᴴ`, column by column from unit vectors. -/
@[specialize] def toAdjointMatrix (a : Operator T) :
    Except Error (DenseMatrix T a.cols a.rows) :=
  return ⟨← Vector.ofFnM fun i : Fin a.rows => a.adjointImage (Signal.unit a.rows i)⟩

/-! ## Dense operators -/

/-- The operator of a matrix. Both lengths have to fit exactly. -/
@[specialize] def dense {m n : Nat} (a : DenseMatrix T m n) : Operator T where
  rows := m
  cols := n
  times x {k} _ :=
    if h : k = m ∧ x.size = n then
      .ok (Vector.ofFn fun i : Fin k =>
        DenseMatrix.sumFin n fun j =>
          have : j.val < x.size := h.2 ▸ j.isLt
          a.entry (i.cast h.1) j * x[j.val])
    else .error .misuse
  trans y {k} _ :=
    if h : k = n ∧ y.size = m then
      .ok (Vector.ofFn fun j : Fin k =>
        DenseMatrix.sumFin m fun i =>
          have : i.val < y.size := h.2 ▸ i.isLt
          Scalar.conj (a.entry i (j.cast h.1)) * y[i.val])
    else .error .misuse

end Operator
end CompressedSensing
