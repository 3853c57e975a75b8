import CompressedSensing.LeastSquares.MinimumNorm
import CompressedSensing.Matrix.Elimination
/-!
# Normal equations

The system `AᴴA z = Aᴴb` solved by elimination. The solution is accepted if it is finite and the
equations hold up to rounding; otherwise the minimum-norm solver takes over. So whatever
elimination makes of a singular system, an answer that does not satisfy the equations is never
given.
-/

namespace CompressedSensing
namespace NormalEquations

variable {T R : Type} [RealLike R] [Scalar T R] {m n : Nat}

/-- The Gram matrix `AᴴA`. -/
def gram (a : DenseMatrix T m n) : DenseMatrix T n n := a.adjoint.mul a

/-- The right-hand side `Aᴴb`. -/
def rightHandSide (a : DenseMatrix T m n) (b : Signal T) : Signal T :=
  Array.ofFn fun j : Fin n =>
    DenseMatrix.sumFin m fun i => Scalar.conj (a.entry i j) * b.getD i 0

/-- The defect `‖G z - c‖` of a candidate. -/
def defect (g : DenseMatrix T n n) (c z : Signal T) : R :=
  Signal.norm <| Array.ofFn fun i : Fin n =>
    DenseMatrix.sumFin n (fun j => g.entry i j * z.getD j 0) - c.getD i 0

/-- Whether `z` is finite and solves `G z = c` up to `1000 ε n ‖c‖`. -/
def accepts (g : DenseMatrix T n n) (c z : Signal T) : Bool :=
  z.all Scalar.isFinite
    && RealLike.le (defect g c z)
      (RealLike.ofNat 1000 * RealLike.epsilon * RealLike.ofNat n
        * RealLike.max (Signal.norm c) RealLike.minPositive)

/-- The answer of an elimination kernel where it is accepted, the minimum-norm solution
elsewhere. -/
def solveWith (kernel : {n : Nat} → DenseMatrix T n n → Signal T → Signal T)
    (a : DenseMatrix T m n) (b : Signal T) : Signal T :=
  if n = 0 then #[]
  else
    let g := gram a
    let c := rightHandSide a b
    let z := kernel g c
    if accepts g c z then z else MinimumNorm.solve a b

/-- Normal equations as a backend. -/
def backend : Backend T := Backend.ofSolver "normal-equations" (solveWith Elimination.solve)

end NormalEquations
end CompressedSensing
