import CompressedSensing.Matrix.Basic
/-!
# Cholesky factorization

The lower triangle `L` with `A = L Lᴴ`, row by row. It exists exactly when every pivot is
positive; a pivot that is zero, negative, infinite or not a number ends the factorization.
-/

namespace CompressedSensing
namespace Cholesky

variable {T R : Type} [RealLike R] [Scalar T R] {n : Nat}

/-- The entries of row `i` left of the diagonal, given the rows above: entry `j` is what is left
of `a i j` over the pivot of row `j`. -/
def leftOfDiagonal (a : DenseMatrix T n n) (rows : Array (Signal T)) (i : Fin n) : Signal T :=
  rows.zipIdx.foldl
    (fun l (rj : Signal T × Nat) =>
      -- `l` is as long as the part of row `j` left of its diagonal
      let used : T := Signal.sum (Array.zipWith (fun x y => x * Scalar.conj y) l rj.1)
      let target := if h : rj.2 < n then a.entry i ⟨rj.2, h⟩ else 0
      l.push ((target - used) / rj.1.getD rj.2 0))
    #[]

/-- Row `i` of the factor, unless its pivot fails. -/
def nextRow (a : DenseMatrix T n n) (rows : Array (Signal T)) (i : Fin n) : Option (Signal T) :=
  let l := leftOfDiagonal a rows i
  let d : R := Scalar.re (a.entry i i) - Signal.normSq l
  if RealLike.lt 0 d && RealLike.isFinite d then
    some (l.push (Scalar.ofReal (RealLike.sqrt d)))
  else none

/-- The rows of the factor. -/
def factor (a : DenseMatrix T n n) : Option (Array (Signal T)) :=
  (List.finRange n).foldlM (fun rows i => (nextRow a rows i).map rows.push) #[]

end Cholesky
end CompressedSensing
