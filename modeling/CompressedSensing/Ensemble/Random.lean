import CompressedSensing.Random.Ziggurat
import CompressedSensing.Random.Sample
import CompressedSensing.Matrix.QR
/-!
# Random matrices and signals

Sensing matrices and sparse test signals drawn from a source. Entries are drawn column by
column, from top to bottom.
-/

namespace CompressedSensing
namespace Ensemble

variable {T R W : Type} [RealLike R] [Trigonometric W] [Precision R W] [Scalar T R]

/-- Independent standard normal entries. With `normalize` each column is then scaled to unit
norm, otherwise all entries are divided by `√m`; a norm of zero scales nothing. -/
def gaussian (m n : Nat) (normalize : Bool) : Draw (DenseMatrix T m n) := do
  let columns ← Vector.ofFnM fun _ : Fin n => Vector.ofFnM fun _ : Fin m => Normal.drawScalar
  let common : R := Precision.narrow (RealLike.sqrt (RealLike.ofNat m) : W)
  return ⟨columns.map fun c =>
    let s := if normalize then Signal.norm c.toArray else common
    if RealLike.isZero s then c else c.map (Scalar.scaleReal · (RealLike.recip s))⟩

/-- Independent entries `±1/√m`, each sign a fair coin. -/
def rademacher (m n : Nat) : Draw (DenseMatrix T m n) := do
  let v : W := RealLike.recip (RealLike.sqrt (RealLike.ofNat m))
  return ⟨← Vector.ofFnM fun _ : Fin n => Vector.ofFnM fun _ : Fin m => do
    return Scalar.ofWide (if ← coin then v else -v)⟩

/-- An orthonormal basis: the orthogonal factor of a gaussian matrix, its columns turned so that
the diagonal of the triangular factor becomes positive. -/
def orthonormal (n : Nat) : Draw (DenseMatrix T n n) := do
  let g : DenseMatrix T n n ← gaussian (W := W) n n false
  let t : Triangular T R := Triangular.ofColumns n (g.columns.toArray.map Vector.toArray)
  return ⟨Vector.ofFn fun j : Fin n =>
    let d := t.entry j j
    let size : R := Scalar.modulus d
    let phase := if RealLike.isZero size then 1 else d / Scalar.ofReal size
    let q := t.rotate (Signal.unit n j)
    Vector.ofFn fun i : Fin n => q.getD i 0 * phase⟩

/-- A nonzero standard normal entry, within `fuel` draws. -/
def nonzeroEntry : (fuel : Nat) → Draw T
  | 0 => return 0
  | fuel + 1 => do
    let v ← Normal.drawScalar
    if Scalar.isZero v then nonzeroEntry fuel else return v

/-- A signal of length `n` with `k` nonzero entries: its entries and its support, ascending. The
support is drawn first, then the entries in ascending order of their indices. -/
def sparseSignal (n k : Nat) : Except Error (Draw (Signal T × Array Nat)) :=
  if n < k then .error (.tooManyNonzeros k n)
  else .ok do
    let support := (← Sample.indices n k).mergeSort
    let values ← support.mapM fun _ => nonzeroEntry Sample.attempts
    return ((Signal.scatter (Vector.replicate n 0) support values).toArray, support)

end Ensemble
end CompressedSensing
