import CompressedSensing.Matrix.QR
/-!
# Singular values

A thin singular value decomposition is a list of triples `(u, σ, v)` with
`A = Σ σ u vᴴ`, the `u` orthonormal and the `v` orthonormal. One-sided Jacobi rotations make the
columns of a matrix orthogonal; their lengths are then the singular values. A matrix with many
more rows than columns is triangularized first, and one with fewer rows than columns is
decomposed through its adjoint. The matrix is scaled by a power of two beforehand, so squares
neither overflow nor underflow.

Where a singular value is zero its left vector is left zero: no answer depends on it.
-/

namespace CompressedSensing

variable {T R : Type} [RealLike R] [Scalar T R]

/-- One term `σ u vᴴ` of a decomposition. -/
structure SingularTriple (T R : Type) where
  left : Signal T
  value : R
  right : Signal T

namespace Jacobi

/-- Columns under rotation: each carries the combination of the first columns that it is. -/
structure State (T : Type) where
  columns : Array (Signal T)
  combinations : Array (Signal T)
  /-- Whether the current sweep has rotated. -/
  rotated : Bool

/-- Two columns turned by the angle with cosine `c` and sine `s`, the second one first brought
into the phase that makes its overlap with the first one real. -/
@[specialize] def turn (c s : R) (phase : T) (x y : Signal T) : Signal T × Signal T :=
  let y := y.map (· * Scalar.conj phase)
  (Array.zipWith (fun a b => a * Scalar.ofReal c - b * Scalar.ofReal s) x y,
   Array.zipWith (fun a b => a * Scalar.ofReal s + b * Scalar.ofReal c) x y)

/-- Makes columns `p` and `q` orthogonal, unless they are so to working precision, and puts the
longer one first. With squared lengths `a`, `b` and overlap `g` the tangent of the angle is the
negative root of `t² + 2 z t = 1` for `z = (b - a) / 2g`: it is `-(|z| + √(1 + z²))` when `z` is
positive and minus the reciprocal of that otherwise, so nothing cancels. -/
@[specialize] def rotate (st : State T) (p q : Nat) : State T :=
  let x := st.columns.getD p #[]
  let y := st.columns.getD q #[]
  let a : R := Signal.normSq x
  let b : R := Signal.normSq y
  let overlap : T := Signal.sum (Array.zipWith (fun a b => Scalar.conj a * b) x y)
  let g : R := Scalar.modulus overlap
  let z := (b - a) / (RealLike.ofNat 2 * g)
  -- a `z` that overflows stands for an angle that would move nothing
  if RealLike.le g (RealLike.epsilon * RealLike.sqrt (a * b)) || !RealLike.isFinite z then st
  else
    let w := RealLike.abs z + RealLike.hypot 1 z
    -- the long way round exchanges the columns, which puts the longer one first
    let t := if RealLike.lt a b then -w else -RealLike.recip w
    let h := RealLike.hypot 1 t
    let c := RealLike.recip h
    let s := t / h
    let phase := Scalar.divReal overlap g
    let (x, y) := turn c s phase x y
    let (v, w) := turn c s phase (st.combinations.getD p #[]) (st.combinations.getD q #[])
    ⟨(st.columns.setIfInBounds p x).setIfInBounds q y,
     (st.combinations.setIfInBounds p v).setIfInBounds q w, true⟩

/-- One pass over all pairs of columns, from the last pair to the first. -/
@[specialize] def sweep (n : Nat) (st : State T) : State T :=
  (List.range n).foldr
    (fun q st => (List.range q).foldr (fun p st => rotate (R := R) st p q) st)
    { st with rotated := false }

/-- Sweeps until one of them rotates nothing, `fuel` of them at most. -/
@[specialize] def run (n : Nat) : (fuel : Nat) → State T → State T
  | 0, st => st
  | fuel + 1, st =>
    let st := sweep (R := R) n st
    if st.rotated then run n fuel st else st

/-- The bound on sweeps; convergence is quadratic and takes about ten. -/
def sweeps : Nat := 60

end Jacobi

namespace SingularTriple

/-- A power of two, reached from `scale` in at most `fuel` steps, that brings a positive number
near one; it stays two steps below overflow. -/
def binaryScale (x : R) : (fuel : Nat) → (scale : R) → R
  | 0, scale => scale
  | fuel + 1, scale =>
    if RealLike.lt (x * scale) (RealLike.decimal 5 1)
        && RealLike.isFinite (scale * RealLike.ofNat 4) then
      binaryScale x fuel (scale * RealLike.ofNat 2)
    else if RealLike.lt (RealLike.ofNat 2) (x * scale) then
      binaryScale x fuel (scale * RealLike.decimal 5 1)
    else scale

/-- More halvings or doublings than the exponent range of any format here. -/
def scaleFuel : Nat := 1100

/-- The triples of a matrix given by its `n` columns. -/
@[specialize] def ofColumns (n : Nat) (columns : Array (Signal T)) :
    Array (SingularTriple T R) :=
  let start : Jacobi.State T := ⟨columns, (Array.range n).map fun j => Signal.unit n j, true⟩
  let done := Jacobi.run (R := R) n Jacobi.sweeps start
  Array.zipWith
    (fun c v =>
      let size : R := Signal.norm c
      let left := if RealLike.isZero size then c
        else c.map (Scalar.scaleReal · (RealLike.recip size))
      ⟨left, size, v⟩)
    done.columns done.combinations

/-- The triples of a matrix with `m` rows and `n ≤ m` columns. When it is more than eleven
sixths as tall as wide its triangle is decomposed in its place. -/
@[specialize] def ofTall (m n : Nat) (columns : Array (Signal T)) :
    Array (SingularTriple T R) :=
  if 6 * m ≤ 11 * n then ofColumns n columns
  else
    let t : Triangular T R := Triangular.ofColumns m columns
    -- the right vectors are those of the matrix, the left ones are turned back
    (ofColumns n (t.square n)).map fun s =>
      { s with left := t.rotate (s.left ++ Signal.zeros (m - n)) }

/-- The triples of a scaled matrix have scaled values. -/
@[specialize] def ofScaled {m n : Nat} (a : DenseMatrix T m n) : Array (SingularTriple T R) :=
  let columns := a.columns.toArray.map Vector.toArray
  let largest : R := columns.foldl
    (fun acc c => c.foldl (fun acc z => RealLike.max acc (Scalar.modulus z)) acc) 0
  let scale : R := if RealLike.isZero largest then 1 else binaryScale largest scaleFuel 1
  (ofTall m n (columns.map fun c => c.map (Scalar.scaleReal · scale))).map fun s =>
    { s with value := s.value / scale }

/-- The singular triples of a matrix, or nothing if an entry is infinite or not a number. -/
@[specialize] def ofMatrix {m n : Nat} (a : DenseMatrix T m n) :
    Option (Array (SingularTriple T R)) :=
  if a.isFinite then
    if n ≤ m then some (ofScaled a)
    else some ((ofScaled a.adjoint).map fun s => ⟨s.right, s.value, s.left⟩)
  else none

end SingularTriple
end CompressedSensing
