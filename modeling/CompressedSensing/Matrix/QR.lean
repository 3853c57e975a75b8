import CompressedSensing.Matrix.Basic
/-!
# Orthogonal triangularization

Householder reflections turn the columns of a matrix into an upper triangle, one column at a
time. A column that is already zero below the diagonal needs no reflection, so the zero matrix
has the identity as its orthogonal factor.
-/

namespace CompressedSensing

variable {T R : Type} [RealLike R] [Scalar T R]

/-- The reflection `x ↦ x - v (vᴴx) / τ` with `τ = vᴴv / 2`. Without a `τ` nothing is
reflected. -/
structure Reflection (T R : Type) where
  direction : Signal T
  halfSquare? : Option R

namespace Reflection

@[specialize] def apply (h : Reflection T R) (x : Signal T) : Signal T :=
  match h.halfSquare? with
  | none => x
  | some τ =>
    let overlap : T := Signal.sum (Array.zipWith (fun a b => Scalar.conj a * b) h.direction x)
    let factor := Scalar.scaleReal overlap (RealLike.recip τ)
    Array.zipWith (fun a b => a - b * factor) x h.direction

/-- The reflection that keeps the first `k` entries of a column and clears those behind entry
`k`. Its direction is the tail of the column with the tail's length, in the phase of entry `k`,
added to that entry, where it never cancels; then it is scaled to have a one there. -/
@[specialize] def clearing (k : Nat) (x : Signal T) : Reflection T R :=
  let head := x.getD k 0
  let below := x.mapIdx fun i a => if i ≤ k then 0 else a
  let belowNorm : R := Signal.norm below
  if RealLike.isZero belowNorm then ⟨below, none⟩
  else
    let headNorm : R := Scalar.modulus head
    let tailNorm := RealLike.hypot headNorm belowNorm
    let phase : T := if RealLike.isZero headNorm then 1
      else Scalar.scaleReal head (RealLike.recip headNorm)
    let inverse : T := 1 / (head + Scalar.scaleReal phase tailNorm)
    -- the direction is a one and a tail of length `r`
    let r := belowNorm * Scalar.modulus inverse
    ⟨(below.map (· * inverse)).setIfInBounds k 1, some (RealLike.decimal 5 1 * (1 + r * r))⟩

end Reflection

/-- A triangularization: the reflections in the order of their columns, and the columns after
all of them. -/
structure Triangular (T R : Type) where
  reflections : Array (Reflection T R)
  columns : Array (Signal T)

namespace Triangular

/-- Triangularizes a matrix with `rows` rows, given by its columns. -/
@[specialize] def ofColumns (rows : Nat) (columns : Array (Signal T)) : Triangular T R :=
  (List.range (min rows columns.size)).foldl
    (fun t k =>
      let h := Reflection.clearing k (t.columns.getD k #[])
      ⟨t.reflections.push h, t.columns.map h.apply⟩)
    ⟨#[], columns⟩

/-- The orthogonal factor times a vector: the reflections from the last to the first. -/
@[specialize] def rotate (t : Triangular T R) (x : Signal T) : Signal T :=
  t.reflections.foldr (fun h x => h.apply x) x

/-- Entry `(i, j)` of the triangle. -/
def entry (t : Triangular T R) (i j : Nat) : T :=
  if i ≤ j then (t.columns.getD j #[]).getD i 0 else 0

/-- The first `n` entries of each column of the triangle. -/
def square (t : Triangular T R) (n : Nat) : Array (Signal T) :=
  Array.ofFn fun j : Fin n => Array.ofFn fun i : Fin n => t.entry i j

end Triangular
end CompressedSensing
