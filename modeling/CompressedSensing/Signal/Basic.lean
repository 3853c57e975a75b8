import CompressedSensing.Error
import CompressedSensing.Scalar.Basic
/-!
# Signals

A signal is an array of scalars. Every sum runs from index zero upwards and starts at zero, so
that an answer over rounded scalars is determined by its input alone.

Operations on two signals ask for equal lengths and operations on index lists ask for indices
inside the signal; where that contract is broken they fail with `Error.misuse`.
-/

namespace CompressedSensing

/-- A vector of scalars. -/
abbrev Signal (T : Type) := Array T

namespace Signal

variable {T R : Type} [RealLike R] [Scalar T R]

/-! ## Sums -/

/-- The zero vector of length `n`. -/
@[inline] def zeros (n : Nat) : Signal T := Array.replicate n 0

/-- The sum of the entries. -/
@[specialize] def sum {α : Type} [Zero α] [Add α] (x : Array α) : α := x.foldl (· + ·) 0

/-- The inner product `Σ conj(xᵢ) yᵢ`, conjugate linear in its first argument. -/
@[specialize] def dot (x y : Signal T) : Except Error T :=
  if x.size = y.size then
    .ok (sum (Array.zipWith (fun a b => Scalar.conj a * b) x y))
  else .error .misuse

/-- The squared norm `‖x‖²`. -/
@[specialize] def normSq (x : Signal T) : R := sum (x.map (Scalar.normSq : T → R))

/-- The Euclidean norm `‖x‖`. -/
@[specialize] def norm (x : Signal T) : R := RealLike.sqrt (normSq x)

/-- The distance `‖x - y‖`. -/
@[specialize] def distance (x y : Signal T) : Except Error R :=
  if x.size = y.size then
    .ok (RealLike.sqrt (sum (Array.zipWith (fun a b => (Scalar.normSq (a - b) : R)) x y)))
  else .error .misuse

/-! ## Linear combinations -/

/-- The combination `y + α x`. -/
@[specialize] def axpy (α : T) (x y : Signal T) : Except Error (Signal T) :=
  if x.size = y.size then .ok (Array.zipWith (fun a b => b + α * a) x y) else .error .misuse

/-- The multiple `α x`. -/
@[specialize] def scale (α : T) (x : Signal T) : Signal T := x.map (· * α)

/-- Entry by entry `f xᵢ yᵢ` as far as `y` reaches; the entries of `x` behind it stay. -/
@[specialize] def overlay {k : Nat} (f : T → T → T) (x : Vector T k) (y : Signal T) :
    Vector T k :=
  x.mapIdx fun i a => match y[i]? with
    | some b => f a b
    | none => a

/-! ## Index lists -/

/-- Whether every index is below `n`. -/
def inBounds (support : Array Nat) (n : Nat) : Bool := support.all (· < n)

/-- The entries at `support`, in that order. -/
def gather (x : Signal T) (support : Array Nat) : Except Error (Signal T) :=
  if inBounds support x.size then .ok (support.map fun i => x.getD i 0) else .error .misuse

/-- Writes `values` at `support`, a later value over an earlier one; what the longer of the two
lists has over is not written, and an index outside the vector writes nothing. -/
def scatter {k : Nat} (x : Vector T k) (support : Array Nat) (values : Signal T) : Vector T k :=
  (support.zip values).foldl (fun x p => x.setIfInBounds p.1 p.2) x

/-- The vector of length `n` with `values` at `support` and zero elsewhere. -/
def embed (n : Nat) (support : Array Nat) (values : Signal T) : Except Error (Signal T) :=
  if support.size = values.size ∧ inBounds support n then
    .ok (scatter (Vector.replicate n 0) support values).toArray
  else .error .misuse

/-- The unit vector `eⱼ` of length `n`. -/
def unit (n j : Nat) : Signal T := Array.ofFn fun i : Fin n => if i.val = j then 1 else 0

/-- The indices of the nonzero entries, ascending. -/
def nonzeroSupport (x : Signal T) : Array Nat :=
  (Array.range x.size).filter fun i => match x[i]? with
    | some v => !Scalar.isZero v
    | none => false

end Signal
end CompressedSensing
