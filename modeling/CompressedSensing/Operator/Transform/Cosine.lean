import CompressedSensing.Operator.Basic
/-!
# The cosine transform

The orthonormal transform `y_k = c_k Σ_j x_j cos(π (2j + 1) k / 2n)` with `c_0 = √(1/n)` and
`c_k = √(2/n)`. The cosines have the period `4n` in `(2j + 1) k`, so a table of `4n` values
serves all products; each product is a direct sum.
-/

namespace CompressedSensing

/-- The cosine transform of size `n`, with its table. -/
structure CosineTransform (W : Type) where
  size : Nat
  table : Array W
  /-- The table holds one period. -/
  size_table : table.size = 4 * size

namespace CosineTransform

variable {T R W : Type} [RealLike R] [Trigonometric W] [Precision R W] [Scalar T R]

/-- Entry `t` of the table is `cos(π t / 2n)`. -/
def ofSize (n : Nat) : CosineTransform W where
  size := n
  table := Array.ofFn fun t : Fin (4 * n) =>
    Trigonometric.cos (Trigonometric.pi * RealLike.ofNat t.val / RealLike.ofNat (2 * n))
  size_table := Array.size_ofFn

omit [Trigonometric W] in
/-- Reduced by the period, every index lies in the table. -/
theorem lookup_lt (t : CosineTransform W) (h : 0 < t.size) (k j : Nat) :
    (2 * j + 1) * k % (4 * t.size) < t.table.size := by
  rw [t.size_table]
  exact Nat.mod_lt _ (by omega)

/-- Entry `(k, j)` of the matrix. -/
@[specialize] def coefficient (t : CosineTransform W) (h : 0 < t.size) (k j : Nat) : W :=
  let c := if k = 0 then RealLike.sqrt (1 / RealLike.ofNat t.size)
    else RealLike.sqrt (RealLike.ofNat 2 / RealLike.ofNat t.size)
  have := t.lookup_lt h k j
  c * t.table[(2 * j + 1) * k % (4 * t.size)]

/-- The sum `Σ_j x_j f(i, j)` for each entry `i` of the buffer. Size zero has no cosines to look
up. -/
@[specialize] def combine (n : Nat) (f : 0 < n → Nat → Nat → T) (x : Signal T) {k : Nat} :
    Except Error (Vector T k) :=
  if h : 0 < n then
    .ok (Vector.ofFn fun i : Fin k => Signal.sum (x.mapIdx fun j xj => xj * f h i j))
  else if 0 < k ∧ 0 < x.size then .error .misuse
  else .ok (Vector.replicate k 0)

@[specialize] def toOperator (t : CosineTransform W) : Operator T where
  rows := t.size
  cols := t.size
  times x _ _ := combine t.size (fun h k j => Scalar.ofWide (t.coefficient h k j)) x
  trans y _ _ := combine t.size (fun h j k => Scalar.ofWide (t.coefficient h k j)) y

end CosineTransform
end CompressedSensing
