import CompressedSensing.Operator.Elementary
/-!
# The Walsh-Hadamard transform

For `n` a power of two, `y_i = n^(-1/2) Σ_j (-1)^popcount(i AND j) x_j`. The sum is taken in
`log₂ n` levels: level `l` replaces each pair of entries whose indices differ in bit `l` alone
by its sum and its difference. The matrix is real and symmetric, so the adjoint is the transform
itself.
-/

namespace CompressedSensing

/-- Whether a number is a power of two. -/
def isPowerOfTwo (n : Nat) : Bool := n ≠ 0 && Nat.pow 2 n.log2 == n

/-- The Walsh-Hadamard transform of a size that is a power of two. -/
structure WalshHadamard where
  size : Nat
  powerOfTwo : isPowerOfTwo size

namespace WalshHadamard

/-- The transform, if it exists for this size. -/
def ofSize? (n : Nat) : Except Error WalshHadamard :=
  if h : isPowerOfTwo n then .ok ⟨n, h⟩ else .error (.transformSize n)

variable {T R W : Type} [RealLike R] [Trigonometric W] [Precision R W] [Scalar T R]

/-- One level: sums and differences at distance `h`, within the first `n` entries. -/
@[specialize] def level {k : Nat} (n h : Nat) (x : Vector T k) : Vector T k :=
  x.mapIdx fun i a =>
    if i < n then
      -- blocks of `h` entries are paired; the lower one takes the sums
      if i / h % 2 = 0 then a + x.toArray.getD (i + h) 0 else x.toArray.getD (i - h) 0 - a
    else a

/-- All levels, distances `1, 2, 4, …` below `n`. -/
@[specialize] def butterfly {k : Nat} (n : Nat) (x : Vector T k) : Vector T k :=
  (List.range n.log2).foldl (fun x l => level n (Nat.pow 2 l) x) x

/-- The scale `n^(-1/2)`. -/
def factor (n : Nat) : T :=
  Scalar.ofWide (RealLike.recip (RealLike.sqrt (RealLike.ofNat n)) : W)

/-- Transforms the first `size` entries and scales all of them. With more than one entry to
transform the vector must have them all. -/
@[specialize] def run (t : WalshHadamard) {k : Nat} (x : Signal T) (y : Vector T k) :
    Except Error (Vector T k) := do
  let y ← copyInto x y
  if 1 < t.size ∧ k < t.size then throw .misuse
  let c : T := factor (W := W) t.size
  return (butterfly t.size y).map (· * c)

@[specialize] def toOperator (t : WalshHadamard) : Operator T where
  rows := t.size
  cols := t.size
  times x _ y := t.run (W := W) x y
  trans y _ x := t.run (W := W) y x

end WalshHadamard
end CompressedSensing
