import CompressedSensing.Operator.Elementary
import CompressedSensing.Scalar.ComplexOver
/-!
# The Fourier transform

The unitary transform `y_k = n^(-1/2) Σ_j x_j e^(-2πi jk/n)`, whose adjoint has the opposite
sign in the exponent. The roots of unity have the period `n` in `j k` and come from a table.

A vector is transformed block by block, in blocks of `n` entries; one whose length is not a
multiple of `n` has no transform. Size zero leaves a vector alone.
-/

namespace CompressedSensing

/-- The Fourier transform of size `n`, with the roots `e^(-2πi t/n)`. -/
structure FourierTransform (W : Type) where
  size : Nat
  roots : Array (ComplexOver W)

namespace FourierTransform

variable {W : Type} [Trigonometric W]

def ofSize (n : Nat) : FourierTransform W where
  size := n
  roots := Array.ofFn fun t : Fin n =>
    ComplexOver.ofPolar 1
      (-(RealLike.ofNat 2 * Trigonometric.pi * RealLike.ofNat t.val / RealLike.ofNat n))

/-- Entry `k` of the transform of the block that starts at `start`. -/
@[specialize] def entry (t : FourierTransform W) (sign : ComplexOver W → ComplexOver W)
    (x : Signal (ComplexOver W)) (start k : Nat) : ComplexOver W :=
  Fin.foldl t.size
    (fun acc j => acc + x.getD (start + j) 0 * sign (t.roots.getD (j * k % t.size) 0)) 0

/-- The transform of every block, scaled by `n^(-1/2)`. -/
@[specialize] def run (t : FourierTransform W) (sign : ComplexOver W → ComplexOver W)
    {k : Nat} (x : Signal (ComplexOver W)) (y : Vector (ComplexOver W) k) :
    Except Error (Vector (ComplexOver W) k) := do
  let y ← copyInto x y
  if t.size = 0 then return y
  if k % t.size ≠ 0 then throw .misuse
  let c : W := RealLike.recip (RealLike.sqrt (RealLike.ofNat t.size))
  return Vector.ofFn fun i : Fin k =>
    let z := t.entry sign x (i / t.size * t.size) (i % t.size)
    ⟨z.re * c, z.im * c⟩

@[specialize] def toOperator (t : FourierTransform W) : Operator (ComplexOver W) where
  rows := t.size
  cols := t.size
  times x _ y := t.run id x y
  trans y _ x := t.run ComplexOver.conj y x

end FourierTransform
end CompressedSensing
