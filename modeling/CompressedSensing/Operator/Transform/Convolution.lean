import CompressedSensing.Operator.Basic
/-!
# Circular convolution

`y_i = Σ_l h_l x_{(i - l) mod n}` for a kernel `h` no longer than the signal; the adjoint is
circular correlation with the conjugated kernel. Indices wrap around at `n` whatever the length
of the buffer; a vector too short for an index that comes up is a misuse.
-/

namespace CompressedSensing

/-- Convolution of signals of length `length` with a kernel that fits. -/
structure CircularConvolution (T : Type) where
  kernel : Signal T
  length : Nat
  fits : kernel.size ≤ length

namespace CircularConvolution

variable {T R : Type} [RealLike R] [Scalar T R]

/-- The convolution, if the kernel is no longer than the signal. -/
def ofKernel? (kernel : Signal T) (n : Nat) : Except Error (CircularConvolution T) :=
  if h : kernel.size ≤ n then .ok ⟨kernel, n, h⟩ else .error (.kernelTooLong kernel.size n)

/-- The sum `Σ_l w h_l · x_(index i l)` for each entry `i` of the buffer. -/
@[specialize] def combine (kernel x : Signal T) (w : T → T) (index : Nat → Nat → Nat)
    {k : Nat} : Except Error (Vector T k) :=
  if (List.range k).all fun i => (List.range kernel.size).all fun l => index i l < x.size then
    .ok (Vector.ofFn fun i : Fin k =>
      Signal.sum (kernel.mapIdx fun l h => w h * x.getD (index i l) 0))
  else .error .misuse

@[specialize] def toOperator (c : CircularConvolution T) : Operator T where
  rows := c.length
  cols := c.length
  times x _ _ := combine c.kernel x id fun i l => (i + c.length - l) % c.length
  trans y _ _ := combine c.kernel y Scalar.conj fun j l => (j + l) % c.length

end CircularConvolution
end CompressedSensing
