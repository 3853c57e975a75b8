import CompressedSensing.Scalar.Basic
/-!
# Complex numbers over a type of reals

`ComplexOver R` is the rectangular form. The product is the textbook one, two products and a
sum per component, and a quotient multiplies by the conjugate and divides by the squared
modulus; over rounded reals these formulas, not the field they come from, fix the answer.
-/

namespace CompressedSensing

/-- The complex number `re + im · i`. -/
structure ComplexOver (R : Type) where
  re : R
  im : R
deriving Inhabited

namespace ComplexOver

variable {R : Type} [RealLike R]

@[inline] def add (z w : ComplexOver R) : ComplexOver R := ⟨z.re + w.re, z.im + w.im⟩

@[inline] def sub (z w : ComplexOver R) : ComplexOver R := ⟨z.re - w.re, z.im - w.im⟩

@[inline] def mul (z w : ComplexOver R) : ComplexOver R :=
  ⟨z.re * w.re - z.im * w.im, z.re * w.im + z.im * w.re⟩

@[inline] def neg (z : ComplexOver R) : ComplexOver R := ⟨-z.re, -z.im⟩

@[inline] def conj (z : ComplexOver R) : ComplexOver R := ⟨z.re, -z.im⟩

@[inline] def normSq (z : ComplexOver R) : R := z.re * z.re + z.im * z.im

def div (z w : ComplexOver R) : ComplexOver R :=
  ⟨(z.re * w.re + z.im * w.im) / w.normSq, (z.im * w.re - z.re * w.im) / w.normSq⟩

/-- The number `r · (cos θ + i sin θ)`. -/
def ofPolar {W : Type} [Trigonometric W] (r θ : W) : ComplexOver W :=
  ⟨r * Trigonometric.cos θ, r * Trigonometric.sin θ⟩

instance : Scalar (ComplexOver R) R where
  zero := ⟨0, 0⟩
  one := ⟨1, 0⟩
  add := add
  sub := sub
  mul := mul
  div := div
  neg := neg
  beq z w := z.re == w.re && z.im == w.im
  conj := conj
  modulus z := RealLike.hypot z.re z.im
  normSq := normSq
  re := ComplexOver.re
  im := ComplexOver.im
  ofParts a b := ⟨a, b⟩
  ofReal a := ⟨a, 0⟩
  isZero z := RealLike.isZero z.re && RealLike.isZero z.im
  isFinite z := RealLike.isFinite z.re && RealLike.isFinite z.im
  isComplex := true

end ComplexOver
end CompressedSensing
