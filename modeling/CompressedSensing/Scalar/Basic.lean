/-!
# Scalars

The library works over any type of scalars that offers the operations below; what it computes
is written once, and the exact field and the machine formats are two readings of the same text.

* `RealLike R`: a type of real numbers with tests for order, for "not a number" and for
  finiteness. Comparisons are Boolean because on a machine format both `a < b` and `b ≤ a` can
  fail.
* `Trigonometric W`: a working precision in which constants such as `cos (π / 8)` are computed.
* `Precision R W`: constants of `W` rounded to `R`.
* `Scalar T R`: entries of vectors over `T`, real or complex, whose magnitudes live in `R`.

Nothing here asserts a law. The theorems name the laws they need.
-/

namespace CompressedSensing

/-! ## Real numbers -/

/-- A type of real numbers, exact or rounded. -/
class RealLike (R : Type) extends Zero R, One R, Add R, Sub R, Mul R, Div R, Neg R, BEq R where
  /-- Whether `a < b`; no comparison with a NaN holds. -/
  lt : R → R → Bool
  /-- Whether `a ≤ b`; no comparison with a NaN holds. -/
  le : R → R → Bool
  sqrt : R → R
  abs : R → R
  /-- The hypotenuse `√(a² + b²)`, without overflow or underflow on the way. -/
  hypot : R → R → R
  isNaN : R → Bool
  /-- Neither infinite nor a NaN. -/
  isFinite : R → Bool
  ofNat : Nat → R
  /-- The constant `m · 10 ^ (-e)`, as `decimal m e`. -/
  decimal : Nat → Nat → R
  /-- A number drawn by a generator, which draws in double precision. -/
  ofFloat : Float → R
  /-- The distance from one to the next greater number. -/
  epsilon : R
  /-- The least positive number held to full precision. -/
  minPositive : R

namespace RealLike

variable {R : Type} [RealLike R]

/-- Equal to zero, of either sign. -/
@[inline] def isZero (a : R) : Bool := a == 0

/-- The greater of two numbers; a NaN gives way to the other number. -/
def max (a b : R) : R :=
  if isNaN a then b else if isNaN b then a else if lt a b then b else a

/-- The reciprocal `1 / a`. -/
@[inline] def recip (a : R) : R := 1 / a

end RealLike

/-- A type of real numbers with the circular functions. -/
class Trigonometric (W : Type) extends RealLike W where
  pi : W
  cos : W → W
  sin : W → W

/-- The reals `R` take their irrational constants from the working precision `W`. -/
class Precision (R : Type) (W : outParam Type) where
  /-- The number of `R` nearest to a number of `W`. -/
  narrow : W → R

/-- Real numbers with a decimal text. -/
class DecimalText (R : Type) where
  /-- Shortest digits that read back, never with an exponent: `0.5`, `-3`, `NaN`. -/
  plain : R → String
  /-- Shortest digits that read back, with a point or an exponent: `0.5`, `-3.0`, `1e-6`. -/
  pointed : R → String

/-! ## Entries of vectors -/

/-- A field of entries over the reals `R`, either `R` itself or its complex numbers. -/
class Scalar (T : Type) (R : outParam Type) extends
    Zero T, One T, Add T, Sub T, Mul T, Div T, Neg T, BEq T where
  /-- Complex conjugate; the identity on reals. -/
  conj : T → T
  /-- The modulus `|z|`. -/
  modulus : T → R
  /-- The squared modulus `|z|²`. -/
  normSq : T → R
  /-- Real part. -/
  re : T → R
  /-- Imaginary part; zero on reals. -/
  im : T → R
  /-- The entry `a + b i`; a real type drops `b`. -/
  ofParts : R → R → T
  /-- A real number as an entry. -/
  ofReal : R → T
  /-- Equal to zero. -/
  isZero : T → Bool
  /-- No component is infinite or a NaN. -/
  isFinite : T → Bool
  /-- Whether entries have an imaginary part. -/
  isComplex : Bool

namespace Scalar

variable {T R W : Type} [Scalar T R]

/-- Product with a real factor, taken as a product of two entries. -/
@[inline] def scaleReal (z : T) (r : R) : T := z * ofReal r

/-- Quotient by a real number, part by part. -/
@[inline] def divReal [RealLike R] (z : T) (r : R) : T := ofParts (re z / r) (im z / r)

/-- A constant of the working precision as an entry. -/
@[inline] def ofWide [Precision R W] (w : W) : T := ofReal (Precision.narrow w)

end Scalar
end CompressedSensing
