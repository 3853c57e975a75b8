import CompressedSensing.Scalar.ComplexOver
import CompressedSensing.Decimal.Layout
/-!
# The machine formats

Double and single precision as scalars. Constants are computed in double precision and then
rounded, so single precision never sees a constant rounded in two different ways.

The hypotenuse in double precision takes a first value from `√(a² + b²)` and removes the
rounding error of the square root's argument, after moving operands near the ends of the
exponent range to its middle. Single precision computes in double precision, where squares of
singles are exact.
-/

namespace CompressedSensing
namespace Hypotenuse

/-- The hypotenuse for `a ≥ b ≥ 0` well inside the exponent range: one Newton correction, with
the error `h² - a² - b²` written so that the leading terms cancel exactly. -/
def corrected (a b : Float) : Float :=
  let h := Float.sqrt (a * a + b * b)
  let error :=
    if h ≤ 2.0 * b then
      let d := h - b
      a * (2.0 * d - a) + (d - 2.0 * (a - b)) * d
    else
      let d := h - a
      2.0 * d * (a - 2.0 * b) + ((4.0 * d - b) * b + d * d)
  h - error / (2.0 * h)

/-- The factor `2 ^ (-600)` between the ends of the exponent range and its middle. -/
def shift : Float := Float.scaleB 1.0 (-600)

/-- Operands whose ratio is below `2 ^ (-54)` do not interact. -/
def negligible : Float := Float.scaleB 1.0 (-54)

/-- The hypotenuse `√(a² + b²)`; an infinite operand decides, whatever the other one is. -/
def double (x y : Float) : Float :=
  if !x.isFinite || !y.isFinite then
    if x.isInf || y.isInf then 1.0 / 0.0 else x + y
  else
    let x := x.abs
    let y := y.abs
    let a := if x < y then y else x
    let b := if x < y then x else y
    if a > Float.scaleB 1.0 511 then
      if b ≤ a * negligible then a + b else corrected (a * shift) (b * shift) / shift
    else if b < Float.scaleB 1.0 (-459) then
      if a ≥ b / negligible then a + b else corrected (a / shift) (b / shift) * shift
    else if b ≤ a * negligible then a + b
    else corrected a b

/-- The hypotenuse in single precision. -/
def single (x y : Float32) : Float32 :=
  if x.isInf || y.isInf then 1.0 / 0.0
  else
    let x := x.toFloat
    let y := y.toFloat
    (Float.sqrt (x * x + y * y)).toFloat32

end Hypotenuse

/-! ## Double precision -/

instance : Trigonometric Float where
  zero := 0.0
  one := 1.0
  lt a b := decide (a < b)
  le a b := decide (a ≤ b)
  sqrt := Float.sqrt
  abs := Float.abs
  hypot := Hypotenuse.double
  isNaN := Float.isNaN
  isFinite := Float.isFinite
  ofNat := Float.ofNat
  decimal m e := Float.ofScientific m true e
  ofFloat a := a
  epsilon := Float.scaleB 1.0 (-52)
  minPositive := Float.scaleB 1.0 (-1022)
  pi := 3.141592653589793
  cos := Float.cos
  sin := Float.sin

instance : Precision Float Float where
  narrow a := a

instance : Scalar Float Float where
  zero := 0.0
  one := 1.0
  conj a := a
  modulus := Float.abs
  normSq a := a * a
  re a := a
  im _ := 0.0
  ofParts a _ := a
  ofReal a := a
  isZero := RealLike.isZero
  isFinite := Float.isFinite
  isComplex := false

instance : DecimalText Float where
  plain a := (Format.double.decode a.toBits.toNat).plainText Format.double
  pointed a := (Format.double.decode a.toBits.toNat).pointedText Format.double

/-! ## Single precision -/

instance : RealLike Float32 where
  zero := 0.0
  one := 1.0
  lt a b := decide (a < b)
  le a b := decide (a ≤ b)
  sqrt := Float32.sqrt
  abs := Float32.abs
  hypot := Hypotenuse.single
  isNaN := Float32.isNaN
  isFinite := Float32.isFinite
  ofNat n := (Float.ofNat n).toFloat32
  decimal m e := (Float.ofScientific m true e).toFloat32
  ofFloat := Float.toFloat32
  epsilon := Float32.scaleB 1.0 (-23)
  minPositive := Float32.scaleB 1.0 (-126)

instance : Precision Float32 Float where
  narrow := Float.toFloat32

instance : Scalar Float32 Float32 where
  zero := 0.0
  one := 1.0
  conj a := a
  modulus := Float32.abs
  normSq a := a * a
  re a := a
  im _ := 0.0
  ofParts a _ := a
  ofReal a := a
  isZero := RealLike.isZero
  isFinite := Float32.isFinite
  isComplex := false

instance : DecimalText Float32 where
  plain a := (Format.single.decode a.toBits.toNat).plainText Format.single
  pointed a := (Format.single.decode a.toBits.toNat).pointedText Format.single

end CompressedSensing
