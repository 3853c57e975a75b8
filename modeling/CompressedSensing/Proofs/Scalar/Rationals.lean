import Mathlib
import CompressedSensing.Decimal.Binary
import CompressedSensing.Proofs.Scalar.Differences
/-!
# The rational numbers as scalars

Rational numbers are exact ordered numbers like the reals, and they can be computed with. A root is
the library's: the roots of numerator and denominator, each rounded down, so that squares have exact
ones. The order asks no more of a root than that it is not negative.

The instances are scoped to `CompressedSensing.Rationals`.
-/

namespace CompressedSensing
namespace Rationals

/-- The rational number that a machine number stands for. -/
def ofBinary : Binary → ℚ
  | .finite v => (if v.negative then -1 else 1) * v.mantissa * 2 ^ v.exponent
  | _ => 0

scoped instance : RealLike ℚ where
  lt a b := decide (a < b)
  le a b := decide (a ≤ b)
  sqrt := Rat.sqrt
  abs a := |a|
  hypot a b := Rat.sqrt (a * a + b * b)
  isNaN _ := false
  isFinite _ := true
  ofNat n := n
  decimal m e := m / 10 ^ e
  ofFloat a := ofBinary (Format.double.decode a.toBits.toNat)
  -- nothing is rounded, however small
  epsilon := 0
  minPositive := 0

scoped instance : Scalar ℚ ℚ where
  conj a := a
  modulus a := |a|
  normSq a := a * a
  re a := a
  im _ := 0
  ofParts a _ := a
  ofReal a := a
  isZero := RealLike.isZero
  isFinite _ := true
  isComplex := false

scoped instance : DecimalText ℚ where
  plain a := toString a
  pointed a := toString a

instance : OrderLaws ℚ := .of_linearOrder (fun _ => rfl) (fun _ _ => rfl) fun _ _ => rfl

instance : ExactOrder ℚ where
  isNaN_zero := rfl
  isNaN_of_sub _ _ _ := ⟨rfl, rfl⟩
  sub_le_zero _ _ h _ := decide_eq_true (sub_nonpos_of_le (of_decide_eq_true h))
  zero_le_mul _ _ h h' _ :=
    decide_eq_true (mul_nonneg (of_decide_eq_true h) (of_decide_eq_true h'))
  zero_le_sqrt a _ := decide_eq_true (Rat.sqrt_nonneg a)
  isNaN_eq_false _ := rfl

end Rationals
end CompressedSensing
