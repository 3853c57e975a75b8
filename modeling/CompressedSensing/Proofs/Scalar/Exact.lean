import Mathlib
import CompressedSensing.Scalar.Basic
/-!
# Exact scalars

`ExactScalar T` says that the operations of a type of entries are exact: they form a commutative
ring, conjugation is an involution of that ring, and real constants are their own conjugates.
Nothing is said about division, moduli or comparisons, which identities between inner products
do not need.

The ring and star structures that a theorem needs are read off the entries' own operations by
two instances, so that `+` and `*` keep one meaning. They are scoped: open
`CompressedSensing.ExactScalar` to use them.
-/

namespace CompressedSensing

/-- Entries that form a commutative ring with conjugation. -/
class ExactScalar (T : Type) {R : outParam Type} [Scalar T R] : Prop where
  add_assoc (a b c : T) : a + b + c = a + (b + c)
  add_comm (a b : T) : a + b = b + a
  zero_add (a : T) : 0 + a = a
  neg_add_cancel (a : T) : -a + a = 0
  sub_eq_add_neg (a b : T) : a - b = a + -b
  mul_assoc (a b c : T) : a * b * c = a * (b * c)
  mul_comm (a b : T) : a * b = b * a
  one_mul (a : T) : 1 * a = a
  mul_add (a b c : T) : a * (b + c) = a * b + a * c
  conj_conj (a : T) : Scalar.conj (Scalar.conj a) = a
  conj_add (a b : T) : Scalar.conj (a + b) = Scalar.conj a + Scalar.conj b
  conj_mul (a b : T) : Scalar.conj (a * b) = Scalar.conj a * Scalar.conj b
  /-- A real constant is its own conjugate. -/
  conj_ofReal (r : R) : Scalar.conj (Scalar.ofReal r : T) = Scalar.ofReal r

namespace ExactScalar

variable {T R : Type} [Scalar T R] [ExactScalar T]

/-- The additive group of the entries. -/
@[reducible] def toAddCommGroup : AddCommGroup T where
  add_assoc := add_assoc
  add_comm := add_comm
  zero_add := zero_add
  add_zero a := (add_comm a 0).trans (zero_add a)
  neg_add_cancel := neg_add_cancel
  sub_eq_add_neg := sub_eq_add_neg
  nsmul := nsmulRec
  zsmul := zsmulRec

/-- The ring of the entries. -/
scoped instance toCommRing : CommRing T :=
  letI := toAddCommGroup (T := T)
  have zero_mul (a : T) : 0 * a = 0 := by
    have h : a * 0 + a * 0 = a * 0 + 0 := by rw [← mul_add, zero_add, add_zero]
    rw [mul_comm]
    exact add_left_cancel h
  { toAddCommGroup (T := T) with
    mul_assoc := mul_assoc
    mul_comm := mul_comm
    one_mul := one_mul
    mul_one := fun a => (mul_comm a 1).trans (one_mul a)
    left_distrib := mul_add
    right_distrib := fun a b c => by
      rw [mul_comm (a + b) c, mul_add, mul_comm c a, mul_comm c b]
    zero_mul := zero_mul
    mul_zero := fun a => (mul_comm a 0).trans (zero_mul a) }

/-- Conjugation as the star of the ring. -/
scoped instance toStarRing : StarRing T where
  star := Scalar.conj
  star_involutive := conj_conj
  star_mul a b := (conj_mul a b).trans (mul_comm _ _)
  star_add := conj_add

@[simp] theorem star_ofReal (r : R) : star (Scalar.ofReal r : T) = Scalar.ofReal r :=
  conj_ofReal r

end ExactScalar
end CompressedSensing
