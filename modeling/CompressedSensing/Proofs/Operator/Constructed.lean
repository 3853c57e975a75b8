import CompressedSensing.Operator.Algebra
import CompressedSensing.Operator.Elementary
import CompressedSensing.Operator.Transform.Convolution
import CompressedSensing.Operator.Transform.Cosine
import CompressedSensing.Operator.Transform.WalshHadamard
/-!
# The operator language

The operators that can be built from matrices, elementary operators and transforms by the
combinators, to any depth. Whatever a constructor checks is asked for here: the data types of row
selections, Walsh-Hadamard transforms and convolutions carry their checks, and products and sums
come from the checked constructors. A restriction to columns checks nothing, so what is asked of its
support is a parameter: `Constructed` operators have valid supports, `Accepted` ones supports that
are in range.

An operator that is shared or borrowed is the same operator, so there is nothing to add for it.
-/

namespace CompressedSensing
namespace Operator

variable {T R W : Type} [Trigonometric W] [Precision R W] [Scalar T R]

/-- The operators of the language, where a support that `n` columns are restricted to satisfies
`admits n`. -/
inductive BuiltWith (admits : Nat → Array Nat → Prop) : Operator T → Prop where
  | dense {m n : Nat} (a : DenseMatrix T m n) : BuiltWith admits (Operator.dense a)
  | identity (n : Nat) : BuiltWith admits (Operator.identity n)
  | diagonal (d : Diagonal T) : BuiltWith admits d.toOperator
  | rowSelection (s : RowSelection) : BuiltWith admits s.toOperator
  | walshHadamard (t : WalshHadamard) : BuiltWith admits (t.toOperator (W := W))
  | cosine (n : Nat) : BuiltWith admits (CosineTransform.ofSize n : CosineTransform W).toOperator
  | convolution (c : CircularConvolution T) : BuiltWith admits c.toOperator
  | compose {a b c : Operator T} (ha : BuiltWith admits a) (hb : BuiltWith admits b)
      (h : a.compose? b = .ok c) : BuiltWith admits c
  | add {a b c : Operator T} (ha : BuiltWith admits a) (hb : BuiltWith admits b)
      (h : a.add? b = .ok c) : BuiltWith admits c
  | scale {a : Operator T} (ha : BuiltWith admits a) (α : T) :
      BuiltWith admits (Scaled.toOperator ⟨a, α⟩)
  | negate {a : Operator T} (ha : BuiltWith admits a) :
      BuiltWith admits (Scaled.negate a).toOperator
  | adjoint {a : Operator T} (ha : BuiltWith admits a) : BuiltWith admits (Adjoint.toOperator ⟨a⟩)
  | columnSubset {a : Operator T} (ha : BuiltWith admits a) {support : Array Nat}
      (h : admits a.cols support) : BuiltWith admits (ColumnSubset.toOperator ⟨a, support⟩)

/-- The operators that restrict to valid supports. -/
abbrev Constructed (a : Operator T) : Prop := a.BuiltWith (W := W) Support.Valid

/-- The operators that restrict to supports in range. An index may be repeated. -/
abbrev Accepted (a : Operator T) : Prop :=
  a.BuiltWith (W := W) fun n support => ∀ j ∈ support, j < n

/-- A product of operators whose shapes fit. -/
theorem BuiltWith.product {admits : Nat → Array Nat → Prop} {a b : Operator T}
    (ha : a.BuiltWith (W := W) admits) (hb : b.BuiltWith (W := W) admits) (h : a.cols = b.rows) :
    (Operator.product a b).BuiltWith (W := W) admits :=
  .compose ha hb (if_pos h)

end Operator
end CompressedSensing
