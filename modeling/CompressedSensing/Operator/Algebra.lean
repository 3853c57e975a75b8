import CompressedSensing.Operator.Basic
/-!
# The algebra of operators

Products, sums, multiples, adjoints and restrictions to columns. None of them forms a matrix:
each holds its operands and applies them one after the other. Products and sums check the shapes
of their operands when they are built; the others always exist.
-/

namespace CompressedSensing

variable {T R : Type} [RealLike R] [Scalar T R]

namespace Operator

/-! ## Products and sums -/

/-- The product `A B`, whose adjoint is `Bᴴ Aᴴ`. -/
@[specialize] def product (a b : Operator T) : Operator T where
  rows := a.rows
  cols := b.cols
  times x _ y := do a.times (← b.apply x) y
  trans y _ x := do b.trans (← a.applyAdjoint y) x

/-- The product `A B`, if `A` takes vectors of the length that `B` gives. -/
@[specialize] def compose? (a b : Operator T) : Except Error (Operator T) :=
  if a.cols = b.rows then .ok (product a b) else .error (.cannotCompose a.shape b.shape)

/-- The sum `A + B` on operands of one shape. -/
@[specialize] def plus (a b : Operator T) : Operator T where
  rows := a.rows
  cols := a.cols
  times x _ y := do
    let left ← a.times x y
    -- the image under `B` has a vector of its own before it is added
    return Signal.overlay (· + ·) left (← b.apply x)
  trans y _ x := do
    let left ← a.trans y x
    return Signal.overlay (· + ·) left (← b.applyAdjoint y)

/-- The sum `A + B`, if the shapes agree. -/
@[specialize] def add? (a b : Operator T) : Except Error (Operator T) :=
  if a.shape = b.shape then .ok (plus a b) else .error (.cannotAdd a.shape b.shape)

end Operator

/-! ## Multiples -/

/-- The multiple `α A`. -/
structure Scaled (T : Type) where
  inner : Operator T
  factor : T

namespace Scaled

/-- The negative `-A`. -/
def negate (a : Operator T) : Scaled T := ⟨a, -1⟩

/-- Multiplies the whole buffer after `A` has filled it; the adjoint has the conjugate factor. -/
@[specialize] def toOperator (s : Scaled T) : Operator T where
  rows := s.inner.rows
  cols := s.inner.cols
  times x _ y := return (← s.inner.times x y).map (· * s.factor)
  trans y _ x := return (← s.inner.trans y x).map (· * Scalar.conj s.factor)

end Scaled

/-! ## Adjoints -/

/-- The adjoint of something, which can be taken back. -/
structure Adjoint (α : Type) where
  inner : α

/-- The operator `Aᴴ`: the two maps change places. -/
def Adjoint.toOperator (a : Adjoint (Operator T)) : Operator T where
  rows := a.inner.cols
  cols := a.inner.rows
  times x _ y := a.inner.trans x y
  trans y _ x := a.inner.times y x

/-! ## Restrictions to columns -/

/-- The operator `A` on the vectors that vanish outside `support`, in the coordinates of
`support`. The support is meant to be valid; it is not checked. -/
structure ColumnSubset (T : Type) where
  inner : Operator T
  support : Array Nat

namespace ColumnSubset

/-- Maps `z` to `A (embed z)`; the adjoint of that map reads `Aᴴ y` at `support`. -/
@[specialize] def toOperator (c : ColumnSubset T) : Operator T where
  rows := c.inner.rows
  cols := c.support.size
  times z _ y := do c.inner.times (← Signal.embed c.inner.cols c.support z) y
  trans y {k} z := do
    let full ← c.inner.applyAdjoint y
    if Signal.inBounds (c.support.take k) full.size then
      return z.mapIdx fun i old => match c.support[i]? with
        | some j => full.getD j 0
        | none => old
    else throw .misuse

end ColumnSubset
end CompressedSensing
