import CompressedSensing.Recovery.Round
/-!
# The workbench

The moves of the recovery algorithms one at a time: an operator and a measurement, an estimate
with its support, and the proxy `Aᴴ (b - A x)` where it has been computed. A move that fails
leaves the bench as it was, because it yields no new one.

The bench does not check lengths; a move does with them what its operations do.
-/

namespace CompressedSensing

/-- The state between moves. -/
structure Workbench (T : Type) where
  operator : Operator T
  measurement : Signal T
  estimate : Signal T
  proxy : Signal T
  support : Array Nat

namespace Workbench

variable {T R : Type} [RealLike R] [Scalar T R]

/-- A bench with the zero estimate; without a measurement it has the zero measurement. -/
def start (a : Operator T) (b? : Option (Signal T)) : Workbench T :=
  ⟨a, b?.getD (Signal.zeros a.rows), Signal.zeros a.cols, #[], #[]⟩

/-! ## Changing the operator -/

/-- Another operator on the same measurement, from the zero estimate. -/
def withOperator (w : Workbench T) (a : Operator T) : Workbench T := start a (some w.measurement)

/-- The operator followed by `a`. -/
def composeOuter (w : Workbench T) (a : Operator T) : Except Error (Workbench T) :=
  return w.withOperator (← a.compose? w.operator)

/-- The operator preceded by `a`. -/
def composeInner (w : Workbench T) (a : Operator T) : Except Error (Workbench T) :=
  return w.withOperator (← w.operator.compose? a)

/-- The operator plus `a`. -/
def plus (w : Workbench T) (a : Operator T) : Except Error (Workbench T) :=
  return w.withOperator (← w.operator.add? a)

/-- A multiple of the operator. -/
def scaleOperator (w : Workbench T) (α : T) : Workbench T :=
  w.withOperator (Scaled.toOperator ⟨w.operator, α⟩)

/-- The negative of the operator. -/
def negateOperator (w : Workbench T) : Workbench T :=
  w.withOperator (Scaled.negate w.operator).toOperator

/-- The adjoint of the operator. -/
def adjointOperator (w : Workbench T) : Workbench T :=
  w.withOperator (Adjoint.toOperator ⟨w.operator⟩)

/-- The operator on the columns of a valid support. -/
def columnsOperator (w : Workbench T) (support : Array Nat) : Except Error (Workbench T) := do
  Support.validate support w.operator.cols
  return w.withOperator (ColumnSubset.toOperator ⟨w.operator, support⟩)

/-! ## Changing measurement, estimate and support -/

/-- Another measurement. -/
def withMeasurement (w : Workbench T) (b : Signal T) : Workbench T := { w with measurement := b }

/-- Another estimate, with the support of its nonzero entries. -/
def withEstimate (w : Workbench T) (x : Signal T) : Workbench T :=
  { w with estimate := x, support := Signal.nonzeroSupport x }

/-- Another support, if it is valid. -/
def withSupport (w : Workbench T) (support : Array Nat) : Except Error (Workbench T) := do
  Support.validate support w.operator.cols
  return { w with support := support }

/-- The estimate times `α`. -/
def scale (w : Workbench T) (α : T) : Workbench T :=
  { w with estimate := Signal.scale α w.estimate }

/-- The measurement that the estimate explains. -/
def measureEstimate (w : Workbench T) : Except Error (Workbench T) :=
  return { w with measurement := ← w.operator.apply w.estimate }

/-! ## The moves of the algorithms -/

/-- The residual `b - A x` of the estimate. -/
def residual (w : Workbench T) : Except Error (Signal T) :=
  w.operator.residual w.measurement w.estimate

/-- Computes the proxy. -/
def correlate (w : Workbench T) : Except Error (Workbench T) :=
  return { w with proxy := ← w.operator.applyAdjoint (← w.residual) }

/-- Moves the estimate along the proxy and keeps its `k` largest entries. -/
def step (w : Workbench T) (μ : T) (k : Nat) : Except Error (Workbench T) := do
  let t := Signal.hardThreshold (← Signal.axpy μ w.proxy w.estimate) k
  return { w with estimate := t.toDense, support := t.indices }

/-- The `k` largest entries of the proxy outside the support. -/
def candidates (w : Workbench T) (k : Nat) : Array Nat :=
  Support.largestExcluding w.proxy k w.support

/-- Merges indices into the support. -/
def merge (w : Workbench T) (indices : Array Nat) : Workbench T :=
  { w with support := Support.merge w.support indices }

/-- Fits the estimate on the support, in a session of its own. -/
def solve (w : Workbench T) (backend : Backend T) : Except Error (Workbench T) := do
  let x ← ((w.operator.solveDenseOn w.measurement w.support backend).run 0).1
  return { w with estimate := x }

/-- Keeps the `k` largest entries of the estimate among those on the support. -/
def prune (w : Workbench T) (k : Nat) : Except Error (Workbench T) := do
  let z ← Signal.gather w.estimate w.support
  let keep := Support.largest z k
  let support ← Problem.choose w.support keep
  let x ← Signal.embed w.operator.cols support (← Signal.gather z keep)
  return { w with estimate := x, support := support }

/-- The distance of the estimate from `y`. -/
def distance (w : Workbench T) (y : Signal T) : Except Error R := Signal.distance w.estimate y

end Workbench
end CompressedSensing
