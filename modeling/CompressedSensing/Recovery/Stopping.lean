import CompressedSensing.Scalar.Basic
/-!
# Stopping

After each iteration three rules look at the norm of the residual and at the number of the
iteration; any of them ends the run, and several may fire at once. `StopReason` is the set of
rules that fired, together with two reasons that the rules do not know about: a support that
repeats, and an answer that needed no iteration.
-/

namespace CompressedSensing

/-- Why a run ended: any combination of five reasons. -/
structure StopReason where
  /-- The residual is within the tolerance. -/
  residualTolerance : Bool := false
  /-- The residual has not dropped by more than the stagnation threshold. -/
  stagnation : Bool := false
  /-- The support is that of the iteration before. -/
  supportStable : Bool := false
  /-- The iterations are used up. -/
  maxIterations : Bool := false
  /-- The answer was found without iterating. -/
  directSolve : Bool := false
deriving DecidableEq, Repr

namespace StopReason

/-- No reason. -/
def none : StopReason := {}

/-- The reasons of either. -/
def union (a b : StopReason) : StopReason where
  residualTolerance := a.residualTolerance || b.residualTolerance
  stagnation := a.stagnation || b.stagnation
  supportStable := a.supportStable || b.supportStable
  maxIterations := a.maxIterations || b.maxIterations
  directSolve := a.directSolve || b.directSolve

/-- Whether there is a reason other than the iteration cap. -/
def isConverged (r : StopReason) : Bool :=
  r.residualTolerance || r.stagnation || r.supportStable || r.directSolve

/-- Whether there is any reason. -/
def shouldStop (r : StopReason) : Bool := r.isConverged || r.maxIterations

/-- The reasons as a list, in the order of their bits. -/
def toList (r : StopReason) : List Bool :=
  [r.residualTolerance, r.stagnation, r.supportStable, r.maxIterations, r.directSolve]

/-- The reasons as a number, bit by bit from the residual tolerance upwards. -/
def toBits (r : StopReason) : Nat := r.toList.foldr (fun flag n => flag.toNat + 2 * n) 0

/-- The reasons whose bits are set; higher bits mean nothing. -/
def ofBits (n : Nat) : StopReason :=
  ⟨n.testBit 0, n.testBit 1, n.testBit 2, n.testBit 3, n.testBit 4⟩

@[simp] theorem ofBits_toBits (r : StopReason) : ofBits r.toBits = r := by
  rcases r with ⟨a, b, c, d, e⟩
  revert a b c d e
  decide

end StopReason

/-- The stopping rules. -/
structure Convergence (R : Type) where
  /-- The residual is small enough at this multiple of the measurement. -/
  tolerance : R
  /-- The last iteration. -/
  maxIterations : Nat
  /-- The relative drop of the residual that keeps a run going. -/
  stagnation : R

/-- The rules that fire after iteration `i`, counted from one, when the residual norm went from
`previous` to `current`. A residual that grows counts as stagnation, and so does one that stays
the same even if the threshold is zero. -/
def Convergence.check {R : Type} [RealLike R] (c : Convergence R)
    (current previous measurement : R) (i : Nat) : StopReason where
  residualTolerance := RealLike.le current (c.tolerance * measurement)
  stagnation := RealLike.le (previous - current) (c.stagnation * previous)
  maxIterations := c.maxIterations ≤ i

end CompressedSensing
