import CompressedSensing.Recovery.Round
/-!
# Recovery

A run starts from the zero estimate and repeats rounds until a stopping rule fires. The answer
is the best estimate seen, the zero start included: rules look at the latest residual, the
answer at the smallest one.

Some inputs need no iteration: the zero measurement, sparsity zero, and a sparsity equal to the
length of the signal, which is plain least squares.
-/

namespace CompressedSensing

/-- The answer of a recovery. -/
structure Recovered (T R : Type) where
  /-- The best estimate. -/
  x : Signal T
  /-- Its support, ascending. -/
  support : Array Nat
  iterations : Nat
  /-- The norm of the residual after each iteration. -/
  residualNorms : Array R
  /-- The norm of the residual that the best estimate leaves. -/
  residualNorm : R
  converged : Bool
  reason : StopReason

/-- What a run remembers: the norms so far and the best estimate among zero and the iterates. -/
structure Record (T R : Type) where
  norms : Array R
  /-- The norm before the next iteration. -/
  previous : R
  bestX : Signal T
  bestSupport : Array Nat
  bestNorm : R

variable {T R : Type} [RealLike R] [Scalar T R]

namespace Record

/-- Before the first iteration the zero signal is the best estimate. -/
def start (n : Nat) (measurement : R) : Record T R :=
  ⟨#[], measurement, Signal.zeros n, #[], measurement⟩

/-- Adds an iterate, which becomes the best estimate if its residual is strictly smaller. -/
def push (r : Record T R) (e : Estimate T) (norm : R) : Record T R :=
  if RealLike.lt norm r.bestNorm then
    ⟨r.norms.push norm, norm, e.x, e.support, norm⟩
  else ⟨r.norms.push norm, norm, r.bestX, r.bestSupport, r.bestNorm⟩

/-- The answer of a run that ends here. -/
def finish (r : Record T R) (reason : StopReason) : Recovered T R where
  x := r.bestX
  support := r.bestSupport
  iterations := r.norms.size
  residualNorms := r.norms
  residualNorm := r.bestNorm
  converged := reason.isConverged
  reason := reason

end Record

/-- Whether a method treats a repeated support as final: its next estimate depends on the
support alone. -/
def Method.stopsOnRepeat : Method R → Bool
  | .htp _ => true
  | _ => false

/-- The reasons to stop after iteration `i`, which went from estimate `e` to `e'`. -/
@[specialize] def Method.reasons (m : Method R) (c : Convergence R) (measurement previous : R)
    (i : Nat) (e e' : Estimate T) : StopReason :=
  (c.check (Signal.norm e'.residual) previous measurement i).union
    { supportStable := m.stopsOnRepeat && 1 < i && e'.support == e.support }

/-- Repeats rounds, at most `remaining` of them, from an estimate and the record that ends with
it. -/
@[specialize] def Problem.iterate (p : Problem T) (m : Method R) (c : Convergence R)
    (measurement : R) :
    (remaining : Nat) → Record T R → Estimate T → Solving (Recovered T R)
  | 0, r, _ => return r.finish .none
  | remaining + 1, r, e => do
    let e' ← p.round m e
    -- the rules compare with the norm before, which the record then forgets
    let reason := m.reasons c measurement r.previous (r.norms.size + 1) e e'
    let r := r.push e' (Signal.norm e'.residual)
    if reason.shouldStop then return r.finish reason
    else p.iterate m c measurement remaining r e'

/-- An answer that needed no iteration. -/
def Recovered.direct (x : Signal T) (support : Array Nat) (residualNorm : R) (converged : Bool) :
    Recovered T R where
  x := x
  support := support
  iterations := 0
  residualNorms := #[]
  residualNorm := residualNorm
  converged := converged
  reason := { directSolve := converged }

namespace Problem

/-- Least squares on all columns, which counts as one iteration. -/
@[specialize] def solveAll (p : Problem T) : Solving (Recovered T R) := do
  let support := Array.range p.operator.cols
  let x ← p.fit support
  let residual ← Solving.ofExcept (p.operator.residual p.measurement x)
  let norm : R := Signal.norm residual
  return { Recovered.direct x support norm true with iterations := 1, residualNorms := #[norm] }

/-- The first entry of the measurement that is infinite or not a number. -/
@[specialize] def nonfiniteEntry? (p : Problem T) : Option Nat :=
  p.measurement.findIdx? fun v => !Scalar.isFinite v

/-- Rejects options and measurements that no run can start from; the first fault is reported. -/
@[specialize] def check [DecimalText R] (p : Problem T) (o : Options R) : Except Error Unit := do
  o.validate
  if p.measurement.size ≠ p.operator.rows then
    throw (.measurementLength p.measurement.size p.operator.rows)
  if p.operator.cols < p.sparsity then
    throw (.sparsityTooLarge p.sparsity p.operator.cols)
  match p.nonfiniteEntry? with
  | some i => throw (.nonfiniteMeasurement i)
  | none => return ()

/-- The iterating part of a recovery. -/
@[specialize] def pursue (p : Problem T) (alg : Algorithm) (o : Options R) :
    Solving (Recovered T R) := do
  let m ← Solving.ofExcept (alg.method p.operator o)
  let measurement : R := Signal.norm p.measurement
  p.iterate m o.convergence measurement o.maxIterations
    (Record.start p.operator.cols measurement) p.start

/-- Recovers a sparse signal by the given algorithm. -/
@[specialize] def recover [DecimalText R] (p : Problem T) (alg : Algorithm) (o : Options R) :
    Solving (Recovered T R) := do
  Solving.ofExcept (p.check o)
  let n := p.operator.cols
  let size : R := Signal.norm p.measurement
  if RealLike.isZero size then return .direct (Signal.zeros n) #[] size true
  if p.sparsity = 0 then
    return .direct (Signal.zeros n) #[] size (RealLike.le size o.tolerance)
  if p.sparsity = n then p.solveAll
  else p.pursue alg o

end Problem
end CompressedSensing
