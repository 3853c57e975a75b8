import CompressedSensing.Recovery.Algorithm
import CompressedSensing.Recovery.GradientStep
import CompressedSensing.Support.Merge
import CompressedSensing.Support.Restricted
/-!
# Rounds

One round of each algorithm takes an estimate, whose residual it has, to the next one.

* Iterative hard thresholding takes a gradient step.
* Hard thresholding pursuit keeps only the support of that step and fits the coefficients.
* Compressive sampling matching pursuit merges the `2k` columns that correlate best with the
  residual into the support, fits, and prunes the fit to `k` entries.
* Subspace pursuit merges `k` columns, fits, prunes, and fits again on what is left.

The residual is computed from scratch every time.
-/

namespace CompressedSensing

/-- What is to be recovered from what, and with what help. -/
structure Problem (T : Type) where
  operator : Operator T
  measurement : Signal T
  /-- The number of nonzero entries wanted. -/
  sparsity : Nat
  backend : Backend T

/-- An estimate with its support and the residual `b - A x`. -/
structure Estimate (T : Type) where
  x : Signal T
  support : Array Nat
  residual : Signal T

/-- An algorithm made ready for an operator. -/
inductive Method (R : Type) where
  | iht (rule : StepRule R)
  | htp (rule : StepRule R)
  | cosamp
  | subspacePursuit

variable {T R : Type} [RealLike R] [Scalar T R]

/-- Makes an algorithm ready. Only the algorithms that take gradient steps look at the step
size. -/
@[specialize] def Algorithm.method (alg : Algorithm) (a : Operator T) (o : Options R) :
    Except Error (Method R) :=
  match alg with
  | .iht => return .iht (← GradientStep.resolve a o)
  | .htp => return .htp (← GradientStep.resolve a o)
  | .cosamp => return .cosamp
  | .subspacePursuit => return .subspacePursuit

namespace Problem

/-- The zero estimate, whose residual is the measurement. -/
def start (p : Problem T) : Estimate T :=
  ⟨Signal.zeros p.operator.cols, #[], p.measurement⟩

/-- A signal and its support with the residual they leave. -/
@[specialize] def estimate (p : Problem T) (x : Signal T) (support : Array Nat) :
    Except Error (Estimate T) :=
  return ⟨x, support, ← p.operator.residual p.measurement x⟩

/-- The gradient step from an estimate. -/
@[specialize] def gradientStep (p : Problem T) (rule : StepRule R) (e : Estimate T) :
    Except Error (Thresholded T) := do
  let g ← p.operator.applyAdjoint e.residual
  GradientStep.advance rule p.operator e.x e.support g p.sparsity

/-- The support of an estimate with up to `count` more columns: those outside the support that
correlate best with the residual. -/
@[specialize] def expand (p : Problem T) (count : Nat) (e : Estimate T) :
    Except Error (Array Nat) := do
  let proxy ← p.operator.applyAdjoint e.residual
  let n := p.operator.cols
  -- no columns are left to count for a support that is longer than all of them
  if n < e.support.size then throw .misuse
  let fresh := Support.largestExcluding proxy (min count (n - e.support.size)) e.support
  return Support.merge e.support fresh

/-- The entries of a support at the given places. -/
def choose (support places : Array Nat) : Except Error (Array Nat) :=
  if places.all (· < support.size) then .ok (places.map fun i => support.getD i 0)
  else .error .misuse

/-- The coefficients fitted on a support. -/
@[specialize] def fit (p : Problem T) (support : Array Nat) : Solving (Signal T) :=
  p.operator.solveOn p.measurement support p.backend

/-! ## The four rounds -/

@[specialize] def ihtRound (p : Problem T) (rule : StepRule R) (e : Estimate T) :
    Except Error (Estimate T) := do
  let next ← p.gradientStep rule e
  p.estimate next.toDense next.indices

@[specialize] def htpRound (p : Problem T) (rule : StepRule R) (e : Estimate T) :
    Solving (Estimate T) := do
  -- of the gradient step only the support is kept
  let candidate := (← Solving.ofExcept (p.gradientStep rule e)).indices
  let z ← p.fit candidate
  Solving.ofExcept do
    p.estimate (← Signal.embed p.operator.cols candidate z) candidate

/-- The fit on a merged support pruned to its largest coefficients. -/
@[specialize] def prune (p : Problem T) (merged : Array Nat) (z : Signal T) :
    Except Error (Estimate T) := do
  let keep := Support.largest z p.sparsity
  let support ← choose merged keep
  p.estimate (← Signal.embed p.operator.cols support (← Signal.gather z keep)) support

@[specialize] def cosampRound (p : Problem T) (e : Estimate T) : Solving (Estimate T) := do
  let merged ← Solving.ofExcept (p.expand (2 * p.sparsity) e)
  let z ← p.fit merged
  Solving.ofExcept (p.prune merged z)

/-- Fits on a merged support, and once more on the part that is kept unless all of it is. -/
@[specialize] def refit (p : Problem T) (merged : Array Nat) :
    Solving (Array Nat × Signal T) := do
  let z ← p.fit merged
  let keep := Support.largest z p.sparsity
  if keep.size = merged.size then return (merged, z)
  let support ← Solving.ofExcept (choose merged keep)
  return (support, ← p.fit support)

@[specialize] def subspacePursuitRound (p : Problem T) (e : Estimate T) :
    Solving (Estimate T) := do
  let merged ← Solving.ofExcept (p.expand p.sparsity e)
  let (support, z) ← p.refit merged
  Solving.ofExcept do
    p.estimate (← Signal.embed p.operator.cols support z) support

/-- One round. -/
@[specialize] def round (p : Problem T) (m : Method R) (e : Estimate T) :
    Solving (Estimate T) :=
  match m with
  | .iht rule => Solving.ofExcept (p.ihtRound rule e)
  | .htp rule => p.htpRound rule e
  | .cosamp => p.cosampRound e
  | .subspacePursuit => p.subspacePursuitRound e

end Problem
end CompressedSensing
