import CompressedSensing.Error
import CompressedSensing.Recovery.Stopping
/-!
# Options of a recovery

The stopping rules, and the gradient step of the algorithms that take one.
-/

namespace CompressedSensing

/-- The length `μ` of the gradient step `x + μ Aᴴ r`. -/
inductive StepSize (R : Type) where
  /-- Always `μ`. -/
  | fixed (μ : R)
  /-- Always `0.9 / ‖A‖²`, by an estimate of the norm. -/
  | operatorNorm
  /-- Fitted to the current support and shortened when the support changes. -/
  | normalized

/-- The options. -/
structure Options (R : Type) where
  /-- The iteration cap, at least one. -/
  maxIterations : Nat
  /-- A run ends with a residual of at most this multiple of the measurement. -/
  tolerance : R
  /-- A run ends when the residual drops by at most this fraction of itself. -/
  stagnation : R
  step : StepSize R
  /-- Power iterations behind `StepSize.operatorNorm`. -/
  normIterations : Nat

namespace Options

variable {R : Type} [RealLike R]

/-- One hundred iterations, thresholds of `10⁻⁶`, the normalized step. -/
def standard : Options R where
  maxIterations := 100
  tolerance := RealLike.decimal 1 6
  stagnation := RealLike.decimal 1 6
  step := .normalized
  normIterations := 50

/-- Standard options with a tolerance and an iteration cap of one's own. -/
def withLimits (tolerance : R) (maxIterations : Nat) : Options R :=
  { standard with tolerance := tolerance, maxIterations := maxIterations }

/-- A threshold must be a number and not negative. -/
def isThreshold (a : R) : Bool := !(RealLike.isNaN a || RealLike.lt a 0)

/-- Rejects options that no algorithm can run with; the first fault is reported. -/
def validate [DecimalText R] (o : Options R) : Except Error Unit :=
  if o.maxIterations = 0 then .error .noIterations
  else if !isThreshold o.tolerance then .error (.badTolerance (DecimalText.plain o.tolerance))
  else if !isThreshold o.stagnation then .error (.badStagnation (DecimalText.plain o.stagnation))
  else match o.step with
    | .fixed μ =>
      if RealLike.lt 0 μ && RealLike.isFinite μ then .ok ()
      else .error (.badStep (DecimalText.plain μ))
    | _ => .ok ()

/-- The stopping rules among the options. -/
def convergence (o : Options R) : Convergence R := ⟨o.tolerance, o.maxIterations, o.stagnation⟩

end Options

instance {R : Type} [BEq R] : BEq (StepSize R) where
  beq
    | .fixed a, .fixed b => a == b
    | .operatorNorm, .operatorNorm => true
    | .normalized, .normalized => true
    | _, _ => false

/-- Options are equal when their numbers are; a NaN equals nothing. -/
instance {R : Type} [BEq R] : BEq (Options R) where
  beq a b := a.maxIterations == b.maxIterations && a.tolerance == b.tolerance
    && a.stagnation == b.stagnation && a.step == b.step && a.normIterations == b.normIterations

end CompressedSensing
