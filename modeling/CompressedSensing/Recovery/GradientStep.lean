import CompressedSensing.Operator.Diagnostics
import CompressedSensing.Recovery.Options
import CompressedSensing.Support.Selection
/-!
# Gradient steps

`x ↦ H_k (x + μ g)` along `g = Aᴴ r`, with `H_k` the hard thresholding to `k` entries. The step
is constant, or normalized: `μ = ‖g_S‖² / ‖A g_S‖²` on the current support `S` is the best step
as long as the support stays. When thresholding changes the support, `μ` is halved until it is
at most `(1 - c) ‖Δx‖² / ‖A Δx‖²` for the move `Δx` it makes, which keeps the residual from
growing.
-/

namespace CompressedSensing

/-- A step size made ready for an operator. -/
inductive StepRule (R : Type) where
  /-- Always `μ`. -/
  | constant (μ : R)
  /-- Fitted to the support. -/
  | normalized

namespace GradientStep

variable {T R : Type} [RealLike R] [Scalar T R]

/-- Makes a step size ready; this is where the norm of the operator is estimated. -/
@[specialize] def resolve (a : Operator T) (o : Options R) : Except Error (StepRule R) :=
  match o.step with
  | .fixed μ => return .constant μ
  | .operatorNorm => do
    let size : R ← a.normEstimate o.normIterations
    -- an estimate of zero has no inverse
    if RealLike.isZero size then return .constant 1
    return .constant (RealLike.decimal 9 1 / (size * size))
  | .normalized => return .normalized

/-- The thresholded move `H_k (x + μ g)`. -/
@[specialize] def take (x g : Signal T) (μ : R) (k : Nat) : Thresholded T :=
  Signal.hardThreshold (Array.zipWith (fun xi gi => xi + Scalar.scaleReal gi μ) x g) k

/-- How often the normalized step may be halved. -/
def maxHalvings : Nat := 30

/-- The factor `1 - c` of the backtracking bound, with `c = 0.01`. -/
def shrink : R := 1 - RealLike.decimal 1 2

/-- A step after backtracking. -/
structure Backtracked (T : Type) where
  next : Thresholded T
  /-- Whether a test accepted the step, rather than the halvings having run out. -/
  settled : Bool

/-- Halves `μ` until the step keeps the support `s`, moves nothing that the operator sees, or is
short enough for the move it makes; `halvings` more at most. -/
@[specialize] def backtrack (a : Operator T) (x g : Signal T) (k : Nat) (s : Array Nat) :
    (halvings : Nat) → (μ : R) → (next : Thresholded T) → Except Error (Backtracked T)
  | 0, _, next => return ⟨next, false⟩
  | halvings + 1, μ, next => do
    if next.indices = s then return ⟨next, true⟩
    let move := Array.zipWith (· - ·) next.toDense x
    let size : R := Signal.normSq move
    let seen : R := Signal.normSq (← a.apply move)
    -- what the operator does not see leaves the residual as it is
    if RealLike.isZero seen then return ⟨next, true⟩
    if RealLike.le μ (shrink * size / seen) then return ⟨next, true⟩
    let μ := μ / RealLike.ofNat 2
    backtrack a x g k s halvings μ (take x g μ k)

/-- The support that a normalized step is fitted to: the current one, or the `k` largest entries
of `g` if there is none yet. -/
@[specialize] def fittedSupport (support : Array Nat) (g : Signal T) (k : Nat) : Array Nat :=
  if support.isEmpty then Support.largest g k else support

/-- The step `‖g_S‖² / ‖A g_S‖²`, or one if either is zero. -/
@[specialize] def fittedStep (a : Operator T) (n : Nat) (s : Array Nat) (g : Signal T) :
    Except Error R := do
  let gs ← Signal.embed n s (← Signal.gather g s)
  let size : R := Signal.normSq gs
  let seen : R := Signal.normSq (← a.apply gs)
  return if RealLike.isZero size || RealLike.isZero seen then 1 else size / seen

/-- The normalized step from `x` with its support. -/
@[specialize] def normalized (a : Operator T) (x : Signal T) (support : Array Nat)
    (g : Signal T) (k : Nat) : Except Error (Backtracked T) := do
  let s := fittedSupport support g k
  let μ : R ← fittedStep a x.size s g
  backtrack a x g k s maxHalvings μ (take x g μ k)

/-- One step by a rule. -/
@[specialize] def advance (rule : StepRule R) (a : Operator T) (x : Signal T)
    (support : Array Nat) (g : Signal T) (k : Nat) : Except Error (Thresholded T) :=
  match rule with
  | .constant μ => return take x g μ k
  | .normalized => return (← normalized a x support g k).next

end GradientStep
end CompressedSensing
