import CompressedSensing.Operator.Basic
import CompressedSensing.Random.Ziggurat
/-!
# Diagnostics of operators

Two questions about an operator: do its two maps belong together, and how large is it?

* The dot test compares `⟨A u, v⟩` with `⟨u, Aᴴ v⟩` on random vectors.
* The norm estimate is the power iteration on `Aᴴ A`, from a start vector that is the same on
  every call.
-/

namespace CompressedSensing

variable {T R : Type} [RealLike R] [Scalar T R]

/-! ## The dot test -/

/-- Outcome of a dot test. -/
structure DotTest (T R : Type) where
  /-- The product `⟨A u, v⟩`. -/
  forward : T
  /-- The product `⟨u, Aᴴ v⟩`. -/
  adjoint : T
  /-- Their distance, relative to `max (‖A u‖ ‖v‖) (‖u‖ ‖Aᴴ v‖)` unless that is zero. -/
  error : R
  /-- Whether the error is within the tolerance. -/
  passed : Bool

namespace DotTest

/-- The dot test on given vectors. -/
@[specialize] def onVectors (a : Operator T) (u v : Signal T) (tolerance : R) :
    Except Error (DotTest T R) := do
  let au ← a.apply u
  let ahv ← a.applyAdjoint v
  -- a dot product conjugates its first argument, so `⟨A u, v⟩` is that of `v` and `A u`, conjugated
  let forward := Scalar.conj (← Signal.dot v au)
  let adjoint ← Signal.dot u ahv
  let size := RealLike.max (Signal.norm au * Signal.norm v) (Signal.norm u * Signal.norm ahv)
  let difference : R := Scalar.modulus (forward - adjoint)
  let error := if RealLike.lt 0 size then difference / size else difference
  return ⟨forward, adjoint, error, RealLike.le error tolerance⟩

/-- The dot test on standard normal vectors, `u` drawn before `v`. -/
@[specialize] def run (a : Operator T) (source : Source) (tolerance : R) :
    Except Error (DotTest T R) :=
  let (u, source) := (Normal.drawSignal a.cols).run source
  let (v, _) := (Normal.drawSignal a.rows).run source
  onVectors a u v tolerance

end DotTest

/-! ## The norm estimate -/

namespace Operator

/-- So many further steps of the power iteration from the unit vector `v`; `last` is the length
of the latest `Aᴴ A v`. A length that is zero or not finite ends the iteration with zero. -/
@[specialize] def powerIteration (a : Operator T) :
    (steps : Nat) → (v : Signal T) → (last : R) → Except Error R
  | 0, _, last => .ok (RealLike.sqrt last)
  | steps + 1, v, _ => do
    let w ← a.applyAdjoint (← a.apply v)
    let length : R := Signal.norm w
    if RealLike.isZero length || !RealLike.isFinite length then return 0
    powerIteration a steps (Signal.scale (Scalar.ofReal (RealLike.recip length)) w) length

/-- The power iteration from any start vector: at least one step is taken. -/
@[specialize] def normEstimateFrom (a : Operator T) (start : Signal T) (steps : Nat) :
    Except Error R :=
  let length : R := Signal.norm start
  powerIteration a (max steps 1) (Signal.scale (Scalar.ofReal (RealLike.recip length)) start) 0

/-- The seed of the start vector. -/
def normSeed : UInt64 := 0x5eed0fa11

/-- The start vector of the norm estimate. -/
@[specialize] def normStart (n : Nat) : Signal T :=
  ((Normal.drawSignal n).run (Source.ofSeed normSeed)).1

/-- An estimate of `‖A‖` from below; zero for an operator without rows or columns. -/
@[specialize] def normEstimate (a : Operator T) (steps : Nat) : Except Error R :=
  if a.cols = 0 ∨ a.rows = 0 then .ok 0 else a.normEstimateFrom (normStart a.cols) steps

end Operator
end CompressedSensing
