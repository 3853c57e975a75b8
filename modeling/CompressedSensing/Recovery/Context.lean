import CompressedSensing.Recovery.Run
/-!
# Recovery contexts

A context binds an operator to an algorithm, options and a backend; it recovers from one
measurement or from many, and describes itself in one line.
-/

namespace CompressedSensing

/-- An operator with the way signals are recovered from its measurements. -/
structure Context (T R : Type) where
  algorithm : Algorithm
  operator : Operator T
  options : Options R
  backend : Backend T

namespace Context

variable {T R : Type} [RealLike R] [Scalar T R] [DecimalText R]

/-- The problem of one measurement. -/
def problem (c : Context T R) (b : Signal T) (k : Nat) : Problem T :=
  ⟨c.operator, b, k, c.backend⟩

/-- Recovers a `k`-sparse signal. -/
@[specialize] def recover (c : Context T R) (b : Signal T) (k : Nat) :
    Solving (Recovered T R) :=
  (c.problem b k).recover c.algorithm c.options

/-- Recovers one signal per measurement, in order. The backend serves all of them in one
session; a failure concerns its own measurement only. -/
@[specialize] def recoverBatch (c : Context T R) (measurements : List (Signal T)) (k : Nat) :
    StateM Nat (List (Except Error (Recovered T R))) :=
  measurements.mapM fun b => (c.recover b k).run

/-- The same recovery with the iteration caps `1, 2, …, n`, each in a session of its own. -/
@[specialize] def trace (c : Context T R) (b : Signal T) (k n : Nat) :
    List (Except Error (Recovered T R)) :=
  (List.range n).map fun i =>
    (({ c with options := { c.options with maxIterations := i + 1 } }.recover b k).run 0).1

/-! ## Description -/

/-- The step size as descriptions show it. -/
def describeStep : StepSize R → String
  | .fixed μ => "Fixed(" ++ DecimalText.pointed μ ++ ")"
  | .operatorNorm => "OperatorNorm"
  | .normalized => "Normalized"

/-- A record of named fields. -/
def describeRecord (title : String) (fields : List (String × String)) : String :=
  title ++ " \x7b " ++ ", ".intercalate (fields.map fun f => f.1 ++ ": " ++ f.2) ++ " \x7d"

/-- The options in one line. -/
def describeOptions (o : Options R) : String :=
  describeRecord "RecoveryOptions"
    [("max_iters", toString o.maxIterations), ("tolerance", DecimalText.pointed o.tolerance),
     ("stagnation", DecimalText.pointed o.stagnation), ("step", describeStep o.step),
     ("norm_iters", toString o.normIterations)]

/-- The context in one line. -/
def describe (c : Context T R) : String :=
  describeRecord "RecoveryContext"
    [("kind", c.algorithm.title), ("shape", Error.showShape c.operator.shape),
     ("options", describeOptions c.options), ("solver", "\"" ++ c.backend.name ++ "\"")]

end Context
end CompressedSensing
