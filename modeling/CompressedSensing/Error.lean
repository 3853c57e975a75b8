/-!
# Errors

Everything that can go wrong is one of the causes below. A cause carries the numbers that
its message shows, `Error.kind` sorts the causes into the classes a caller can react to, and
`Error.message` is the only place that words them.

`Error.misuse` is the odd one out: it stands for a broken contract of a primitive (vectors of
different length, an index outside a vector) and has no message, because a caller who keeps to
the contracts never sees it.
-/

namespace CompressedSensing

/-- The classes of causes. -/
inductive ErrorKind where
  /-- Sizes that do not fit together. -/
  | shapeMismatch
  /-- A parameter outside the range in which it means something. -/
  | invalidParameter
  /-- An index that names no column. -/
  | supportOutOfRange
  /-- An index given twice. -/
  | duplicateSupport
  /-- A broken length or index contract. -/
  | misuse
deriving DecidableEq, Repr

/-- The causes of failure. -/
inductive Error where
  /-- So many `values` cannot fill a matrix of `rows` rows and `columns` columns. -/
  | cannotFill (values rows columns : Nat)
  /-- Row number `row` has `entries` entries where the first row has `expected`. -/
  | raggedRow (row entries expected : Nat)
  /-- The shapes of two operators whose product does not exist. -/
  | cannotCompose (outer inner : Nat × Nat)
  /-- The shapes of two operators whose sum does not exist. -/
  | cannotAdd (left right : Nat × Nat)
  /-- A convolution kernel longer than the signal. -/
  | kernelTooLong (kernel signal : Nat)
  /-- A measurement with `entries` entries for an operator with `rows` rows. -/
  | measurementLength (entries rows : Nat)
  /-- A right-hand side with `entries` entries for a matrix with `rows` rows. -/
  | rightHandSideLength (entries rows : Nat)
  /-- A sparsity greater than the length of the signal. -/
  | sparsityTooLarge (sparsity length : Nat)
  /-- More nonzero entries than a vector of this length has room for. -/
  | tooManyNonzeros (count length : Nat)
  /-- An iteration cap of zero. -/
  | noIterations
  /-- A tolerance that is negative or not a number; `shown` is its text. -/
  | badTolerance (shown : String)
  /-- A stagnation threshold that is negative or not a number; `shown` is its text. -/
  | badStagnation (shown : String)
  /-- A fixed step that is not a positive finite number; `shown` is its text. -/
  | badStep (shown : String)
  /-- The measurement's first entry that is infinite or not a number. -/
  | nonfiniteMeasurement (index : Nat)
  /-- A Walsh-Hadamard transform whose size is not a power of two. -/
  | transformSize (size : Nat)
  /-- A Hadamard basis whose size is not a power of two. -/
  | basisSize (size : Nat)
  /-- A name that belongs to no recovery algorithm. -/
  | unknownAlgorithm (name : String)
  /-- A least-squares backend that gave up, with the reason it states. -/
  | backend (reason : String)
  /-- An index that is not below the number of columns. -/
  | supportOutOfRange (index length : Nat)
  /-- An index that occurs more than once. -/
  | duplicateSupport (index : Nat)
  /-- A broken length or index contract of a primitive. -/
  | misuse
deriving DecidableEq, Repr

namespace Error

/-- The class of a cause. -/
def kind : Error → ErrorKind
  | cannotFill .. | raggedRow .. | cannotCompose .. | cannotAdd .. | kernelTooLong ..
  | measurementLength .. | rightHandSideLength .. | sparsityTooLarge .. | tooManyNonzeros .. =>
    .shapeMismatch
  | noIterations | badTolerance .. | badStagnation .. | badStep .. | nonfiniteMeasurement ..
  | transformSize .. | basisSize .. | unknownAlgorithm .. | backend .. =>
    .invalidParameter
  | supportOutOfRange .. => .supportOutOfRange
  | duplicateSupport .. => .duplicateSupport
  | misuse => .misuse

/-- A shape as messages show it: `(rows, columns)`. -/
def showShape (shape : Nat × Nat) : String :=
  "(" ++ toString shape.1 ++ ", " ++ toString shape.2 ++ ")"

/-- What went wrong, without the class in front. -/
def detail : Error → String
  | cannotFill values rows columns => s!"{values} values cannot fill a {rows}x{columns} matrix"
  | raggedRow row entries expected => s!"row {row} has {entries} entries, expected {expected}"
  | cannotCompose outer inner =>
    "cannot compose " ++ showShape outer ++ " with " ++ showShape inner ++ ": inner dimensions "
      ++ toString outer.2 ++ " and " ++ toString inner.1 ++ " differ"
  | cannotAdd left right =>
    "cannot add operators of shape " ++ showShape left ++ " and " ++ showShape right
  | kernelTooLong kernel signal =>
    s!"kernel of length {kernel} does not fit a signal of length {signal}"
  | measurementLength entries rows =>
    s!"measurement has {entries} entries, operator has {rows} rows"
  | rightHandSideLength entries rows =>
    s!"right-hand side has {entries} entries, matrix has {rows} rows"
  | sparsityTooLarge sparsity length =>
    s!"sparsity {sparsity} exceeds the signal length {length}"
  | tooManyNonzeros count length =>
    s!"cannot place {count} nonzeros in a vector of length {length}"
  | noIterations => "max_iters must be at least 1"
  | badTolerance shown => s!"tolerance must be non-negative, got {shown}"
  | badStagnation shown => s!"stagnation must be non-negative, got {shown}"
  | badStep shown => s!"fixed step must be positive, got {shown}"
  | nonfiniteMeasurement index => s!"measurement entry {index} is not finite"
  | transformSize size => s!"Walsh-Hadamard size must be a power of two, got {size}"
  | basisSize size => s!"Hadamard basis size must be a power of two, got {size}"
  | unknownAlgorithm name => s!"unknown recovery algorithm '{name}'"
  | backend reason => reason
  | supportOutOfRange index length => s!"support index {index} out of range for {length} columns"
  | duplicateSupport index => s!"support index {index} appears more than once"
  | misuse => ""

/-- The message of a cause: shape and parameter errors name their class first. -/
def message (e : Error) : String :=
  match e.kind with
  | .shapeMismatch => "shape mismatch: " ++ e.detail
  | .invalidParameter => "invalid parameter: " ++ e.detail
  | .supportOutOfRange | .duplicateSupport | .misuse => e.detail

end Error
end CompressedSensing
