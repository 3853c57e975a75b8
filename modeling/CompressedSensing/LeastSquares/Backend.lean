import CompressedSensing.Matrix.Basic
/-!
# Least-squares backends

A backend answers requests to minimize `‖A z - b‖`. It may remember: the answer can depend on
how many requests came before in the same session. A backend that does not remember is `Pure`.

`Solving α` is a computation that makes requests. Its state is the number of requests made so
far, which survives a failure, so that sessions can follow one another.
-/

namespace CompressedSensing

/-- A solver of dense least-squares problems. -/
structure Backend (T : Type) where
  name : String
  /-- The answer to a request that `earlier` requests came before. -/
  solve : (earlier : Nat) → {m n : Nat} → DenseMatrix T m n → Signal T → Except Error (Signal T)

namespace Backend

variable {T : Type}

/-- The answer depends on the request alone. -/
def Pure (s : Backend T) : Prop :=
  ∀ (i j : Nat) {m n : Nat} (a : DenseMatrix T m n) (b : Signal T), s.solve i a b = s.solve j a b

/-- A backend that does not remember, from a solver for right-hand sides of fitting length. -/
def ofSolver (name : String)
    (solver : {m n : Nat} → DenseMatrix T m n → Signal T → Signal T) : Backend T where
  name := name
  solve _ {m _} a b :=
    if b.size = m then .ok (solver a b) else .error (.rightHandSideLength b.size m)

theorem ofSolver_pure (name : String)
    (solver : {m n : Nat} → DenseMatrix T m n → Signal T → Signal T) :
    (ofSolver name solver).Pure := fun _ _ _ _ _ _ => rfl

/-- A backend that answers `limit` requests like `s` and refuses all later ones. -/
def failingAfter (limit : Nat) (name reason : String) (s : Backend T) : Backend T where
  name := name
  solve earlier {_ _} a b :=
    if earlier < limit then s.solve earlier a b else .error (.backend reason)

end Backend

/-- A computation that makes requests to a backend. -/
abbrev Solving (α : Type) := ExceptT Error (StateM Nat) α

namespace Solving

/-- A step that makes no request. -/
def ofExcept {α : Type} : Except Error α → Solving α
  | .ok a => pure a
  | .error e => throw e

end Solving

/-- Makes one request. -/
def request {T : Type} (s : Backend T) {m n : Nat} (a : DenseMatrix T m n) (b : Signal T) :
    Solving (Signal T) := do
  let earlier ← modifyGetThe Nat fun i => (i, i + 1)
  Solving.ofExcept (s.solve earlier a b)

end CompressedSensing
