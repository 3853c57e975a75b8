import Mathlib
import CompressedSensing.Support.Restricted
import CompressedSensing.Proofs.Recovery.Solving
/-!
# Solves on a support

A restricted solve succeeds on a measurement of the right length and a valid support, with what
the backend answers for the columns of the support. The empty support is answered without a
request.
-/

namespace CompressedSensing

variable {T R : Type} [Scalar T R] {i j : ℕ}

/-- The backend answers with one coefficient per column. -/
def Backend.Fits (s : Backend T) : Prop :=
  ∀ (i : ℕ) {m n : ℕ} (a : DenseMatrix T m n) (b z : Signal T),
    s.solve i a b = .ok z → z.size = n

/-- Fits every column by itself, which is least squares where the columns are orthogonal. -/
def Backend.columnwise : Backend T :=
  .ofSolver "columnwise" fun {m n} a b => Array.ofFn fun j : Fin n =>
    DenseMatrix.sumFin m (fun i => Scalar.conj (a.entry i j) * b.getD i 0)
      / DenseMatrix.sumFin m (fun i => Scalar.conj (a.entry i j) * a.entry i j)

lemma Backend.columnwise_fits : (columnwise : Backend T).Fits := by
  intro i m n a b z h
  unfold columnwise ofSolver at h
  dsimp only at h
  split at h
  · cases h
    exact Array.size_ofFn
  · cases h

namespace Operator

variable {a : Operator T} {b z : Signal T} {s : Array ℕ} {backend : Backend T}

/-- A restricted solve checks its input and asks the backend once, unless the support is empty. -/
lemma solveOn_returns :
    (a.solveOn b s backend).Returns i z j ↔
      b.size = a.rows ∧ Support.Valid a.cols s ∧
        if s.isEmpty then z = #[] ∧ j = i
        else ∃ columns, a.restrictedMatrix s = .ok columns ∧
          backend.solve i columns b = .ok z ∧ j = i + 1 := by
  -- the two guards first, then the support decides whether there is a request
  unfold solveOn
  by_cases hempty : s.isEmpty
  · rw [if_pos hempty, if_pos hempty]
    by_cases hsize : b.size = a.rows
    · rw [if_neg (not_not.2 hsize), Solving.returns_check_bind, Support.validate_eq_ok_iff,
        Solving.returns_pure]
      simp [hsize]
    · rw [if_pos hsize]
      simp [hsize, Solving.not_returns_throw]
  · rw [if_neg hempty, if_neg hempty]
    by_cases hsize : b.size = a.rows
    · rw [if_neg (not_not.2 hsize), Solving.returns_check_bind, Support.validate_eq_ok_iff,
        Solving.returns_ofExcept_bind]
      simp only [Solving.returns_request, hsize, true_and]
    · rw [if_pos hsize]
      simp [hsize, Solving.not_returns_throw]

/-- There is one coefficient per entry of the support. -/
lemma size_of_solveOn (hb : backend.Fits) (h : (a.solveOn b s backend).Returns i z j) :
    z.size = s.size := by
  rcases solveOn_returns.1 h with ⟨-, -, h⟩
  split at h
  · rename_i hempty
    rw [h.1, Array.isEmpty_iff.1 hempty]
    rfl
  · rcases h with ⟨columns, -, hz, -⟩
    exact hb i columns b z hz

end Operator
end CompressedSensing
