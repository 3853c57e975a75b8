import Mathlib
import CompressedSensing.Recovery.Run
import CompressedSensing.Proofs.Recovery.Solving
/-!
# How a recovery starts

What the entry checks establish, and which of the four branches a recovery takes after them.
-/

namespace CompressedSensing

variable {T R : Type} [RealLike R] [Scalar T R] [DecimalText R]

namespace Options

variable {o : Options R}

omit [Scalar T R] in
/-- Options are valid if each of them is; a fixed step must be positive and finite. -/
lemma validate_eq_ok :
    o.validate = .ok () ↔
      0 < o.maxIterations ∧ isThreshold o.tolerance = true ∧ isThreshold o.stagnation = true ∧
        ∀ μ, o.step = .fixed μ → RealLike.lt 0 μ = true ∧ RealLike.isFinite μ = true := by
  unfold validate
  by_cases hcap : o.maxIterations = 0
  · rw [if_pos hcap]
    exact ⟨fun h => (nomatch h), fun h => absurd hcap h.1.ne'⟩
  have hpos : 0 < o.maxIterations := Nat.pos_of_ne_zero hcap
  rw [if_neg hcap]
  cases htolerance : isThreshold o.tolerance with
  | false => exact ⟨fun h => (nomatch h), fun h => nomatch h.2.1⟩
  | true =>
    cases hstagnation : isThreshold o.stagnation with
    | false => exact ⟨fun h => (nomatch h), fun h => nomatch h.2.2.1⟩
    | true =>
      cases o.step with
      | fixed μ => simp [hpos]
      | operatorNorm => simp [hpos]
      | normalized => simp [hpos]

omit [Scalar T R] in
/-- Valid options allow at least one iteration. -/
lemma maxIterations_pos (h : o.validate = .ok ()) : 0 < o.maxIterations :=
  (validate_eq_ok.1 h).1

end Options

namespace Problem

variable {p : Problem T} {alg : Algorithm} {o : Options R} {i j : ℕ} {r : Recovered T R}

/-- The entry check passes just if each of its four parts does. -/
lemma check_eq_ok :
    p.check o = .ok () ↔
      o.validate = .ok () ∧ p.measurement.size = p.operator.rows ∧
        p.sparsity ≤ p.operator.cols ∧ p.nonfiniteEntry? = none := by
  unfold check
  rw [Except.bind_unit_eq_ok]
  refine and_congr_right fun _ => ?_
  by_cases hsize : p.measurement.size = p.operator.rows
  · by_cases hk : p.operator.cols < p.sparsity
    · rw [if_neg (not_not.2 hsize), if_pos hk]
      exact ⟨fun h => (nomatch h), fun h => absurd h.2.1 (not_le.2 hk)⟩
    · rw [if_neg (not_not.2 hsize), if_neg hk]
      cases p.nonfiniteEntry? with
      | some i => exact ⟨fun h => (nomatch h), fun h => (nomatch h.2.2)⟩
      | none => exact ⟨fun _ => ⟨hsize, not_lt.1 hk, rfl⟩, fun _ => rfl⟩
  · rw [if_pos hsize]
    exact ⟨fun h => (nomatch h), fun h => absurd h.1 hsize⟩

omit [DecimalText R] in
/-- The solution on all columns counts as one iteration, with its own residual. -/
lemma solveAll_returns :
    p.solveAll.Returns i r j ↔
      ∃ x y, (p.fit (Array.range p.operator.cols)).Returns i x j ∧
        p.operator.residual p.measurement x = .ok y ∧
        r = ⟨x, Array.range p.operator.cols, 1, #[Signal.norm y], Signal.norm y, true,
          { directSolve := true }⟩ := by
  unfold solveAll
  simp only [Solving.returns_bind, Solving.returns_ofExcept, Solving.returns_pure]
  constructor
  · intro h
    rcases h with ⟨x, l, hx, y, _, ⟨hy, rfl⟩, rfl, rfl⟩
    exact ⟨x, y, hx, hy, rfl⟩
  · intro h
    rcases h with ⟨x, y, hx, hy, rfl⟩
    exact ⟨x, j, hx, y, j, ⟨hy, rfl⟩, rfl, rfl⟩

/-- A recovery that passes the checks is answered at once, solves for all columns, or iterates. -/
lemma recover_returns :
    (p.recover alg o).Returns i r j ↔
      p.check o = .ok () ∧
        if RealLike.isZero (Signal.norm p.measurement : R) then
          r = .direct (Signal.zeros p.operator.cols) #[] (Signal.norm p.measurement) true ∧ j = i
        else if p.sparsity = 0 then
          r = .direct (Signal.zeros p.operator.cols) #[] (Signal.norm p.measurement)
            (RealLike.le (Signal.norm p.measurement) o.tolerance) ∧ j = i
        else if p.sparsity = p.operator.cols then p.solveAll.Returns i r j
        else (p.pursue alg o).Returns i r j := by
  unfold recover
  rw [Solving.returns_check_bind]
  refine and_congr_right fun _ => ?_
  by_cases hz : RealLike.isZero (Signal.norm p.measurement : R)
  · simp [hz, Solving.returns_pure]
  · by_cases hk : p.sparsity = 0
    · simp [hz, hk, Solving.returns_pure]
    · by_cases hn : p.sparsity = p.operator.cols
      · simp [hz, hk, if_pos hn]
      · simp [hz, hk, if_neg hn]

/-- With a measurement that is not zero and a sparsity strictly between, a recovery iterates. -/
lemma recover_returns_pursue (hb : RealLike.isZero (Signal.norm p.measurement : R) = false)
    (hk : 0 < p.sparsity) (hn : p.sparsity < p.operator.cols) :
    (p.recover alg o).Returns i r j ↔ p.check o = .ok () ∧ (p.pursue alg o).Returns i r j := by
  rw [recover_returns, hb, if_neg Bool.false_ne_true, if_neg (by omega), if_neg (by omega)]

/-- A recovery that does not iterate has one residual norm at most. -/
lemma recover_returns_direct (h : (p.recover alg o).Returns i r j)
    (hdirect : RealLike.isZero (Signal.norm p.measurement : R) = false → 0 < p.sparsity →
      ¬ p.sparsity < p.operator.cols) :
    r.iterations = 0 ∧ r.residualNorms = #[] ∨
      r.iterations = 1 ∧ p.sparsity = p.operator.cols ∧ ∃ v, r.residualNorms = #[v] := by
  obtain ⟨hcheck, hbranch⟩ := recover_returns.1 h
  obtain ⟨-, -, hle, -⟩ := check_eq_ok.1 hcheck
  split at hbranch
  · obtain ⟨rfl, -⟩ := hbranch
    exact .inl ⟨rfl, rfl⟩
  · rename_i hb
    split at hbranch
    · obtain ⟨rfl, -⟩ := hbranch
      exact .inl ⟨rfl, rfl⟩
    · rename_i hk
      split at hbranch
      · rename_i hn
        obtain ⟨x, y, -, -, rfl⟩ := solveAll_returns.1 hbranch
        exact .inr ⟨rfl, hn, _, rfl⟩
      · have hlarge := hdirect (eq_false_of_ne_true hb) (Nat.pos_of_ne_zero hk)
        omega

end Problem
end CompressedSensing
