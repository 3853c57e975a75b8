import Mathlib
import CompressedSensing.Proofs.Recovery.Trajectory
/-!
# When a run stops

The stopping rules are restated on the estimates of a run, one iteration at a time. A recovery
that iterates stops at the first iteration at which a rule fires, for exactly the rules that fire
there. No law of the scalars is used: a residual norm may be anything, NaN included.
-/

namespace CompressedSensing

variable {T R : Type} [RealLike R] [Scalar T R]

namespace StopReason

lemma shouldStop_eq_false_iff (r : StopReason) : r.shouldStop = false ↔ r = none := by
  rcases r with ⟨a, b, c, d, e⟩
  revert a b c d e
  decide

/-- A reason is one of convergence unless it is the cap alone or none. -/
lemma isConverged_iff (r : StopReason) :
    r.isConverged = true ↔
      r.residualTolerance ∨ r.stagnation ∨ r.supportStable ∨ r.directSolve := by
  simp only [isConverged, Bool.or_eq_true, or_assoc]

end StopReason

namespace Problem

/-- The rules that fire at iteration `s`, counted from one: the general ones on the norms of this
residual, of the one before and of the measurement, and for hard thresholding pursuit a support
that repeats. -/
def rulesAt (p : Problem T) (alg : Algorithm) (o : Options R) (e : ℕ → Estimate T) (s : ℕ) :
    StopReason :=
  (o.convergence.check (residualNormAt e s) (residualNormAt e (s - 1))
    (Signal.norm p.measurement) s).union
    { supportStable := decide (alg = .htp ∧ 1 < s ∧ (e s).support = (e (s - 1)).support) }

variable {p : Problem T} {alg : Algorithm} {o : Options R} {m : Method R}

/-- Only HTP stops at a repeated support. -/
lemma stopsOnRepeat_eq (hm : alg.method p.operator o = .ok m) :
    m.stopsOnRepeat = decide (alg = .htp) := by
  cases alg with
  | iht =>
    rcases Except.bind_eq_ok.1 hm with ⟨rule, -, h⟩
    cases h
    rfl
  | htp =>
    rcases Except.bind_eq_ok.1 hm with ⟨rule, -, h⟩
    cases h
    rfl
  | cosamp =>
    cases hm
    rfl
  | subspacePursuit =>
    cases hm
    rfl

/-- The loop looks at the rules of the iteration that it has just made. -/
lemma reasonsAt_eq_rulesAt (hm : alg.method p.operator o = .ok m) {e : ℕ → Estimate T}
    (he : e 0 = p.start) (s : ℕ) :
    m.reasonsAt o.convergence e s = p.rulesAt alg o e (s + 1) := by
  unfold Method.reasonsAt Method.reasons rulesAt
  have hrepeat : (m.stopsOnRepeat && decide (1 < s + 1) && (e (s + 1)).support == (e s).support)
      = decide (alg = .htp ∧ 1 < s + 1 ∧ (e (s + 1)).support = (e s).support) := by
    rw [stopsOnRepeat_eq hm, Bool.decide_and, Bool.decide_and, Bool.and_assoc, beq_eq_decide]
  rw [residualNormAt_zero he, hrepeat]
  rfl

lemma maxIterations_rulesAt (e : ℕ → Estimate T) (s : ℕ) :
    (p.rulesAt alg o e s).maxIterations = decide (o.maxIterations ≤ s) :=
  Bool.or_false _

lemma directSolve_rulesAt (e : ℕ → Estimate T) (s : ℕ) :
    (p.rulesAt alg o e s).directSolve = false := rfl

/-- A recovery that iterates stops at the first iteration at which a rule fires, and reports
exactly the rules that fire there. -/
theorem recover_stops_at_first_rule [DecimalText R] {i j : ℕ} {r : Recovered T R}
    (hb : RealLike.isZero (Signal.norm p.measurement : R) = false) (hk : 0 < p.sparsity)
    (hn : p.sparsity < p.operator.cols) (h : (p.recover alg o).Returns i r j) :
    ∃ (m : Method R) (e : ℕ → Estimate T) (q : ℕ → ℕ),
      alg.method p.operator o = .ok m ∧ p.Trajectory m i r.iterations e q ∧
      q r.iterations = j ∧ residualNormAt e 0 = (Signal.norm p.measurement : R) ∧
      r.residualNorms = Array.ofFn (fun s : Fin r.iterations => residualNormAt e (s + 1)) ∧
      1 ≤ r.iterations ∧ r.iterations ≤ o.maxIterations ∧
      r.reason = p.rulesAt alg o e r.iterations ∧ r.reason ≠ .none ∧
      (∀ s, 1 ≤ s → s < r.iterations → p.rulesAt alg o e s = .none) ∧
      (r.reason.maxIterations = true ↔ r.iterations = o.maxIterations) ∧
      r.reason.directSolve = false ∧
      (r.converged = true ↔
        r.reason.residualTolerance ∨ r.reason.stagnation ∨ r.reason.supportStable ∨
          r.reason.directSolve) := by
  rcases recover_returns_run hb hk hn h with ⟨-, m, u, e, q, hm, hrun, hj, hu, rfl⟩
  have hrules := reasonsAt_eq_rulesAt hm hrun.start
  have hnorms := norms_recordAt (R := R) p e (u + 1)
  have hiter := size_norms_recordAt (R := R) p e (u + 1)
  refine ⟨m, e, q, hm, ?_, ?_, residualNormAt_zero hrun.start, ?_, ?_, ?_, ?_, ?_, ?_, ?_, ?_, ?_⟩
  all_goals simp only [Record.finish, hiter]
  · exact hrun.toTrajectory
  · exact hj
  · rw [hiter]
    exact hnorms
  · omega
  · omega
  · exact hrules u
  · -- the run has stopped, so there is a reason
    intro hnone
    have := hrun.stops
    rw [hnone] at this
    exact absurd this (by decide)
  · intro s hs hsu
    -- iteration `s` is round `s - 1` of the run, which did not stop it
    have hquiet := hrun.quiet (s - 1) (by omega)
    rw [hrules, StopReason.shouldStop_eq_false_iff] at hquiet
    rwa [show s - 1 + 1 = s by omega] at hquiet
  · rw [hrules, maxIterations_rulesAt, decide_eq_true_iff]
    omega
  · rw [hrules, directSolve_rulesAt]
  · exact StopReason.isConverged_iff _

/-- Hard thresholding pursuit on two coordinates: no rule fires at the first iteration, and at
the second the residual has not dropped and the support repeats. -/
theorem recover_stops_at_first_rule_pair :
    ∃ r, (pair.recover .htp (Options.fixedStep 1)).Returns 0 r 2 ∧
      ∃ e, pair.rulesAt .htp (Options.fixedStep 1) e 1 = .none ∧
        pair.rulesAt .htp (Options.fixedStep 1) e 2
          = { stagnation := true, supportStable := true } := by
  obtain ⟨m, e, q, -, -, -, -, -, -, -, hreason, -, hquiet, -⟩ :=
    recover_stops_at_first_rule isZero_norm_pair (by decide) (by decide) recover_htp_pair
  exact ⟨_, recover_htp_pair, e, hquiet 1 le_rfl (by decide), hreason.symm⟩

end Problem
end CompressedSensing
