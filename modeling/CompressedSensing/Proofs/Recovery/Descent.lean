import Mathlib
import CompressedSensing.Proofs.Recovery.Trajectory
import CompressedSensing.Proofs.Scalar.Differences
/-!
# Runs go downhill

The stagnation rule asks for `‖r‖ - ‖r'‖ ≤ σ ‖r‖` with a threshold `σ` that is not negative. Where
both sides are numbers, a norm that is not strictly smaller than the one before meets it, so the
run ends there: up to its last iteration a run goes strictly downhill.

Where a side is a NaN the rule is silent, whatever the norms are. A residual that is NaN, or
infinite twice in a row, does not end a run, and the run goes on until the iterations are used up.
Over exact numbers this does not happen.
-/

namespace CompressedSensing

variable {T R : Type} [RealLike R] [Scalar T R] [DifferenceLaws R]

omit [Scalar T R] in
lemma Options.zero_le_stagnation [DecimalText R] {o : Options R} (h : o.validate = .ok ()) :
    RealLike.le 0 o.stagnation = true := by
  obtain ⟨-, -, hthreshold, -⟩ := validate_eq_ok.1 h
  rw [isThreshold, Bool.not_eq_true', Bool.or_eq_false_iff] at hthreshold
  exact OrderLaws.le_of_not_lt hthreshold.1 DifferenceLaws.isNaN_zero hthreshold.2

/-- A norm is not negative unless it is a NaN. -/
lemma zero_le_residualNormAt {e : ℕ → Estimate T} {s : ℕ}
    (h : RealLike.isNaN (residualNormAt e s : R) = false) :
    RealLike.le 0 (residualNormAt e s : R) = true :=
  DifferenceLaws.zero_le_sqrt _ h

omit [Scalar T R] in
/-- A norm that has not dropped is stagnation, if the rule compares two numbers. -/
lemma Convergence.stagnation_of_not_lt {c : Convergence R} {current previous b : R} {i : ℕ}
    (hthreshold : RealLike.le 0 c.stagnation = true) (hprevious : RealLike.le 0 previous = true)
    (hdrop : RealLike.isNaN (previous - current) = false)
    (hbound : RealLike.isNaN (c.stagnation * previous) = false)
    (h : RealLike.lt current previous = false) :
    (c.check current previous b i).stagnation = true := by
  obtain ⟨hp, hc⟩ := DifferenceLaws.isNaN_of_sub _ _ hdrop
  have hle : RealLike.le previous current = true := OrderLaws.le_of_not_lt hc hp h
  have hdown : RealLike.le (previous - current) 0 = true :=
    DifferenceLaws.sub_le_zero _ _ hle hdrop
  have hup : RealLike.le 0 (c.stagnation * previous) = true :=
    DifferenceLaws.zero_le_mul _ _ hthreshold hprevious hbound
  exact OrderLaws.le_trans _ _ _ hdown hup

/-- A round that does not lower the norm ends the run, if the rule compares two numbers. -/
lemma Method.stagnation_reasonsAt {m : Method R} {c : Convergence R} {e : ℕ → Estimate T} {s : ℕ}
    (hthreshold : RealLike.le 0 c.stagnation = true)
    (hdrop : RealLike.isNaN (residualNormAt e s - residualNormAt e (s + 1) : R) = false)
    (hbound : RealLike.isNaN (c.stagnation * residualNormAt e s) = false)
    (h : RealLike.lt (residualNormAt e (s + 1) : R) (residualNormAt e s) = false) :
    (m.reasonsAt c e s).stagnation = true := by
  have hprevious := zero_le_residualNormAt (DifferenceLaws.isNaN_of_sub _ _ hdrop).1
  have hcheck : (c.check (Signal.norm (e (s + 1)).residual) (residualNormAt e s)
      (residualNormAt e 0) (s + 1)).stagnation = true :=
    Convergence.stagnation_of_not_lt hthreshold hprevious hdrop hbound h
  simp only [Method.reasonsAt, Method.reasons, StopReason.union, hcheck, Bool.true_or]

namespace Problem

variable {p : Problem T} {m : Method R} {c : Convergence R} {i u s : ℕ} {e : ℕ → Estimate T}
  {q : ℕ → ℕ}

omit [DifferenceLaws R] in
/-- The only round at which stagnation is seen is the last. -/
lemma Run.eq_of_stagnation (h : p.Run m c i u e q) (hs : s ≤ u)
    (hstagnation : (m.reasonsAt c e s).stagnation = true) : s = u := by
  rcases hs.eq_or_lt with rfl | hlt
  · rfl
  · have hquiet := h.quiet s hlt
    simp [StopReason.shouldStop, StopReason.isConverged, hstagnation] at hquiet

/-- A recovery stops at the first iteration whose residual norm is not strictly below the one
before, provided that the two sides of the stagnation rule are numbers there, and reports stagnation
unless it has solved for all columns at once. -/
theorem recover_stops_without_descent [DecimalText R] {alg : Algorithm} {o : Options R} {j : ℕ}
    {r : Recovered T R} (h : (p.recover alg o).Returns i r j) :
    ∃ N : ℕ → R, N 0 = Signal.norm p.measurement ∧
      r.residualNorms = Array.ofFn (fun s : Fin r.iterations => N (s + 1)) ∧
      ∀ s < r.iterations, RealLike.isNaN (N s - N (s + 1)) = false →
        RealLike.isNaN (o.stagnation * N s) = false → RealLike.lt (N (s + 1)) (N s) = false →
        s + 1 = r.iterations ∧ (p.sparsity < p.operator.cols → r.reason.stagnation = true) := by
  by_cases hiterates : RealLike.isZero (Signal.norm p.measurement : R) = false ∧
      0 < p.sparsity ∧ p.sparsity < p.operator.cols
  · obtain ⟨hb, hk, hn⟩ := hiterates
    rcases recover_returns_run hb hk hn h with ⟨hcheck, m, u, e, q, -, hrun, -, -, rfl⟩
    have hthreshold := Options.zero_le_stagnation (check_eq_ok.1 hcheck).1
    have hiter := size_norms_recordAt (R := R) p e (u + 1)
    refine ⟨residualNormAt e, residualNormAt_zero hrun.start, ?_, ?_⟩
    · simp only [Record.finish]
      rw [hiter]
      exact norms_recordAt p e (u + 1)
    · simp only [Record.finish, hiter]
      intro s hs hdrop hbound hnot
      have hstagnation : (m.reasonsAt o.convergence e s).stagnation = true :=
        Method.stagnation_reasonsAt hthreshold hdrop hbound hnot
      obtain rfl : s = u := hrun.eq_of_stagnation (by omega) hstagnation
      exact ⟨rfl, fun _ => hstagnation⟩
  · -- a direct answer has no iteration, or the one that solves for all columns
    have hdirect := recover_returns_direct h fun hb hk hn => hiterates ⟨hb, hk, hn⟩
    rcases hdirect with ⟨hnone, hnorms⟩ | ⟨hone, hn, v, hnorms⟩
    · refine ⟨fun _ => Signal.norm p.measurement, rfl, ?_, fun s hs => ?_⟩
      · rw [hnorms, hnone]
        rfl
      · omega
    · refine ⟨prepend (Signal.norm p.measurement) fun _ => v, rfl, ?_, fun s hs _ _ _ => ?_⟩
      · rw [hnorms, hone]
        rfl
      · exact ⟨by omega, fun hlt => absurd hn hlt.ne⟩

/-- Iterative hard thresholding with a step that is too long stops when the norm has risen from
seven to eight. -/
theorem recover_stops_without_descent_pair :
    ∃ r, (pair.recover .iht (Options.fixedStep (.finite (3 / 2)))).Returns 0 r 0 ∧
      r.residualNorms = #[.finite 7, .finite 8] ∧
      RealLike.lt (.finite 8) (.finite 7 : Extended) = false ∧ r.reason.stagnation = true := by
  obtain ⟨N, -, hnorms, hstops⟩ := recover_stops_without_descent recover_iht_pair
  have hN : .finite 7 = N 1 ∧ .finite 8 = N 2 := by
    simpa [Array.ofFn_succ] using hnorms
  have hsides : RealLike.isNaN (N 1 - N 2) = false ∧
      RealLike.isNaN ((Options.fixedStep (.finite (3 / 2))).stagnation * N 1) = false ∧
      RealLike.lt (N 2) (N 1) = false := by
    rw [← hN.1, ← hN.2]
    decide +kernel
  exact ⟨_, recover_iht_pair, rfl, by decide +kernel,
    (hstops 1 (by decide) hsides.1 hsides.2.1 hsides.2.2).2 (by decide)⟩

/-- The pair measured by an operator with an infinite entry. -/
def unboundedPair : Problem Extended where
  operator := .dense (m := 2) (n := 2) (.ofFn fun i j =>
    if i = j then (if i = 0 then .infinite false else 1) else 0)
  measurement := #[.finite 8, .finite 6]
  sparsity := 1
  backend := .columnwise

/-- The residual is a NaN after each iteration, which is not smaller than the norm of the
measurement, and the run goes on until the iterations are used up. -/
theorem recover_goes_on_unboundedPair :
    ∃ o : Options Extended, o.validate = .ok () ∧ unboundedPair.nonfiniteEntry? = none ∧
      ∃ r, (unboundedPair.recover .iht o).Returns 0 r 0 ∧
        r.residualNorms = #[.nan, .nan, .nan, .nan, .nan] ∧ r.iterations = 5 ∧
        RealLike.lt .nan (Signal.norm unboundedPair.measurement) = false ∧
        r.reason = { maxIterations := true } := by
  have hrun : (unboundedPair.recover .iht (Options.fixedStep 1)).Returns 0
      { x := #[.finite 0, .finite 0], support := #[], iterations := 5,
        residualNorms := #[.nan, .nan, .nan, .nan, .nan], residualNorm := .finite 10,
        converged := false, reason := { maxIterations := true } } 0 := by
    unfold Solving.Returns
    cbv
  have hvalid : (Options.fixedStep 1 : Options Extended).validate = .ok () := rfl
  have hfinite : unboundedPair.nonfiniteEntry? = none := by decide +kernel
  have hlt : RealLike.lt .nan (Signal.norm unboundedPair.measurement) = false := rfl
  exact ⟨Options.fixedStep 1, hvalid, hfinite, _, hrun, rfl, rfl, hlt, rfl⟩

end Problem
end CompressedSensing
