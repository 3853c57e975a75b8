import Mathlib
import CompressedSensing.Proofs.Recovery.BestEstimate
import CompressedSensing.Proofs.Recovery.Orthonormal
/-!
# Recovery on orthonormal columns

On orthonormal columns the first round of any algorithm ends at the thresholded proxy
`H_k (Aᴴ b)`, and the second round changes nothing, which is stagnation. So a run has at most two
iterations. By Pythagoras the thresholded proxy leaves less than the zero estimate unless it is zero
itself, so it is the best estimate of the run. The answers that need no iteration are the same: they
are the thresholded proxy of the zero measurement, of sparsity zero, and of all columns.
-/

namespace CompressedSensing

open Matrix Reals
open scoped ExactScalar

variable {T : Type} [Scalar T ℝ] [EuclideanScalar T]

/-- A real threshold is one that is not negative. -/
lemma Options.isThreshold_iff {a : ℝ} : isThreshold a = true ↔ 0 ≤ a := by
  have hnumber : RealLike.isNaN a = false := rfl
  unfold isThreshold
  rw [hnumber, Bool.false_or, Bool.not_eq_true', ← not_lt]
  exact decide_eq_false_iff_not

namespace Problem

variable {p : Problem T} {M : Matrix (Fin p.operator.rows) (Fin p.operator.cols) T}

/-- Exact entries are finite. -/
lemma nonfiniteEntry?_eq_none (p : Problem T) : p.nonfiniteEntry? = none := by
  unfold nonfiniteEntry?
  rw [Array.findIdx?_eq_none_iff]
  intro v _
  rw [EuclideanScalar.isFinite_eq_true]
  rfl

/-- Nothing leads if nothing is wanted. -/
lemma leading_eq_empty (hk : p.sparsity = 0) : p.leading M = #[] := by
  rw [← Array.size_eq_zero_iff, size_leading (by omega), hk]

namespace Orthonormal

variable (h : p.Orthonormal M)
include h

/-! ## Runs -/

/-- The zero estimate is followed by the estimate on the leading support for good. -/
lemma exists_trajectory (alg : Algorithm) (hpos : 0 < p.sparsity)
    (hk : p.sparsity ≤ p.operator.cols) (i : ℕ) :
    ∃ q, ∀ t, p.Trajectory alg.normalizedMethod i t
      (prepend p.start fun _ => p.estimateOn M (p.leading M)) q := by
  obtain ⟨first, hfirst⟩ := h.round_returns alg hpos hk (.inl rfl) i
  choose next hnext using h.round_returns alg hpos hk (.inr rfl)
  refine ⟨prepend i fun s => next^[s] first, fun t => ⟨rfl, rfl, fun s _ => ?_⟩⟩
  rcases s with _ | s
  · rw [h.estimateOn_empty] at hfirst
    exact hfirst
  · show (p.round _ _).Returns (next^[s] first) _ (next^[s + 1] first)
    rw [Function.iterate_succ_apply']
    exact hnext _

/-- The estimate on the leading support leaves less than the measurement, or it is zero. -/
lemma restrict_leading_eq_zeros (hle : (Signal.norm p.measurement : ℝ)
      ≤ Signal.norm (p.estimateOn M (p.leading M)).residual) :
    (p.proxy M).restrict (p.leading M) = Signal.zeros p.operator.cols := by
  have hpythagoras := h.energy_measurement (leading_ascending (M := M)).valid
  unfold estimateOn at hle
  rw [Signal.norm_eq_sqrt_energy h.size_eq, Signal.norm_eq_sqrt_energy Array.size_ofFn,
    Signal.coords_ofFn, Real.sqrt_le_sqrt_iff (energy_nonneg _)] at hle
  have hzero : energy (p.proxyOn M (p.leading M)) = 0 := by
    have hnonneg := energy_nonneg (p.proxyOn M (p.leading M))
    linarith
  have hsize : (Signal.zeros p.operator.cols : Signal T).size = p.operator.cols := by
    simp [Signal.zeros]
  refine Signal.ext_coords ((Signal.size_restrict _ _).trans size_proxy) hsize fun l => ?_
  show p.proxyOn M (p.leading M) l = _
  rw [eq_zero_of_energy hzero]
  simp [Signal.coords, Signal.zeros]

variable [DecimalText ℝ]

/-- The second round changes nothing, so a run has at most two. -/
lemma exists_run (alg : Algorithm) {o : Options ℝ} (ho : o.validate = .ok ())
    (hpos : 0 < p.sparsity) (hk : p.sparsity ≤ p.operator.cols) (i : ℕ) :
    ∃ u q, u ≤ 1 ∧ u < o.maxIterations ∧ p.Run alg.normalizedMethod o.convergence i u
      (prepend p.start fun _ => p.estimateOn M (p.leading M)) q := by
  set e : ℕ → Estimate T := prepend p.start fun _ => p.estimateOn M (p.leading M) with he
  obtain ⟨q, htraj⟩ := h.exists_trajectory alg hpos hk i
  have hcap := Options.maxIterations_pos ho
  by_cases hfirst : (alg.normalizedMethod.reasonsAt o.convergence e 0).shouldStop = true
  · exact ⟨0, q, Nat.zero_le 1, hcap, htraj 1, fun s hs => absurd hs (Nat.not_lt_zero s), hfirst⟩
  · -- the cap did not stop the first round
    have hmore : 1 < o.maxIterations := by
      by_contra hle
      have hlast : o.convergence.maxIterations ≤ 1 := not_lt.1 hle
      exact hfirst (by simp [Method.reasonsAt, Method.reasons, Convergence.check,
        StopReason.union, StopReason.shouldStop, hlast])
    refine ⟨1, q, le_rfl, hmore, htraj 2, fun s hs => ?_, ?_⟩
    · obtain rfl : s = 0 := by omega
      exact eq_false_of_ne_true hfirst
    · -- the norm has not dropped
      have hnorm : (0 : ℝ) ≤ residualNormAt e 1 := Real.sqrt_nonneg _
      have hstagnates : RealLike.le ((residualNormAt e 1 : ℝ) - residualNormAt e 2)
          (o.stagnation * residualNormAt e 1) = true := by
        refine decide_eq_true ?_
        show (residualNormAt e 1 : ℝ) - residualNormAt e 1 ≤ _
        rw [sub_self]
        exact mul_nonneg (Options.isThreshold_iff.1 (Options.validate_eq_ok.1 ho).2.2.1) hnorm
      have hcheck : (o.convergence.check (Signal.norm (e 2).residual) (residualNormAt e 1)
          (residualNormAt e 0) 2).stagnation = true := hstagnates
      simp only [Method.reasonsAt, Method.reasons, StopReason.union, StopReason.shouldStop,
        StopReason.isConverged, hcheck, Bool.true_or, Bool.or_true]

/-- The best estimate of a run is the one on the leading support, or zero as that one. -/
lemma pursue_returns_leading (alg : Algorithm) {o : Options ℝ} (ho : o.validate = .ok ())
    (hstep : o.step = .normalized) (hpos : 0 < p.sparsity) (hk : p.sparsity ≤ p.operator.cols)
    (i : ℕ) :
    ∃ r j, (p.pursue alg o).Returns i r j ∧
      r.x = (p.proxy M).restrict (p.leading M) ∧ r.iterations ≤ 2 := by
  obtain ⟨u, q, hu, hcap, hrun⟩ := h.exists_run alg ho hpos hk i
  set e : ℕ → Estimate T := prepend p.start fun _ => p.estimateOn M (p.leading M) with he
  have hmethod := alg.method_eq_normalizedMethod p.operator hstep
  refine ⟨_, _, hrun.returns_pursue hmethod hcap, ?_, ?_⟩
  · show (p.recordAt e (u + 1)).bestX = _
    rw [(recordAt_best hrun.start (u + 1)).1]
    cases hbest : bestIndex (residualNormAt (R := ℝ) e) (u + 1) with
    | zero =>
      -- no norm is below that of the measurement
      have hleads := leads_bestIndex (N := residualNormAt (R := ℝ) e) rfl (u + 1)
      rw [hbest] at hleads
      have hnot := not_lt_of_leads_zero hleads (Nat.succ_le_succ u.zero_le)
      exact (h.restrict_leading_eq_zeros (not_lt.1 (of_decide_eq_false hnot))).symm
    | succ s => rfl
  · show (p.recordAt e (u + 1)).norms.size ≤ 2
    rw [size_norms_recordAt]
    omega

/-! ## Answers -/

omit [DecimalText ℝ] in
/-- The solution on all columns is the whole proxy. -/
lemma solveAll_returns_leading (hall : p.sparsity = p.operator.cols) (i : ℕ) :
    ∃ r j, (p.solveAll : Solving (Recovered T ℝ)).Returns i r j ∧
      r.x = (p.proxy M).restrict (p.leading M) ∧ r.iterations ≤ 2 := by
  obtain ⟨j, hfit⟩ := h.fit_returns (Support.Ascending.range p.operator.cols).valid i
  have hvalues : (p.proxy M).valuesAt (Array.range p.operator.cols) = p.proxy M := by
    refine Array.ext (by simp [size_proxy]) fun l hl hl' => ?_
    simp [Signal.valuesAt, hl']
  rw [hvalues] at hfit
  obtain ⟨y, hy⟩ : ∃ y, p.operator.residual p.measurement (p.proxy M) = .ok y :=
    ⟨_, h.images.residual_eq h.size_eq size_proxy⟩
  refine ⟨_, j, solveAll_returns.2 ⟨_, y, hfit, hy, rfl⟩, ?_, one_le_two⟩
  rw [leading_eq_range hall, ← size_proxy (M := M), Signal.restrict_range]

/-- A recovery that passes the entry checks returns the proxy on the leading support. -/
theorem recover_returns_leading (alg : Algorithm) {o : Options ℝ} (ho : o.validate = .ok ())
    (hstep : o.step = .normalized) (hk : p.sparsity ≤ p.operator.cols) (i : ℕ) :
    ∃ r j, (p.recover alg o).Returns i r j ∧
      r.x = (p.proxy M).restrict (p.leading M) ∧ r.iterations ≤ 2 := by
  have hcheck : p.check o = .ok () :=
    check_eq_ok.2 ⟨ho, h.size_eq, hk, p.nonfiniteEntry?_eq_none⟩
  have hbranch := @recover_returns T ℝ _ _ _ p alg o i
  split_ifs at hbranch with hzero hnone hall
  · refine ⟨_, i, hbranch.2 ⟨hcheck, rfl, rfl⟩, ?_, Nat.zero_le 2⟩
    -- zero leaves as little as any other estimate
    refine (h.restrict_leading_eq_zeros ?_).symm
    rw [show (Signal.norm p.measurement : ℝ) = 0 from eq_of_beq hzero]
    exact Real.sqrt_nonneg _
  · refine ⟨_, i, hbranch.2 ⟨hcheck, rfl, rfl⟩, ?_, Nat.zero_le 2⟩
    rw [leading_eq_empty hnone, Signal.restrict_empty, size_proxy]
    rfl
  · obtain ⟨r, j, hr, hx, hiter⟩ := h.solveAll_returns_leading hall i
    exact ⟨r, j, hbranch.2 ⟨hcheck, hr⟩, hx, hiter⟩
  · obtain ⟨r, j, hr, hx, hiter⟩ :=
      h.pursue_returns_leading alg ho hstep (Nat.pos_of_ne_zero hnone) hk i
    exact ⟨r, j, hbranch.2 ⟨hcheck, hr⟩, hx, hiter⟩

end Orthonormal

/-- On orthonormal columns, with exact scalars, normalized steps and a backend that solves least
squares, all algorithms return the thresholded proxy after at most two iterations. The maps of the
operator are only asked to succeed and to be adjoint to one another, which makes them linear. -/
theorem recover_returns_threshold [DecimalText ℝ] (p : Problem T) (ha : p.operator.Adjunction)
    (hinv : ∀ x : Signal T, x.size = p.operator.cols →
      p.operator.apply x >>= p.operator.applyAdjoint = .ok x)
    (hs : p.backend.LeastSquares) (hb : p.measurement.size = p.operator.rows)
    (hk : p.sparsity ≤ p.operator.cols) {o : Options ℝ} (ho : o.validate = .ok ())
    (hstep : o.step = .normalized) :
    ∃ c, p.operator.applyAdjoint p.measurement = .ok c ∧ ∀ (alg : Algorithm) (i : ℕ),
      ∃ r j, (p.recover alg o).Returns i r j ∧ r.x = Signal.threshold c p.sparsity ∧
        r.iterations ≤ 2 := by
  obtain ⟨M, hM⟩ := ha.exists_hasImages
  have h : p.Orthonormal M := ⟨hM, hM.orthonormal hinv, hs, hb⟩
  refine ⟨p.proxy M, h.applyAdjoint_measurement, fun alg i => ?_⟩
  rw [Signal.threshold_eq_restrict]
  exact h.recover_returns_leading alg ho hstep hk i

/-- The pair over the real numbers, with least squares solved exactly. -/
noncomputable def realPair : Problem ℝ where
  operator := .identity 2
  measurement := #[8, 6]
  sparsity := 1
  backend := .leastSquares

lemma apply_realPair {x : Signal ℝ} (hx : x.size = 2) :
    realPair.operator.apply x = .ok x ∧ realPair.operator.applyAdjoint x = .ok x := by
  have hcopy : (copyInto x (Vector.replicate 2 (0 : ℝ)) >>= fun v => pure v.toArray) = .ok x := by
    rw [copyInto, dif_pos hx]
    rfl
  exact ⟨hcopy, hcopy⟩

lemma validate_standard : (Options.standard : Options ℝ).validate = .ok () := by
  have hthreshold : Options.isThreshold (RealLike.decimal 1 6 : ℝ) = true := by
    rw [Options.isThreshold_iff]
    show (0 : ℝ) ≤ (1 : ℕ) / 10 ^ 6
    norm_num
  exact Options.validate_eq_ok.2 ⟨by decide, hthreshold, hthreshold, fun _ h => nomatch h⟩

/-- All algorithms keep one of two coordinates. -/
theorem recover_returns_threshold_realPair :
    ∃ c, realPair.operator.applyAdjoint realPair.measurement = .ok c ∧ c = #[8, 6] ∧
      ∀ alg : Algorithm, ∃ r j, (realPair.recover alg Options.standard).Returns 0 r j ∧
        r.x = Signal.threshold c 1 ∧ r.iterations ≤ 2 := by
  have hadjunction : realPair.operator.Adjunction :=
    (Operator.hasMatrix_identity 2).hasImages.adjunction
  have hinverse (x : Signal ℝ) (hx : x.size = 2) :
      realPair.operator.apply x >>= realPair.operator.applyAdjoint = .ok x := by
    rw [(apply_realPair hx).1]
    exact (apply_realPair hx).2
  obtain ⟨c, hc, hrecover⟩ := recover_returns_threshold realPair hadjunction hinverse
    Backend.leastSquares_leastSquares rfl one_le_two validate_standard rfl
  refine ⟨c, hc, ?_, fun alg => hrecover alg 0⟩
  rw [(apply_realPair rfl).2] at hc
  exact (Except.ok.inj hc).symm

end Problem
end CompressedSensing
