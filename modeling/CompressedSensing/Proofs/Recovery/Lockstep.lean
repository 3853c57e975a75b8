import Mathlib
import CompressedSensing.Proofs.Recovery.Rescaling
import CompressedSensing.Proofs.Recovery.Thresholding
/-!
# Recoveries in lockstep

Two problems that differ by a change of scale are recovered from in the same way as long as their
rounds correspond. The estimates of one run are what the change makes of those of the other, the
norms are multiplied by one factor, and no stopping rule looks at anything but ratios of norms and
at supports. So the runs end at the same iteration and for the same reasons, with the same best
round, and one answer is what the change of scale makes of the other.
-/

namespace CompressedSensing

open Reals
open scoped ExactScalar

/-! ## Norms with a common factor -/

section

variable {a : ℝ} (ha : 0 < a)
include ha

/-- A positive factor on both sides keeps a comparison. -/
lemma le_mul_left (u v : ℝ) : RealLike.le (a * u) (a * v) = RealLike.le u v :=
  decide_eq_decide.2 (mul_le_mul_iff_right₀ ha)

/-- A positive factor on both sides keeps a strict comparison. -/
lemma lt_mul_left (u v : ℝ) : RealLike.lt (a * u) (a * v) = RealLike.lt u v :=
  decide_eq_decide.2 (mul_lt_mul_iff_right₀ ha)

/-- The stopping rules compare multiples of norms. -/
lemma Convergence.check_mul (c : Convergence ℝ) (current previous b : ℝ) (i : ℕ) :
    c.check (a * current) (a * previous) (a * b) i = c.check current previous b i := by
  unfold check
  rw [mul_left_comm c.tolerance, mul_left_comm c.stagnation, ← mul_sub, le_mul_left ha,
    le_mul_left ha]

/-- The best round is known from ratios of norms. -/
lemma bestIndex_eq_of_mul {N N' : ℕ → ℝ} {s : ℕ} (hN : ∀ l ≤ s, N' l = a * N l) :
    bestIndex N' s = bestIndex N s := by
  induction s with
  | zero => rfl
  | succ s ih =>
    have hbest := (bestIndex_le N s).trans s.le_succ
    unfold bestIndex
    rw [ih fun l hl => hN l (Nat.le_succ_of_le hl), hN _ le_rfl, hN _ hbest, lt_mul_left ha]

end

variable {T : Type} [Scalar T ℝ] [NormedScalar T]

namespace Problem
namespace Rescaled

variable {p p' : Problem T} {σ : Rescaling T} (h : p.Rescaled p' σ)
include h

/-! ## Runs -/

/-- The start is its own image. -/
lemma start_eq : σ.estimate p.start = p'.start := by
  unfold start Rescaling.estimate
  rw [Signal.scale_zeros, h.cols_eq, h.measurement_eq]

section

variable {e : ℕ → Estimate T} {m : Method ℝ} {c : Convergence ℝ} {i s t u : ℕ} {q : ℕ → ℕ}

omit [NormedScalar T] in
/-- The residual norms of the image are those of the run times one factor. -/
lemma residualNormAt_eq (hr : (e s).residual.size = p.operator.rows) :
    (residualNormAt (fun l => σ.estimate (e l)) s : ℝ) = σ.norm * residualNormAt e s :=
  h.norm_eq _ hr

omit [NormedScalar T] in
/-- The image of a run meets the same stopping rules at every iteration. -/
lemma reasonsAt_eq (hr : ∀ l ≤ s + 1, (e l).residual.size = p.operator.rows) :
    m.reasonsAt c (fun l => σ.estimate (e l)) s = m.reasonsAt c e s := by
  have hzero := h.residualNormAt_eq (hr 0 (Nat.zero_le _))
  have hbefore := h.residualNormAt_eq (hr s s.le_succ)
  have hafter : (Signal.norm (σ.estimate (e (s + 1))).residual : ℝ)
      = σ.norm * Signal.norm (e (s + 1)).residual := h.norm_eq _ (hr _ le_rfl)
  unfold Method.reasonsAt Method.reasons
  rw [hzero, hbefore, hafter, Convergence.check_mul σ.norm_pos]
  rfl

/-- The second run stops when the first one does. -/
lemma run (hrun : p.Run m c i u e q) (hb : p.measurement.size = p.operator.rows)
    (hround : ∀ s ≤ u, (p'.round m (σ.estimate (e s))).Returns (q s) (σ.estimate (e (s + 1)))
      (q (s + 1))) :
    p'.Run m c i u (fun s => σ.estimate (e s)) q where
  start := by
    rw [hrun.start]
    exact h.start_eq
  count := hrun.count
  step s hs := hround s (Nat.le_of_lt_succ hs)
  quiet s hs := by
    rw [h.reasonsAt_eq fun l hl => (hrun.toTrajectory.sizes hb (by omega)).2]
    exact hrun.quiet s hs
  stops := by
    rw [h.reasonsAt_eq fun l hl => (hrun.toTrajectory.sizes hb hl).2]
    exact hrun.stops

/-- The second record is what the change of scale makes of the first one. -/
lemma finish_recordAt (hstart : e 0 = p.start)
    (hr : ∀ l ≤ s, (e l).residual.size = p.operator.rows) (reason : StopReason) :
    (p'.recordAt (fun l => σ.estimate (e l)) s).finish reason
      = σ.answer ((p.recordAt e s).finish reason) := by
  have hnorm (l : ℕ) (hl : l ≤ s) := h.residualNormAt_eq (hr l hl)
  have hbest := bestIndex_eq_of_mul σ.norm_pos hnorm
  have hstart' : σ.estimate (e 0) = p'.start := by
    rw [hstart, h.start_eq]
  obtain ⟨hx, hs, hn⟩ := recordAt_best (R := ℝ) hstart s
  obtain ⟨hx', hs', hn'⟩ :=
    recordAt_best (R := ℝ) (p := p') (e := fun l => σ.estimate (e l)) hstart' s
  have hnorms : (p'.recordAt (fun l => σ.estimate (e l)) s : Record T ℝ).norms
      = (p.recordAt e s : Record T ℝ).norms.map (σ.norm * ·) := by
    rw [norms_recordAt, norms_recordAt, Array.map_ofFn]
    exact congrArg Array.ofFn (funext fun l => hnorm _ (by omega))
  rw [hbest] at hx' hs' hn'
  unfold Record.finish Rescaling.answer
  simp only [hnorms, hx, hs, hn, hx', hs', hn', Array.size_map, hnorm _ (bestIndex_le _ s)]
  rfl

end

/-! ## Recoveries -/

variable {alg : Algorithm} {o : Options ℝ} {m : Method ℝ} {r : Recovered T ℝ} {i j : ℕ}

omit [NormedScalar T] in
/-- The norm of the measurement is scaled like the residual norms. -/
lemma norm_measurement (hb : p.measurement.size = p.operator.rows) :
    (Signal.norm p'.measurement : ℝ) = σ.norm * Signal.norm p.measurement := by
  rw [h.measurement_eq]
  exact h.norm_eq _ hb

/-- If every round maps images to images, the pursuit of the image returns the image of the
answer. -/
lemma pursue_returns (hb : p.measurement.size = p.operator.rows) (hcap : 0 < o.maxIterations)
    (hm : alg.method p.operator o = .ok m) (hm' : alg.method p'.operator o = .ok m)
    (hround : ∀ u e q, p.Run m o.convergence i u e q → ∀ s ≤ u,
      (p'.round m (σ.estimate (e s))).Returns (q s) (σ.estimate (e (s + 1))) (q (s + 1)))
    (hr : (p.pursue alg o).Returns i r j) : (p'.pursue alg o).Returns i (σ.answer r) j := by
  obtain ⟨m₀, u, e, q, hm₀, hrun, rfl, hu, rfl⟩ := Problem.pursue_returns hcap hr
  obtain rfl : m₀ = m := Except.ok.inj (hm₀.symm.trans hm)
  have hrun' := h.run hrun hb (hround u e q hrun)
  have hsizes (l : ℕ) (hl : l ≤ u + 1) := (hrun.toTrajectory.sizes hb hl).2
  have hreturns := hrun'.returns_pursue hm' hu
  rwa [h.reasonsAt_eq hsizes, h.finish_recordAt hrun.start hsizes] at hreturns

omit [NormedScalar T] in
lemma solveAll_returns (hall : p.sparsity = p.operator.cols) (hr : p.solveAll.Returns i r j) :
    p'.solveAll.Returns i (σ.answer r) j := by
  obtain ⟨x, y, hx, hy, rfl⟩ := Problem.solveAll_returns.1 hr
  have hsize := h.size_fit _ _ _ hall hx
  have hfit := h.fit_returns _ _ _ _ hx
  rw [← h.cols_eq] at hfit
  refine Problem.solveAll_returns.2 ⟨_, _, hfit, h.residual_eq _ _ hsize hy, ?_⟩
  unfold Rescaling.answer
  simp only [h.norm_eq _ (Operator.size_residual hy), h.cols_eq, List.map_toArray, List.map_cons,
    List.map_nil]

/-- The entry checks find the same faults, as exact measurements have no other entries than finite
ones. -/
lemma check_eq [DecimalText ℝ] (hb : p.measurement.size = p.operator.rows) (o : Options ℝ) :
    p'.check o = p.check o := by
  unfold check
  refine Except.bind_congr fun _ _ => ?_
  rw [if_neg (not_not.2 hb), if_neg (not_not.2 h.size_eq), h.cols_eq, h.sparsity_eq,
    nonfiniteEntry?_eq_none, nonfiniteEntry?_eq_none]

/-- If the rounds correspond, the answer of the second recovery is what the change of scale makes
of the answer of the first one. Without columns to select, the norm of the measurement itself is
compared with the tolerance. -/
theorem recover_returns [DecimalText ℝ] (hk : p.sparsity = 0 → σ.norm = 1)
    (hm : alg.method p.operator o = .ok m) (hm' : alg.method p'.operator o = .ok m)
    (hround : p.sparsity < p.operator.cols → ∀ u e q, p.Run m o.convergence i u e q → ∀ s ≤ u,
      (p'.round m (σ.estimate (e s))).Returns (q s) (σ.estimate (e (s + 1))) (q (s + 1)))
    (hr : (p.recover alg o).Returns i r j) : (p'.recover alg o).Returns i (σ.answer r) j := by
  rw [Problem.recover_returns] at hr ⊢
  obtain ⟨hcheck, hr⟩ := hr
  obtain ⟨hvalid, hb, hle, -⟩ := check_eq_ok.1 hcheck
  have hzero : RealLike.isZero (Signal.norm p'.measurement : ℝ)
      = RealLike.isZero (Signal.norm p.measurement) := by
    refine isZero_eq_of_mul_eq one_pos σ.norm_pos ?_
    rw [one_mul, h.norm_measurement hb]
  refine ⟨(h.check_eq hb o).trans hcheck, ?_⟩
  -- the two recoveries take the same branch, in the order of the program
  rw [hzero, h.sparsity_eq, h.cols_eq]
  split at hr
  · rename_i hmeasurement
    rw [if_pos hmeasurement, hr.1, h.norm_measurement hb]
    refine ⟨?_, hr.2⟩
    simp [Rescaling.answer, Recovered.direct]
  · rename_i hmeasurement
    rw [if_neg hmeasurement]
    split at hr
    · rename_i hnone
      rw [if_pos hnone, hr.1, h.norm_measurement hb, hk hnone, one_mul]
      refine ⟨?_, hr.2⟩
      simp [Rescaling.answer, Recovered.direct, hk hnone]
    · rename_i hsome
      rw [if_neg hsome]
      split at hr
      · rename_i hall
        rw [if_pos hall]
        exact h.solveAll_returns hall hr
      · rename_i hall
        rw [if_neg hall]
        exact h.pursue_returns hb (Options.maxIterations_pos hvalid) hm hm'
          (hround (hle.lt_of_ne hall)) hr

end Rescaled
end Problem
end CompressedSensing
