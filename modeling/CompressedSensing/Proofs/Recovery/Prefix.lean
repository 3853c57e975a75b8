import Mathlib
import CompressedSensing.Proofs.Recovery.BestEstimate
import CompressedSensing.Proofs.Recovery.Requests
/-!
# Runs that stop at different times

The stopping rules decide when a run ends and nothing else. With a pure backend the estimates of
a run are determined by the problem and the step rule, so of two runs that differ in their
stopping rules the shorter one is a prefix of the longer one: its norms are the first norms of
the other, and its answer is the best estimate among the first ones. A lower iteration cap cuts
a run off and does nothing else to it.
-/

namespace CompressedSensing

variable {T R : Type} [RealLike R] [Scalar T R]

/-! ## Rounds of a pure backend -/

omit [RealLike R] in
lemma Operator.solveOn_ignoresCount {s : Backend T} (hs : s.Pure) (a : Operator T) (b : Signal T)
    (support : Array ℕ) : (a.solveOn b support s).IgnoresCount := by
  unfold solveOn
  by_cases hsize : b.size = a.rows
  · rw [if_neg (not_not.2 hsize)]
    refine .bind (.ofExcept _) fun _ => ?_
    by_cases hempty : support.isEmpty
    · rw [if_pos hempty]
      exact .pure _
    · rw [if_neg hempty]
      exact .bind (.ofExcept _) fun columns => .request hs columns b
  · rw [if_pos hsize]
    exact .throw _

namespace Problem

variable {p : Problem T} {alg : Algorithm} {m : Method R} {c : Convergence R}

omit [RealLike R] in
lemma fit_ignoresCount (hs : p.backend.Pure) (s : Array ℕ) : (p.fit s).IgnoresCount :=
  p.operator.solveOn_ignoresCount hs _ s

lemma refit_ignoresCount (hs : p.backend.Pure) (merged : Array ℕ) :
    (p.refit merged).IgnoresCount := by
  unfold refit
  refine .bind (p.fit_ignoresCount hs _) fun z => ?_
  dsimp only
  split
  · exact .pure _
  · exact .bind (.ofExcept _) fun s => .bind (p.fit_ignoresCount hs s) fun _ => .pure _

lemma round_ignoresCount (hs : p.backend.Pure) (m : Method R) (e : Estimate T) :
    (p.round m e).IgnoresCount := by
  cases m with
  | iht rule => exact .ofExcept _
  | htp rule =>
    exact .bind (.ofExcept _) fun t => .bind (p.fit_ignoresCount hs _) fun _ => .ofExcept _
  | cosamp =>
    exact .bind (.ofExcept _) fun merged => .bind (p.fit_ignoresCount hs _) fun _ => .ofExcept _
  | subspacePursuit =>
    exact .bind (.ofExcept _) fun merged => .bind (p.refit_ignoresCount hs _) fun _ =>
      .ofExcept _

lemma iterate_ignoresCount (hs : p.backend.Pure) (m : Method R) (c : Convergence R) (b : R)
    (remaining : ℕ) (r : Record T R) (e : Estimate T) :
    (p.iterate m c b remaining r e).IgnoresCount := by
  induction remaining generalizing r e with
  | zero => exact .pure _
  | succ remaining ih =>
    unfold iterate
    refine .bind (p.round_ignoresCount hs m e) fun e' => ?_
    dsimp only
    split
    · exact .pure _
    · exact ih _ _

lemma solveAll_ignoresCount (hs : p.backend.Pure) :
    (p.solveAll : Solving (Recovered T R)).IgnoresCount :=
  .bind (p.fit_ignoresCount hs _) fun _ => .bind (.ofExcept _) fun _ => .pure _

/-- With a pure backend a recovery does not depend on the requests made before. -/
lemma recover_ignoresCount [DecimalText R] (hs : p.backend.Pure) (alg : Algorithm)
    (o : Options R) : (p.recover alg o).IgnoresCount := by
  unfold recover
  refine .bind (.ofExcept _) fun _ => ?_
  dsimp only
  split
  · exact .pure _
  · split
    · exact .pure _
    · split
      · exact p.solveAll_ignoresCount hs
      · exact .bind (.ofExcept _) fun m => p.iterate_ignoresCount hs m _ _ _ _ _

/-! ## Two runs of one problem -/

/-- The estimates of two runs are the same as long as both go on. -/
lemma Trajectory.estimate_eq (hs : p.backend.Pure) {i i' t t' : ℕ} {e e' : ℕ → Estimate T}
    {q q' : ℕ → ℕ} (h : p.Trajectory m i t e q) (h' : p.Trajectory m i' t' e' q') {s : ℕ}
    (hst : s ≤ t) (hst' : s ≤ t') : e s = e' s := by
  induction s with
  | zero => rw [h.start, h'.start]
  | succ s ih =>
    have hround := h'.step s (by omega)
    rw [← ih (by omega) (by omega)] at hround
    exact (p.round_ignoresCount hs m (e s)).eq_of_returns (h.step s (by omega)) hround

/-- The residual norm of an iteration depends on its estimate only. -/
lemma residualNormAt_congr {e e' : ℕ → Estimate T} {s : ℕ} (h : e s = e' s) :
    (residualNormAt e s : R) = residualNormAt e' s := by
  unfold residualNormAt
  rw [h]

/-- The norms of a shorter run are the first norms of a longer one. -/
lemma norms_recordAt_take {e e' : ℕ → Estimate T} {s t : ℕ} (hst : s ≤ t)
    (h : ∀ l ≤ s, e l = e' l) :
    (p.recordAt e s : Record T R).norms = (p.recordAt e' t : Record T R).norms.take s := by
  rw [norms_recordAt, norms_recordAt]
  refine Array.ext (by simp [hst]) fun l hl hl' => ?_
  have hls : l + 1 ≤ s := by simpa using hl
  simpa using residualNormAt_congr (h (l + 1) hls)

/-- The record knows only the estimates up to its own round. -/
lemma recordAt_congr {e e' : ℕ → Estimate T} {s : ℕ} (h : ∀ l ≤ s, e l = e' l) :
    (p.recordAt e s : Record T R) = p.recordAt e' s := by
  unfold recordAt
  rw [residualNormAt_congr (h 0 s.zero_le)]
  induction s with
  | zero => rfl
  | succ s ih =>
    rw [Record.extend, Record.extend, ih fun l hl => h l (by omega), h (s + 1) le_rfl,
      residualNormAt_congr (h (s + 1) le_rfl)]

/-! ## Cutting a run off -/

/-- A rule other than the cap looks at tolerance and stagnation only. -/
lemma shouldStop_reasonsAt {M : ℕ} {e : ℕ → Estimate T} {s : ℕ} :
    (m.reasonsAt { c with maxIterations := M } e s).shouldStop = true ↔
      (m.reasonsAt c e s).isConverged = true ∨ M ≤ s + 1 := by
  unfold StopReason.shouldStop
  rw [Bool.or_eq_true]
  refine or_congr Iff.rfl ?_
  rw [← decide_eq_true_iff (p := M ≤ s + 1)]
  exact Eq.congr_left (Bool.or_false _)

/-- A run with a lower cap goes through the same rounds until the cap. -/
lemma Run.truncate {i u : ℕ} {e : ℕ → Estimate T} {q : ℕ → ℕ} (h : p.Run m c i u e q) {M : ℕ}
    (hM : 0 < M) (hle : M ≤ c.maxIterations) :
    p.Run m { c with maxIterations := M } i (min (M - 1) u) e q := by
  have hlast := @shouldStop_reasonsAt T R _ _ m c c.maxIterations e
  refine ⟨⟨h.start, h.count, fun s hs => h.step s (by omega)⟩, fun s hs => ?_, ?_⟩
  · -- a round before the last was quiet, and the cap has not been reached
    have hquiet := h.quiet s (by omega)
    rw [← Bool.not_eq_true, shouldStop_reasonsAt]
    rw [← Bool.not_eq_true, hlast] at hquiet
    rintro (hconverged | hcap)
    · exact hquiet (.inl hconverged)
    · omega
  · rw [shouldStop_reasonsAt]
    rcases le_total (M - 1) u with hcut | hcut
    · right
      omega
    · -- the run ends by itself, and the old cap is no lower than the new one
      rw [min_eq_right hcut]
      exact (hlast.1 h.stops).imp_right hle.trans

/-- The best norm of a longer run is no greater, if the norm before the first round is a number. -/
lemma Trajectory.le_bestNorm [OrderLaws R] {i t : ℕ} {e : ℕ → Estimate T} {q : ℕ → ℕ}
    (h : p.Trajectory m i t e q) (hnan : RealLike.isNaN (Signal.norm p.measurement : R) = false)
    {s t' : ℕ} (hst : s ≤ t') :
    RealLike.le (p.recordAt e t').bestNorm (p.recordAt e s : Record T R).bestNorm = true := by
  rw [(recordAt_best h.start s).2.2, (recordAt_best h.start t').2.2]
  rw [← residualNormAt_zero h.start] at hnan
  have hlead := leads_bestIndex hnan s
  exact (leads_bestIndex hnan t').least _ (hlead.le.trans hst) hlead.notNaN

end Problem

/-! ## Options that differ in their stopping rules -/

omit [Scalar T R] in
lemma Options.validate_truncate [DecimalText R] {o : Options R} {M : ℕ} (hM : 0 < M)
    (h : o.validate = .ok ()) : ({ o with maxIterations := M } : Options R).validate = .ok () := by
  obtain ⟨-, hrest⟩ := validate_eq_ok.1 h
  exact validate_eq_ok.2 ⟨hM, hrest⟩

/-- An algorithm is made ready without a look at the stopping rules. -/
lemma Algorithm.method_congr (alg : Algorithm) (a : Operator T) {o o' : Options R}
    (hstep : o.step = o'.step) (hnorm : o.normIterations = o'.normIterations) :
    alg.method a o = alg.method a o' := by
  have hresolve : GradientStep.resolve a o = GradientStep.resolve a o' := by
    unfold GradientStep.resolve
    rw [hstep, hnorm]
  cases alg with
  | iht => exact congrArg (· >>= _) hresolve
  | htp => exact congrArg (· >>= _) hresolve
  | cosamp => rfl
  | subspacePursuit => rfl

/-- The two answers tell the same about the estimates; why the runs ended may differ. -/
structure Recovered.SameHistory (r r' : Recovered T R) : Prop where
  x : r.x = r'.x
  support : r.support = r'.support
  iterations : r.iterations = r'.iterations
  residualNorms : r.residualNorms = r'.residualNorms
  residualNorm : r.residualNorm = r'.residualNorm

namespace Problem

variable {p : Problem T} {alg : Algorithm} {o o₁ o₂ : Options R} {i i₁ i₂ j j₁ j₂ : ℕ}
  {r r₁ r₂ : Recovered T R} [DecimalText R]

/-- Without an iteration the stopping rules have no say in the estimate. -/
lemma sameHistory_of_not_pursue (hs : p.backend.Pure)
    (h₁ : (p.recover alg o₁).Returns i₁ r₁ j₁) (h₂ : (p.recover alg o₂).Returns i₂ r₂ j₂)
    (hdirect : ¬ (RealLike.isZero (Signal.norm p.measurement : R) = false ∧ 0 < p.sparsity ∧
      p.sparsity < p.operator.cols)) :
    r₁.SameHistory r₂ ∧ r₂.residualNorms.size = r₂.iterations ∧ r₂.iterations ≤ 1 ∧
      (r₂.residualNorm = Signal.norm p.measurement ∨ r₂.residualNorm ∈ r₂.residualNorms) := by
  obtain ⟨-, h₁⟩ := recover_returns.1 h₁
  obtain ⟨hcheck, h₂⟩ := recover_returns.1 h₂
  have hk := (check_eq_ok.1 hcheck).2.2.1
  split_ifs at h₁ h₂ with hz hzero hall
  · rw [h₁.1, h₂.1]
    exact ⟨⟨rfl, rfl, rfl, rfl, rfl⟩, rfl, Nat.zero_le 1, .inl rfl⟩
  · rw [h₁.1, h₂.1]
    exact ⟨⟨rfl, rfl, rfl, rfl, rfl⟩, rfl, Nat.zero_le 1, .inl rfl⟩
  · -- both solve for all columns, and the backend has one answer to that
    obtain rfl := (p.solveAll_ignoresCount hs).eq_of_returns h₁ h₂
    obtain ⟨x, y, -, -, rfl⟩ := solveAll_returns.1 h₂
    exact ⟨⟨rfl, rfl, rfl, rfl, rfl⟩, rfl, le_rfl, .inr (by simp)⟩
  · exact absurd ⟨eq_false_of_ne_true hz, by omega, by omega⟩ hdirect

/-- A recovery with a lower cap succeeds as well and stops at the cap, if not before. -/
lemma recover_returns_truncated (h : (p.recover alg o).Returns i r j) {M : ℕ} (hM : 0 < M)
    (hle : M ≤ o.maxIterations) :
    ∃ r' j', (p.recover alg { o with maxIterations := M }).Returns i r' j' ∧
      r'.iterations = min M r.iterations := by
  obtain ⟨hcheck, h⟩ := recover_returns.1 h
  obtain ⟨hvalid, hinput⟩ := check_eq_ok.1 hcheck
  have hcheck' : p.check { o with maxIterations := M } = .ok () :=
    check_eq_ok.2 ⟨Options.validate_truncate hM hvalid, hinput⟩
  have hbranch := @recover_returns T R _ _ _ p alg { o with maxIterations := M } i
  split_ifs at h hbranch with hz hzero hall
  · exact ⟨_, _, hbranch.2 ⟨hcheck', rfl, rfl⟩, by rw [h.1]; exact (Nat.min_zero M).symm⟩
  · exact ⟨_, _, hbranch.2 ⟨hcheck', rfl, rfl⟩, by rw [h.1]; exact (Nat.min_zero M).symm⟩
  · refine ⟨r, j, hbranch.2 ⟨hcheck', h⟩, ?_⟩
    obtain ⟨x, y, -, -, rfl⟩ := solveAll_returns.1 h
    exact (min_eq_right (Nat.succ_le_of_lt hM)).symm
  · -- the run is cut off at round `M - 1`, where the cap fires
    obtain ⟨m, u, e, q, hm, hrun, -, hu, rfl⟩ :=
      pursue_returns (Options.maxIterations_pos hvalid) h
    have hcut : p.Run m { o with maxIterations := M }.convergence i (min (M - 1) u) e q :=
      hrun.truncate hM hle
    refine ⟨_, _, hbranch.2 ⟨hcheck', hcut.returns_pursue hm (by dsimp only; omega)⟩, ?_⟩
    unfold Record.finish
    dsimp only
    rw [size_norms_recordAt, size_norms_recordAt]
    omega

/-- Two recoveries that differ in their stopping rules, with a pure backend: the norms of the
shorter one are the first norms of the longer one, they have the same estimate if they are of one
length, and the norm of the longer one is no greater. With a lower iteration cap a recovery
succeeds as well, after as many iterations as the cap allows or as it would have taken. -/
theorem recover_norms_eq_take (hs : p.backend.Pure) (hstep : o₁.step = o₂.step)
    (hnorm : o₁.normIterations = o₂.normIterations) (h₁ : (p.recover alg o₁).Returns i₁ r₁ j₁)
    (h₂ : (p.recover alg o₂).Returns i₂ r₂ j₂) :
    (r₁.iterations ≤ r₂.iterations →
      r₁.residualNorms = r₂.residualNorms.take r₁.iterations ∧
      (r₁.iterations = r₂.iterations →
        r₁.x = r₂.x ∧ r₁.support = r₂.support ∧ r₁.residualNorm = r₂.residualNorm) ∧
      (OrderLaws R → RealLike.isNaN (Signal.norm p.measurement : R) = false →
        (∀ v ∈ r₂.residualNorms, RealLike.isNaN v = false) →
        RealLike.le r₂.residualNorm r₁.residualNorm = true)) ∧
    ∀ M i : ℕ, 0 < M → M ≤ o₂.maxIterations →
      ∃ r j, (p.recover alg { o₂ with maxIterations := M }).Returns i r j ∧
        r.iterations = min M r₂.iterations := by
  constructor
  · intro ht
    by_cases hpursue : RealLike.isZero (Signal.norm p.measurement : R) = false ∧
        0 < p.sparsity ∧ p.sparsity < p.operator.cols
    · obtain ⟨hb, hk, hn⟩ := hpursue
      obtain ⟨-, m, u₁, e₁, q₁, hm, hrun₁, -, -, rfl⟩ := recover_returns_run hb hk hn h₁
      obtain ⟨-, m', u₂, e₂, q₂, hm', hrun₂, -, -, rfl⟩ := recover_returns_run hb hk hn h₂
      -- one method, so one sequence of estimates
      rw [alg.method_congr p.operator hstep hnorm, hm', Except.ok.injEq] at hm
      subst hm
      unfold Record.finish at ht ⊢
      dsimp only at ht ⊢
      rw [size_norms_recordAt, size_norms_recordAt] at ht ⊢
      have heq : ∀ l ≤ u₁ + 1, e₁ l = e₂ l := fun l hl =>
        hrun₁.toTrajectory.estimate_eq hs hrun₂.toTrajectory hl (hl.trans ht)
      rw [recordAt_congr heq]
      refine ⟨norms_recordAt_take ht fun _ _ => rfl, fun hlen => ?_, fun _ hnan _ => ?_⟩
      · rw [hlen]
        exact ⟨rfl, rfl, rfl⟩
      · exact hrun₂.toTrajectory.le_bestNorm hnan ht
    · obtain ⟨hsame, hsize, -, hlast⟩ := sameHistory_of_not_pursue hs h₁ h₂ hpursue
      refine ⟨?_, fun _ => ⟨hsame.x, hsame.support, hsame.residualNorm⟩, fun _ hnan hnorms => ?_⟩
      · rw [hsame.residualNorms, hsame.iterations, ← hsize]
        exact Array.extract_size.symm
      · rw [hsame.residualNorm]
        refine OrderLaws.le_refl _ ?_
        rcases hlast with hlast | hlast
        · rw [hlast]
          exact hnan
        · exact hnorms _ hlast
  · intro M i hM hle
    obtain ⟨r, j, hr, hcount⟩ := recover_returns_truncated h₂ hM hle
    obtain ⟨j', hr'⟩ := (p.recover_ignoresCount hs alg _).returns hr i
    exact ⟨r, j', hr', hcount⟩

/-- Within seven tenths of the measurement the first estimate is good enough. -/
lemma recover_htp_tolerant_pair :
    (pair.recover .htp { Options.fixedStep 1 with tolerance := .finite (7 / 10) }).Returns 0
      { x := #[.finite 8, .finite 0], support := #[0], iterations := 1,
        residualNorms := #[.finite 6], residualNorm := .finite 6, converged := true,
        reason := { residualTolerance := true } } 1 := by
  unfold Solving.Returns
  cbv

/-- Hard thresholding pursuit on two coordinates, once with a tolerance that the first estimate
meets and once without: the first run is the first iteration of the second, and so is a run with
a cap of one iteration. -/
theorem recover_norms_eq_take_pair :
    ∃ r₁ r₂ : Recovered Extended Extended,
      (pair.recover .htp { Options.fixedStep 1 with tolerance := .finite (7 / 10) }).Returns 0 r₁ 1 ∧
      (pair.recover .htp (Options.fixedStep 1)).Returns 0 r₂ 2 ∧
      r₁.iterations = 1 ∧ r₂.iterations = 2 ∧
      r₁.residualNorms = r₂.residualNorms.take 1 ∧
      RealLike.le r₂.residualNorm r₁.residualNorm = true ∧
      ∃ r j, (pair.recover .htp { Options.fixedStep 1 with maxIterations := 1 }).Returns 3 r j ∧
        r.iterations = 1 := by
  have hstep : ({ Options.fixedStep 1 with tolerance := .finite (7 / 10) } :
      Options Extended).step = (Options.fixedStep 1).step := rfl
  obtain ⟨hlong, hcut⟩ := recover_norms_eq_take (Backend.ofSolver_pure _ _) hstep rfl
    recover_htp_tolerant_pair recover_htp_pair
  obtain ⟨htake, -, hle⟩ := hlong (by decide)
  have hnorm : RealLike.isNaN (Signal.norm pair.measurement) = false := by
    rw [norm_pair]
    rfl
  have hnorms : ∀ v ∈ (#[.finite 6, .finite 6] : Array Extended), RealLike.isNaN v = false := by
    decide
  exact ⟨_, _, recover_htp_tolerant_pair, recover_htp_pair, rfl, rfl, htake,
    hle inferInstance hnorm hnorms, hcut 1 3 one_pos (by decide)⟩

end Problem
end CompressedSensing
