import Mathlib
import CompressedSensing.Proofs.Recovery.Cycling
import CompressedSensing.Proofs.Recovery.Stopping
import CompressedSensing.Scalar.Machine
/-!
# A support that repeats

The estimate after a round of hard thresholding pursuit is the fit on its own support. If the next
gradient step ends at the same support, the next round fits the same columns, and with a pure
backend it returns the estimate that it started from. From then on nothing changes, however long
the run goes on: no later round can come closer to the measurement, and the best estimate stays
what it is.

Before the first round there is nothing of the kind, because the zero estimate on the empty support
has not been fitted. The rule therefore asks for a second iteration.

The residual norm stays the same, which is stagnation, unless the stagnation threshold times that
norm is a NaN: the rule then compares with nothing and is silent. An infinite threshold is valid,
and its product with the norm zero is a NaN.
-/

namespace CompressedSensing

variable {T R : Type} [RealLike R] [Scalar T R]

/-! ## The best of a sequence that stays -/

section

omit [Scalar T R]
variable [OrderLaws R] {N : ℕ → R}

/-- No norm is below the best one so far. -/
lemma not_lt_bestIndex (N : ℕ → R) (s : ℕ) : RealLike.lt (N s) (N (bestIndex N s)) = false := by
  cases s with
  | zero => exact OrderLaws.not_lt_self _
  | succ s =>
    unfold bestIndex
    split
    · exact OrderLaws.not_lt_self _
    · rename_i hnot
      exact eq_false_of_ne_true hnot

/-- A norm that comes again makes no new best. -/
lemma bestIndex_eq_of_stays {s l : ℕ} (hsl : s ≤ l) (h : ∀ s', s ≤ s' → s' ≤ l → N s' = N s) :
    bestIndex N l = bestIndex N s := by
  induction l, hsl using Nat.le_induction with
  | base => rfl
  | succ l hsl ih =>
    have hbest := ih fun s' hs hl => h s' hs (by omega)
    rw [bestIndex, hbest, h (l + 1) (by omega) le_rfl, if_neg]
    rw [not_lt_bestIndex]
    exact Bool.false_ne_true

end

namespace Problem

variable {p : Problem T} {m : Method R} {i i₀ j j₀ s l : ℕ} {e : ℕ → Estimate T} {q : ℕ → ℕ}

/-! ## Trajectories that stay -/

/-- Where a round returns what it started from, all further rounds do. -/
lemma Trajectory.stays (hs : p.backend.Pure) (h : p.Trajectory m i l e q)
    (hround : (p.round m (e s)).Returns i₀ (e s) j₀) {s' : ℕ} (hss' : s ≤ s') (hs' : s' ≤ l) :
    e s' = e s := by
  induction s', hss' using Nat.le_induction with
  | base => rfl
  | succ s' hss' ih =>
    have hstep := h.step s' hs'
    rw [ih (by omega)] at hstep
    exact (p.round_ignoresCount hs m (e s)).eq_of_returns hstep hround

/-- The rounds can be repeated as often as one likes. -/
lemma Trajectory.exists_longer (hs : p.backend.Pure) (h : p.Trajectory m i s e q)
    (hround : (p.round m (e s)).Returns i₀ (e s) j₀) (hsl : s ≤ l) :
    ∃ (e' : ℕ → Estimate T) (q' : ℕ → ℕ), p.Trajectory m i l e' q' ∧ e' l = e s := by
  induction l, hsl using Nat.le_induction with
  | base => exact ⟨e, q, h, rfl⟩
  | succ l hsl ih =>
    obtain ⟨e', q', htraj, hlast⟩ := ih
    obtain ⟨j', hagain⟩ := (p.round_ignoresCount hs m (e s)).returns hround (q' l)
    rw [← hlast] at hagain
    obtain ⟨e'', q'', htraj', -, hlast'⟩ := htraj.exists_succ hagain
    exact ⟨e'', q'', htraj', hlast'.trans hlast⟩

/-- The best estimate of a trajectory that stays is the best before. -/
lemma Trajectory.best_eq_of_stays [OrderLaws R] (h : p.Trajectory m i l e q) (hsl : s ≤ l)
    (hstays : ∀ s', s ≤ s' → s' ≤ l → e s' = e s) :
    (p.recordAt e l : Record T R).bestX = (p.recordAt e s : Record T R).bestX ∧
      (p.recordAt e l : Record T R).bestSupport = (p.recordAt e s : Record T R).bestSupport ∧
      (p.recordAt e l : Record T R).bestNorm = (p.recordAt e s : Record T R).bestNorm := by
  have hbest : bestIndex (residualNormAt (R := R) e) l = bestIndex (residualNormAt e) s := by
    refine bestIndex_eq_of_stays hsl fun s' hss' hs' => ?_
    unfold residualNormAt
    rw [hstays s' hss' hs']
  obtain ⟨hx, hsupport, hnorm⟩ := recordAt_best (R := R) h.start l
  obtain ⟨hx', hsupport', hnorm'⟩ := recordAt_best (R := R) h.start s
  rw [hx, hsupport, hnorm, hbest]
  exact ⟨hx'.symm, hsupport'.symm, hnorm'.symm⟩

/-! ## Rounds of hard thresholding pursuit -/

variable {rule : StepRule R} {t : Thresholded T} {f f' : Estimate T}

/-- The support of the next estimate is that of the gradient step. -/
lemma htpRound_support (ht : p.gradientStep rule f = .ok t)
    (h : (p.htpRound rule f).Returns i f' j) : f'.support = t.indices := by
  obtain ⟨t', z, x, ht', -, -, hest⟩ := htpRound_returns.1 h
  rw [ht, Except.ok.injEq] at ht'
  rw [(estimate_eq_ok.1 hest).2.1, ht']

/-- A round from a fitted estimate that keeps its support returns that estimate. -/
lemma htpRound_eq_self (hs : p.backend.Pure) (hf : p.Fitted f) (ht : p.gradientStep rule f = .ok t)
    (hrepeat : t.indices = f.support) (h : (p.htpRound rule f).Returns i f' j) : f' = f :=
  (htpRound_fitted h).eq hs hf ((htpRound_support ht h).trans hrepeat)

/-- From the second round on a gradient step that ends at the current support ends the run, with
the estimate that there was. -/
lemma Run.repeats {c : Convergence R} {u : ℕ} (hs : p.backend.Pure)
    (h : p.Run (.htp rule) c i u e q) (hpos : 0 < s) (hsu : s ≤ u)
    (ht : p.gradientStep rule (e s) = .ok t) (hrepeat : t.indices = (e s).support) :
    s = u ∧ e (s + 1) = e s ∧ ((Method.htp rule).reasonsAt c e s).supportStable = true := by
  obtain ⟨l, rfl⟩ : ∃ l, s = l + 1 := ⟨s - 1, by omega⟩
  have hfitted := htpRound_fitted (h.step l (by omega))
  have hstep := h.step (l + 1) (by omega)
  have hsame := htpRound_eq_self hs hfitted ht hrepeat hstep
  have hstable : ((Method.htp rule).reasonsAt c e (l + 1)).supportStable = true := by
    have hsupport : (e (l + 1 + 1)).support = (e (l + 1)).support := by rw [hsame]
    simp [Method.reasonsAt, Method.reasons, Method.stopsOnRepeat, StopReason.union,
      Convergence.check, hsupport]
  refine ⟨?_, hsame, hstable⟩
  by_contra hne
  -- the rule would have ended the run
  have hquiet := h.quiet (l + 1) (by omega)
  simp [StopReason.shouldStop, StopReason.isConverged, hstable] at hquiet

/-- The norm that stays is stagnation exactly if the bound on its drop is a number. -/
lemma stagnation_iff_of_eq [FiniteLaws R] {c : Convergence R} {u : ℕ}
    (hthreshold : RealLike.le 0 c.stagnation = true) (hsame : e (u + 1) = e u)
    (hfinite : RealLike.isFinite (residualNormAt e (u + 1) : R) = true) :
    (m.reasonsAt c e u).stagnation = true
      ↔ RealLike.isNaN (c.stagnation * residualNormAt e (u + 1)) = false := by
  have hnorm : (residualNormAt e (u + 1) : R) = residualNormAt e u := by
    unfold residualNormAt
    rw [hsame]
  rw [hnorm] at hfinite ⊢
  constructor
  · intro hstagnation
    simp only [Method.reasonsAt, Method.reasons, StopReason.union, Convergence.check,
      Bool.or_false] at hstagnation
    exact OrderLaws.isNaN_right _ _ hstagnation
  · intro hbound
    refine Method.stagnation_reasonsAt hthreshold ?_ hbound ?_
    · rw [hnorm]
      exact FiniteLaws.isNaN_sub _ _ hfinite hfinite
    · rw [hnorm]
      exact OrderLaws.not_lt_self _

/-- If a gradient step of hard thresholding pursuit ends at the current support, and it is not the
first, the iteration with this step is the last. It returns the estimate before it. A norm that is
finite then counts as stagnation if the threshold times that norm is a number, and not otherwise.
All further rounds make the same gradient step and return the same estimate, and the best estimate
of a run that goes on is the answer. -/
theorem recover_htp_repeats [DecimalText R] [FiniteLaws R] {o : Options R} {r : Recovered T R}
    (hs : p.backend.Pure) (h : (p.recover .htp o).Returns i r j) (hiter : 1 < r.iterations) :
    ∃ (rule : StepRule R) (e : ℕ → Estimate T) (q : ℕ → ℕ),
      GradientStep.resolve p.operator o = .ok rule ∧
      p.Trajectory (.htp rule) i r.iterations e q ∧
      r.residualNorms = Array.ofFn (fun s : Fin r.iterations => residualNormAt e (s + 1)) ∧
      ∀ (s : ℕ) (t : Thresholded T), 0 < s → s < r.iterations →
        p.gradientStep rule (e s) = .ok t → t.indices = (e s).support →
        s + 1 = r.iterations ∧ e (s + 1) = e s ∧ r.reason.supportStable = true ∧
        (RealLike.isFinite (residualNormAt e (s + 1) : R) = true →
          (r.reason.stagnation = true ↔
            RealLike.isNaN (o.stagnation * residualNormAt e (s + 1)) = false)) ∧
        ∀ l, r.iterations ≤ l →
          (∃ e' q', p.Trajectory (.htp rule) i l e' q') ∧
          ∀ i' e' q', p.Trajectory (.htp rule) i' l e' q' →
            (∀ s', s ≤ s' → s' ≤ l → p.gradientStep rule (e' s') = .ok t ∧ e' s' = e s) ∧
            (p.recordAt e' l : Record T R).bestX = r.x ∧
            (p.recordAt e' l : Record T R).bestSupport = r.support ∧
            (p.recordAt e' l : Record T R).bestNorm = r.residualNorm := by
  -- a direct answer counts one iteration at most
  have hiterates : RealLike.isZero (Signal.norm p.measurement : R) = false ∧ 0 < p.sparsity ∧
      p.sparsity < p.operator.cols := by
    by_contra hnot
    have hdirect := recover_returns_direct h fun hb hk hn => hnot ⟨hb, hk, hn⟩
    omega
  obtain ⟨hb, hk, hn⟩ := hiterates
  obtain ⟨hcheck, m, u, e, q, hm, hrun, -, -, rfl⟩ := recover_returns_run hb hk hn h
  have hthreshold := Options.zero_le_stagnation (check_eq_ok.1 hcheck).1
  obtain ⟨rule, hrule, hmethod⟩ := Except.bind_eq_ok.1 hm
  cases hmethod
  have hsize := size_norms_recordAt (R := R) p e (u + 1)
  simp only [Record.finish, hsize]
  refine ⟨rule, e, q, hrule, hrun.toTrajectory, ?_, ?_⟩
  · rw [hsize]
    exact norms_recordAt p e (u + 1)
  · intro s t hpos hsu ht hrepeat
    obtain ⟨rfl, hsame, hstable⟩ := hrun.repeats hs hpos (Nat.le_of_lt_succ hsu) ht hrepeat
    have hround := hrun.step s (Nat.lt_succ_self s)
    refine ⟨rfl, hsame, hstable, stagnation_iff_of_eq hthreshold hsame, fun l hl => ⟨?_, ?_⟩⟩
    · -- the last round starts and ends at one estimate, so it can be repeated
      rw [← hsame] at hround
      obtain ⟨e', q', htraj, -⟩ := hrun.toTrajectory.exists_longer hs hround hl
      exact ⟨e', q', htraj⟩
    · intro i' e' q' htraj
      -- up to here the estimates are those of the run, and then they stay
      have hprefix : ∀ s' ≤ s + 1, e' s' = e s' := fun s' hs' =>
        htraj.estimate_eq hs hrun.toTrajectory (hs'.trans hl) hs'
      have hstart := hprefix s s.le_succ
      rw [hsame, ← hstart] at hround
      have hstays : ∀ s', s ≤ s' → s' ≤ l → e' s' = e s := fun s' hss' hs' =>
        (htraj.stays hs hround hss' hs').trans hstart
      have hbest := htraj.best_eq_of_stays (R := R) hl fun s' hss' hs' =>
        (hstays s' (by omega) hs').trans (hstays (s + 1) s.le_succ hl).symm
      rw [recordAt_congr hprefix] at hbest
      refine ⟨fun s' hss' hs' => ⟨?_, hstays s' hss' hs'⟩, hbest⟩
      rw [hstays s' hss' hs', ht]


/-- Hard thresholding pursuit on two coordinates keeps the first one. The second iteration repeats
the support and the estimate of the first, and so would all further iterations. -/
theorem recover_htp_repeats_pair :
    ∃ (r : Recovered Extended Extended) (e : ℕ → Estimate Extended) (q : ℕ → ℕ),
      (pair.recover .htp (Options.fixedStep 1)).Returns 0 r 2 ∧ r.iterations = 2 ∧
      pair.Trajectory (.htp (.constant 1)) 0 2 e q ∧ e 2 = e 1 ∧
      r.reason.supportStable = true ∧ r.reason.stagnation = true ∧
      ∀ l, 2 ≤ l → ∃ e' q', pair.Trajectory (.htp (.constant 1)) 0 l e' q' ∧ e' l = e 1 ∧
        (pair.recordAt e' l : Record Extended Extended).bestX = r.x := by
  obtain ⟨rule, e, q, hrule, htraj, -, hrepeat⟩ :=
    recover_htp_repeats (Backend.ofSolver_pure _ _) recover_htp_pair (by decide)
  cases hrule
  have hround : (pair.round (.htp (.constant (1 : Extended))) pair.start).Returns 0
      ⟨#[.finite 8, .finite 0], #[0], #[.finite 0, .finite 6]⟩ 1 := by
    unfold Solving.Returns
    cbv
  have hfirst : e 1 = ⟨#[.finite 8, .finite 0], #[0], #[.finite 0, .finite 6]⟩ := by
    have hstep := htraj.step 0 (by decide)
    rw [htraj.start, htraj.count] at hstep
    exact (hstep.inj hround).1
  have hgradient : pair.gradientStep (.constant (1 : Extended)) (e 1)
      = .ok ⟨#[0], #[.finite 8], 2⟩ := by
    rw [hfirst]
    cbv
  have hsupport : (⟨#[0], #[.finite 8], 2⟩ : Thresholded Extended).indices = (e 1).support := by
    rw [hfirst]
  obtain ⟨-, hsame, hstable, hstagnation, hlonger⟩ :=
    hrepeat 1 _ one_pos (by decide) hgradient hsupport
  have hnorm : (residualNormAt e 2 : Extended) = .finite 6 := by
    unfold residualNormAt
    rw [hsame, hfirst]
    cbv
  rw [hnorm] at hstagnation
  have hfires := (hstagnation rfl).2 (by decide +kernel)
  refine ⟨_, e, q, recover_htp_pair, rfl, htraj, hsame, hstable, hfires, fun l hl => ?_⟩
  obtain ⟨⟨e', q', htraj'⟩, hall⟩ := hlonger l hl
  obtain ⟨hstays, hbest, -⟩ := hall 0 e' q' htraj'
  exact ⟨e', q', htraj', (hstays l (by omega) le_rfl).2, hbest⟩

/-! ## An infinite threshold -/

/-- A gradient step of constant length that keeps one of two coordinates. -/
lemma gradientStep_constant_two {μ : R} {y₁ y₂ : T} (hk : p.sparsity = 1)
    (h : (do
      let g ← p.operator.applyAdjoint f.residual
      return Array.zipWith (fun xi gi => xi + Scalar.scaleReal gi μ) f.x g) = .ok #[y₁, y₂]) :
    p.gradientStep (.constant μ) f
      = .ok (if Support.ranksBefore (0, (Scalar.modulus y₁ : R)) (1, Scalar.modulus y₂)
          then ⟨#[0], #[y₁], 2⟩ else ⟨#[1], #[y₂], 2⟩) := by
  obtain ⟨g, hg, hmoved⟩ := Except.bind_eq_ok.1 h
  unfold gradientStep
  rw [hg, Except.ok_bind, hk]
  show Except.ok (Signal.hardThreshold _ 1) = _
  rw [Except.ok.inj hmoved, Signal.hardThreshold, Support.largest_two]
  split <;> simp

/-- One row measured by three operators that add up to `(2 ^ 10, 2 ^ (-30))`. The first two cancel,
except where the measurement makes them overflow. -/
def overflowingPair : Problem Float where
  operator :=
    .plus (.plus (row 1073741824 0) (row (-1073741824) 0)) (row 1024 9.313225746154785e-10)
  measurement := #[1.0715086071862673e301]
  sparsity := 1
  backend := .columnwise
where
  row (a b : Float) : Operator Float := .dense (m := 1) (n := 2) (.ofFn fun _ => ![a, b])

namespace overflowingPair

/-- The fit on the second coordinate overflows. -/
def overflowed : Estimate Float := ⟨#[0, 1 / 0], #[1], #[0 / 0]⟩

/-- The fit on the first coordinate is exact. -/
def fitted : Estimate Float := ⟨#[1.0463951242053392e298, 0], #[0], #[0]⟩

/-- A round from its parts: the signal `y₁, y₂` before thresholding, the coordinate that is kept,
its column and the coefficient fitted to it. -/
lemma round_returns {e e' : Estimate Float} (i : ℕ) (y₁ y₂ a z : Float) {k : ℕ} (hk : k < 2)
    (hstep : (do
      let g ← overflowingPair.operator.applyAdjoint e.residual
      return Array.zipWith (fun xi gi => xi + Scalar.scaleReal gi 1) e.x g) = .ok #[y₁, y₂])
    (hrank : (if Support.ranksBefore (0, (Scalar.modulus y₁ : Float)) (1, Scalar.modulus y₂)
      then 0 else 1) = k)
    (hcolumn : ∀ j : Fin 1, (ColumnSubset.toOperator ⟨overflowingPair.operator, #[k]⟩).image
      (Signal.unit 1 j) = .ok #v[a])
    (hsolve : (Backend.columnwise (T := Float)).solve 0 (m := 1) (n := 1)
      ⟨Vector.ofFn fun _ => #v[a]⟩ overflowingPair.measurement = .ok #[z])
    (hx : Signal.embed 2 #[k] #[z] = .ok e'.x) (hsupport : e'.support = #[k])
    (hresidual : overflowingPair.operator.residual overflowingPair.measurement e'.x
      = .ok e'.residual) :
    (overflowingPair.round (.htp (.constant (1 : Float))) e).Returns i e' (i + 1) := by
  have ht := gradientStep_constant_two (p := overflowingPair) rfl hstep
  have hindices : (if Support.ranksBefore (0, (Scalar.modulus y₁ : Float)) (1, Scalar.modulus y₂)
      then ⟨#[0], #[y₁], 2⟩ else ⟨#[1], #[y₂], 2⟩ : Thresholded Float).indices = #[k] := by
    rw [← hrank]
    split <;> rfl
  refine htpRound_returns.2 ⟨_, #[z], e'.x, ht, ?_, ?_, ?_⟩
  · rw [hindices]
    have hvalid : Support.Valid 2 #[k] := ⟨List.nodup_singleton k, by simpa using hk⟩
    exact Operator.solveOn_returns.2
      ⟨rfl, hvalid, _, Operator.restrictedMatrix_eq_of_image hcolumn, hsolve, rfl⟩
  · rw [hindices]
    exact hx
  · rw [hindices]
    exact estimate_eq_ok.2 ⟨rfl, hsupport, hresidual⟩

/-- The fit on the second coordinate overflows, the next one is exact, and the third round repeats
it. -/
lemma rounds :
    (overflowingPair.round (.htp (.constant (1 : Float))) overflowingPair.start).Returns 0
      overflowed 1 ∧
    (overflowingPair.round (.htp (.constant (1 : Float))) overflowed).Returns 1 fitted 2 ∧
    (overflowingPair.round (.htp (.constant (1 : Float))) fitted).Returns 2 fitted 3 := by
  refine ⟨?_, ?_, ?_⟩
  · refine round_returns 0 (0 / 0) 9.9792015476736e291 9.313225746154785e-10 (1 / 0) one_lt_two
      ?_ ?_ ?_ ?_ ?_ rfl ?_
    all_goals decide +kernel
  · refine round_returns 1 (0 / 0) (0 / 0) 1024 1.0463951242053392e298 two_pos
      ?_ ?_ ?_ ?_ ?_ rfl ?_
    all_goals decide +kernel
  · refine round_returns 2 1.0463951242053392e298 0 1024 1.0463951242053392e298 two_pos
      ?_ ?_ ?_ ?_ ?_ rfl ?_
    all_goals decide +kernel

/-- Any finite drop of the residual counts as stagnation. -/
def options : Options Float := { Options.fixedStep 1 with stagnation := 1 / 0 }

lemma check_options : overflowingPair.check options = .ok () := by
  refine check_eq_ok.2 ⟨Options.validate_eq_ok.2 ?_, rfl, by decide, by decide +kernel⟩
  refine ⟨by decide, by decide +kernel, by decide +kernel, fun μ hμ => ?_⟩
  cases hμ
  decide +kernel

/-- HTP overflows in the first round and returns to the same fit in the two after it. -/
lemma run :
    overflowingPair.Run (.htp (.constant (1 : Float))) options.convergence 0 2
      (prepend overflowingPair.start (prepend overflowed fun _ => fitted)) id := by
  refine ⟨⟨rfl, rfl, fun s hs => ?_⟩, fun s hs => ?_, ?_⟩
  · interval_cases s
    · exact rounds.1
    · exact rounds.2.1
    · exact rounds.2.2
  · interval_cases s <;> decide +kernel
  · decide +kernel

end overflowingPair

/-- The residual of the second iteration is zero, which the tolerance does not notice because the
measurement has no finite norm. The third iteration repeats the support, and the norm stays zero;
the infinite threshold times this norm is a NaN, and stagnation is not reported. -/
theorem recover_repeats_silently_overflowingPair :
    ∃ o : Options Float, o.validate = .ok () ∧ RealLike.le 0 o.stagnation = true ∧
      overflowingPair.backend.Pure ∧
      ∃ (r : Recovered Float Float) (e : ℕ → Estimate Float) (q : ℕ → ℕ) (t : Thresholded Float),
        (overflowingPair.recover .htp o).Returns 0 r 3 ∧ r.iterations = 3 ∧
        overflowingPair.Trajectory (.htp (.constant (1 : Float))) 0 3 e q ∧
        overflowingPair.gradientStep (.constant (1 : Float)) (e 2) = .ok t ∧
        t.indices = (e 2).support ∧
        RealLike.isFinite (residualNormAt e 3 : Float) = true ∧
        r.reason.supportStable = true ∧ r.reason.stagnation = false := by
  have hrun := overflowingPair.run
  have hmethod : Algorithm.htp.method overflowingPair.operator overflowingPair.options
      = .ok (.htp (.constant (1 : Float))) := rfl
  have hcheck := overflowingPair.check_options
  have hreturns := (recover_returns_pursue (by decide +kernel) one_pos one_lt_two).2
    ⟨hcheck, hrun.returns_pursue hmethod (by decide)⟩
  have hlast := hrun.step 2 (by decide)
  obtain ⟨t, -, -, ht, -⟩ := htpRound_returns.1 hlast
  have hrepeat : t.indices = overflowingPair.fitted.support := (htpRound_support ht hlast).symm
  refine ⟨overflowingPair.options, (check_eq_ok.1 hcheck).1, ?_, Backend.ofSolver_pure _ _, _, _, _,
    t, hreturns, size_norms_recordAt _ _ _, hrun.toTrajectory, ht, hrepeat, ?_, ?_, ?_⟩
  all_goals decide +kernel

end Problem
end CompressedSensing
