import Mathlib
import CompressedSensing.Proofs.Recovery.Multiples
import CompressedSensing.Proofs.Recovery.Pairs
import CompressedSensing.Proofs.Recovery.Success
import CompressedSensing.Proofs.Signal.BestApproximation
import CompressedSensing.Proofs.Signal.LineSearch
/-!
# Normalized steps and the scale of the operator

Multiplying the operator by `c` is a change of scale: signals are divided by `c`, residuals stay,
and the fitted steps are divided by `|c|²`. So recoveries with normalized steps find the same
support with the same residuals at every scale, as long as their steps are fitted.

Where the gradient vanishes on the support there is nothing to fit, and the step is one at every
scale. That is the usual case after the coefficients have been fitted exactly. A step of one at
scale `c` corresponds to a step of `|c|²`, and which entries it brings in can depend on the scale.
The first round does not depend on it: there the gradient vanishes on its own largest entries only
if it vanishes altogether.
-/

namespace CompressedSensing

open Matrix Reals
open scoped ExactScalar

variable {T : Type} [Scalar T ℝ] [NormedScalar T] {c : T}

namespace Problem

variable {p : Problem T} {M : Matrix (Fin p.operator.rows) (Fin p.operator.cols) T}

/-! ## Rounds with nothing to fit -/

/-- The gradient vanishes on the support that a normalized step would be fitted to. -/
def Flat (p : Problem T) (e : Estimate T) : Prop :=
  ∀ g, p.operator.applyAdjoint e.residual = .ok g →
    ∀ l ∈ GradientStep.fittedSupport e.support g p.sparsity, g.getD l 0 = 0

variable {e : Estimate T}

/-- A step falls back to one only where the gradient vanishes on the support. -/
lemma Linear.flat (h : p.Linear M) (he : p.Consistent M e)
    (hs : Support.Ascending p.operator.cols e.support) (hfalls : p.FallsBack e) : p.Flat e := by
  intro g hg
  obtain ⟨g', hg', v, gs, y, hv, hgs, hy, hzero⟩ := hfalls
  obtain rfl := Except.ok.inj (hg'.symm.trans hg)
  have hsize : g'.size = p.operator.cols := Operator.size_applyAdjoint hg
  have hsupport := GradientStep.fittedSupport_ascending (hsize ▸ hs) p.sparsity
  generalize GradientStep.fittedSupport e.support g' p.sparsity = s at *
  have hvalid : Support.Valid p.operator.cols s := hsize ▸ hsupport.valid
  -- the part of the gradient that was looked at
  obtain rfl : g'.restrict s = gs := by
    rw [Signal.gather_eq hsupport.valid] at hv
    cases hv
    have hpart := Signal.embed_valuesAt hsupport.valid
    rw [hsize, hgs] at hpart
    exact (Except.ok.inj hpart).symm
  have hpartsize : (g'.restrict s).size = p.operator.cols := Signal.size_embed hgs
  have hvanish : Signal.coords p.operator.cols (g'.restrict s) = 0 := by
    rw [Bool.or_eq_true] at hzero
    rcases hzero with hzero | hzero
    · rw [Signal.normSq_eq_energy hpartsize] at hzero
      exact eq_zero_of_energy (by simpa [RealLike.isZero] using hzero)
    · rw [h.images.apply_eq _ hpartsize] at hy
      cases hy
      rw [Signal.normSq_eq_energy Array.size_ofFn, Signal.coords_ofFn] at hzero
      rw [h.applyAdjoint_eq he] at hg
      refine coords_restrict_eq_zero hvalid (Except.ok.inj hg).symm ?_
      exact eq_zero_of_energy (by simpa [RealLike.isZero] using hzero)
  intro l hl
  have hentry := congrFun hvanish ⟨l, hvalid.lt l (Array.mem_toList_iff.2 hl)⟩
  rw [Signal.coords_restrict hvalid hsize, if_pos hl] at hentry
  exact hentry

/-- Along a gradient that vanishes every step stays where it is. -/
lemma take_of_vanishing {x g : Signal T} (hsize : g.size = x.size) (hg : ∀ l, g.getD l 0 = 0)
    (μ : ℝ) (k : ℕ) : GradientStep.take x g μ k = Signal.hardThreshold x k := by
  unfold GradientStep.take
  refine congrArg (Signal.hardThreshold · k) (Array.ext ?_ fun l hl hl' => ?_)
  · rw [Array.size_zipWith, hsize, min_self]
  · have hzero := hg l
    have hlg : l < g.size := hsize ▸ hl'
    rw [Array.getD_eq_getD_getElem?, Array.getElem?_eq_getElem hlg, Option.getD_some] at hzero
    rw [Array.getElem_zipWith, hzero, Scalar.scaleReal, zero_mul, add_zero]

/-- Accepted or halved, a step along a gradient that vanishes ends where the first one does. -/
lemma Linear.backtrack_of_vanishing (h : p.Linear M) {x g : Signal T}
    (hx : x.size = p.operator.cols) (hsize : g.size = x.size) (hzero : ∀ l, g.getD l 0 = 0)
    (s : Array ℕ) (k halvings : ℕ) (μ : ℝ) :
    ∃ settled, GradientStep.backtrack p.operator x g k s halvings μ (Signal.hardThreshold x k)
      = .ok ⟨Signal.hardThreshold x k, settled⟩ := by
  have hmove : (Array.zipWith (· - ·) (Signal.hardThreshold x k).toDense x).size
      = p.operator.cols := by
    rw [Array.size_zipWith, (Signal.hardThreshold_supportedOn x k).size_eq, min_self, hx]
  induction halvings generalizing μ with
  | zero => exact ⟨false, rfl⟩
  | succ halvings ih =>
    unfold GradientStep.backtrack
    split
    · exact ⟨true, rfl⟩
    · dsimp only
      rw [h.images.apply_eq _ hmove, Except.ok_bind]
      split
      · exact ⟨true, rfl⟩
      · split
        · exact ⟨true, rfl⟩
        · rw [take_of_vanishing hsize hzero]
          exact ih _

/-- If the gradient vanishes altogether, the step makes no difference. -/
lemma Linear.backtrackFrom_of_vanishing (h : p.Linear M) (hx : e.x.size = p.operator.cols)
    {g : Signal T} (hg : p.operator.applyAdjoint e.residual = .ok g) (hzero : ∀ l, g.getD l 0 = 0)
    (μ : ℝ) : p.backtrackFrom e μ = .ok (Signal.hardThreshold e.x p.sparsity) := by
  have hsize : g.size = e.x.size := (Operator.size_applyAdjoint hg).trans hx.symm
  obtain ⟨settled, hback⟩ := h.backtrack_of_vanishing hx hsize hzero
    (GradientStep.fittedSupport e.support g p.sparsity) p.sparsity GradientStep.maxHalvings μ
  unfold backtrackFrom
  rw [hg, Except.ok_bind, take_of_vanishing hsize hzero]
  dsimp only
  rw [hback]
  rfl

/-- In the first round the gradient vanishes on its largest entries only if it vanishes. -/
lemma Linear.sameMove_start (h : p.Linear M) (hk : 0 < p.sparsity) (hflat : p.Flat p.start)
    (alg : Algorithm) (μ ν : ℝ) : p.SameMove alg p.start μ ν := by
  have hg := h.applyAdjoint_eq h.start_consistent
  have hx : p.start.x.size = p.operator.cols := p.start_supportedOn.size_eq
  generalize Array.ofFn (Mᴴ *ᵥ p.misfit M p.start.x) = g at hg
  have hlargest := hflat g hg
  rw [GradientStep.fittedSupport, if_pos (by rfl)] at hlargest
  have hzero := Support.eq_zero_of_largest hk hlargest
  left
  rw [h.backtrackFrom_of_vanishing hx hg hzero, h.backtrackFrom_of_vanishing hx hg hzero]

/-! ## Recoveries -/

/-- In a run with normalized steps, a step of one and a step of `ν` lead to the same move wherever
there is nothing to fit after the first round. -/
def FallsBackAlike (p : Problem T) (alg : Algorithm) (o : Options ℝ) (i : ℕ) (ν : ℝ) : Prop :=
  ∀ (u : ℕ) (e : ℕ → Estimate T) (q : ℕ → ℕ), p.Run alg.normalizedMethod o.convergence i u e q →
    ∀ s, 1 ≤ s → s ≤ u → p.Flat (e s) → p.SameMove alg (e s) 1 ν

lemma Linear.round_scaled (h : p.Linear M) (hs : p.backend.Shortest) {alg : Algorithm}
    (halg : alg = .iht ∨ alg = .htp) (hk : 0 < p.sparsity) (hn : p.sparsity ≤ p.operator.cols)
    (hc : c ≠ 0) {o : Options ℝ} {i u : ℕ} {e : ℕ → Estimate T} {q : ℕ → ℕ}
    (hsame : p.FallsBackAlike alg o i (Scalar.normSq c))
    (hrun : p.Run alg.normalizedMethod o.convergence i u e q) {s : ℕ} (hsu : s ≤ u) :
    ((p.scaled c).round alg.normalizedMethod ((Rescaling.ofFactor hc).estimate (e s))).Returns (q s)
      ((Rescaling.ofFactor hc).estimate (e (s + 1))) (q (s + 1)) := by
  have htraj := hrun.toTrajectory
  have hrule : alg.normalizedMethod = .iht .normalized ∨
      alg.normalizedMethod = .htp .normalized := by
    rcases halg with rfl | rfl
    · exact .inl rfl
    · exact .inr rfl
  obtain ⟨hx, hr⟩ := htraj.sizes h.size_eq (show s ≤ u + 1 by omega)
  have hsupp := (htraj.step_supportedOn hrule h.size_eq hn (show s ≤ u + 1 by omega)).1
  refine (h.rescaled hs hc).round_returns halg hx hr (fun hfalls => ?_) (htraj.step s (by omega))
  have hflat := h.flat (h.trajectory_consistent htraj (show s ≤ u + 1 by omega))
    hsupp.ascending hfalls
  have hfactor : (Rescaling.ofFactor hc).step⁻¹ = Scalar.normSq c := inv_inv _
  rw [hfactor]
  -- the first round starts from zero, where a flat gradient vanishes; of later ones it is assumed
  rcases s.eq_zero_or_pos with rfl | hpos
  · rw [htraj.start] at hflat ⊢
    exact h.sameMove_start hk hflat alg 1 _
  · exact hsame u e q hrun s hpos hsu hflat

/-- With normalized steps and shortest least-squares solutions, both algorithms that take gradient
steps recover the same from a measurement by a multiple of an operator, up to the factor: the same
support with the same residuals, after as many iterations and for the same reasons. A step of one
that a round falls back to has no scale, so it must not matter there. -/
theorem recover_scaled [DecimalText ℝ] (ha : p.operator.Adjunction) (hs : p.backend.Shortest)
    {alg : Algorithm} (halg : alg = .iht ∨ alg = .htp) {o : Options ℝ} (ho : o.validate = .ok ())
    (hstep : o.step = .normalized) (hb : p.measurement.size = p.operator.rows)
    (hk : 0 < p.sparsity) (hn : p.sparsity ≤ p.operator.cols) (hc : c ≠ 0) (i : ℕ)
    (hsame : p.sparsity < p.operator.cols → p.FallsBackAlike alg o i (Scalar.normSq c)) :
    ∃ r r' j, (p.recover alg o).Returns i r j ∧ ((p.scaled c).recover alg o).Returns i r' j ∧
      r'.x = r.x.map (· / c) ∧ r'.support = r.support ∧ r'.iterations = r.iterations ∧
      r'.residualNorms = r.residualNorms ∧ r'.residualNorm = r.residualNorm ∧
      r'.converged = r.converged ∧ r'.reason = r.reason := by
  obtain ⟨M, hM⟩ := ha.exists_hasImages
  have h : p.Linear M := ⟨hM, hb⟩
  have hcheck : p.check o = .ok () := check_eq_ok.2 ⟨ho, hb, hn, nonfiniteEntry?_eq_none p⟩
  obtain ⟨r, j, hr⟩ := h.recover_returns hs.leastSquares alg hcheck i
  have hr' := (h.rescaled hs hc).recover_returns (fun _ => rfl)
    (alg.method_eq_normalizedMethod _ hstep)
    (alg.method_eq_normalizedMethod _ hstep)
    (fun hlt _ _ _ hrun _ hsu => h.round_scaled hs halg hk hn hc (hsame hlt) hrun hsu) hr
  refine ⟨r, _, j, hr, hr', Signal.scale_one_div hc r.x, rfl, rfl, ?_, one_mul _, rfl, rfl⟩
  show r.residualNorms.map (1 * ·) = _
  simp only [one_mul, Array.map_id_fun', id_eq]

end Problem

/-! ## One of two coordinates

Both cases occur with two coordinates of which one is wanted. -/

namespace Problem

/-- A step that is not too long keeps the first coordinate. -/
lemma backtrackFrom_fstFit_unevenPair {μ : ℝ} (hμ : 4 * |μ| ≤ 5) :
    unevenPair.backtrackFrom (fstFit 5) μ = .ok ⟨#[0], #[5], 2⟩ := by
  have hs := fittedSupport_fst #[1 * 0, 1 / 4 * 16]
  have hle : |0 + 1 / 4 * 16 * μ| ≤ |5 + 1 * 0 * μ| := by norm_num [hμ]
  have hback := isPair_unevenPair.backtrackFrom_eq hs hle
  rwa [mul_zero, zero_mul, add_zero] at hback

/-- From the first round on a run stays at the fit of the first coordinate, and from there a step
of one and a step of a quarter keep it. -/
lemma fallsBackAlike_unevenPair (o : Options ℝ) (i : ℕ) :
    unevenPair.FallsBackAlike .iht o i (1 / 4) := by
  intro u e q hrun s hpos hs _
  have hstays : ∀ l ≤ u, e (l + 1) = fstFit 5 := by
    intro l hl
    have hround := (Solving.returns_ofExcept.1 (hrun.step l (by omega))).1
    induction l with
    | zero =>
      rw [hrun.start, ihtRound_start_unevenPair] at hround
      exact (Except.ok.inj hround).symm
    | succ l ih =>
      have hbefore := ih (by omega) (Solving.returns_ofExcept.1 (hrun.step l (by omega))).1
      rw [hbefore, ihtRound_fstFit_unevenPair] at hround
      exact (Except.ok.inj hround).symm
  obtain ⟨l, rfl⟩ : ∃ l, s = l + 1 := ⟨s - 1, by omega⟩
  rw [hstays l (by omega)]
  left
  rw [backtrackFrom_fstFit_unevenPair (by norm_num), backtrackFrom_fstFit_unevenPair (by norm_num)]

/-- At half the scale the estimate is twice as large. -/
theorem recover_scaled_unevenPair :
    ∃ r r' j, (unevenPair.recover .iht Options.twoRounds).Returns 0 r j ∧
      ((unevenPair.scaled (1 / 2)).recover .iht Options.twoRounds).Returns 0 r' j ∧
      r'.x = r.x.map (· / (1 / 2)) ∧ r'.support = r.support ∧ r'.iterations = r.iterations ∧
      r'.residualNorms = r.residualNorms ∧ r'.residualNorm = r.residualNorm ∧
      r'.converged = r.converged ∧ r'.reason = r.reason := by
  have hfactor : (Scalar.normSq (1 / 2 : ℝ) : ℝ) = 1 / 4 := by
    show (1 / 2 : ℝ) * (1 / 2) = 1 / 4
    norm_num
  refine recover_scaled linear_unevenPair.images.adjunction Backend.shortest_shortest (.inl rfl)
    validate_twoRounds rfl rfl one_pos one_le_two (by norm_num) 0 fun _ => ?_
  rw [hfactor]
  exact fallsBackAlike_unevenPair _ 0

/-- At twice the scale the step of one lets the second coordinate in, and the answer has another
support with a smaller residual. -/
theorem recover_depends_on_scale_unevenPair :
    unevenPair.operator.Adjunction ∧ unevenPair.backend.Shortest ∧
      Options.twoRounds.validate = .ok () ∧ Options.twoRounds.step = .normalized ∧
      ∃ r r' j, (unevenPair.recover .iht Options.twoRounds).Returns 0 r j ∧
        ((unevenPair.scaled 2).recover .iht Options.twoRounds).Returns 0 r' j ∧
        r.support = #[0] ∧ r.residualNorms = #[16, 16] ∧
        r'.support = #[1] ∧ r'.residualNorms = #[16, 13] := by
  refine ⟨linear_unevenPair.images.adjunction, Backend.shortest_shortest, validate_twoRounds, rfl,
    ?_⟩
  have hmeasurement := lt_norm_measurement_unevenPair
  have hb : RealLike.isZero (Signal.norm unevenPair.measurement : ℝ) = false :=
    decide_eq_false (by linarith)
  have hcheck : unevenPair.check Options.twoRounds = .ok () :=
    check_eq_ok.2 ⟨validate_twoRounds, rfl, one_le_two, nonfiniteEntry?_eq_none _⟩
  have hcheck' : (unevenPair.scaled 2).check Options.twoRounds = .ok () :=
    check_eq_ok.2 ⟨validate_twoRounds, rfl, one_le_two, nonfiniteEntry?_eq_none _⟩
  obtain ⟨r, hr, hnorms, hsupport⟩ := pursue_twoRounds ihtRound_start_unevenPair
    ihtRound_fstFit_unevenPair (by rw [norm_fstFit]; norm_num) (by rwa [norm_fstFit])
  obtain ⟨r', hr', hnorms', hsupport'⟩ := pursue_twoRounds (p := unevenPair.scaled 2)
    ihtRound_start_scaled_unevenPair ihtRound_fstFit_scaled_unevenPair
    (by rw [norm_fstFit]; norm_num) (by rwa [norm_fstFit])
  rw [norm_fstFit] at hnorms hsupport
  rw [norm_fstFit, norm_sndStep] at hnorms' hsupport'
  rw [if_neg (lt_irrefl _)] at hsupport
  rw [if_pos (by norm_num)] at hsupport'
  exact ⟨r, r', 0, (recover_returns_pursue hb one_pos one_lt_two).2 ⟨hcheck, hr⟩,
    (recover_returns_pursue (p := unevenPair.scaled 2) hb one_pos one_lt_two).2 ⟨hcheck', hr'⟩,
    hsupport, hnorms, hsupport', hnorms'⟩

end Problem
end CompressedSensing
