import Mathlib
import CompressedSensing.Proofs.Recovery.Orthonormal
import CompressedSensing.Proofs.Recovery.Representation
import CompressedSensing.Proofs.Signal.Scaling
/-!
# Problems that differ by a change of scale

A change of scale multiplies the signals of one problem by a factor and maps its residuals to those
of another one. If the residuals, gradients and fits of the second problem are what the change makes
of those of the first, so are its gradient steps and rounds.

Steps have a scale of their own, and normalized steps adapt to it. What does not adapt is the step
of one that they fall back to where there is nothing to fit: there the second problem moves like
the first one would from another step. So the rounds that fall back have to be looked at one by one.
-/

namespace CompressedSensing

open Reals
open scoped ExactScalar

variable {T : Type} [Scalar T ℝ] [NormedScalar T]

/-- A change of scale: the factors of signals, of step lengths and of the norms of residuals, and
the map of residuals. -/
structure Rescaling (T : Type) [Scalar T ℝ] where
  signal : T
  step : ℝ
  norm : ℝ
  residual : Signal T → Signal T
  signal_ne : signal ≠ 0
  step_pos : 0 < step
  norm_pos : 0 < norm

namespace Rescaling

/-- The factor of gradients, which turns the factor of steps into the one of signals. -/
noncomputable def gradient (σ : Rescaling T) : T := σ.signal * Scalar.ofReal σ.step⁻¹

/-- What becomes of an estimate. -/
def estimate (σ : Rescaling T) (e : Estimate T) : Estimate T :=
  ⟨Signal.scale σ.signal e.x, e.support, σ.residual e.residual⟩

/-- What becomes of an answer. -/
noncomputable def answer (σ : Rescaling T) (r : Recovered T ℝ) : Recovered T ℝ :=
  { r with
    x := Signal.scale σ.signal r.x
    residualNorms := r.residualNorms.map (σ.norm * ·)
    residualNorm := σ.norm * r.residualNorm }

variable (σ : Rescaling T)

/-- The factor of the gradients is not zero. -/
lemma gradient_ne : σ.gradient ≠ 0 := by
  intro h
  have hstep : (Scalar.ofReal σ.step⁻¹ : T) * Scalar.ofReal σ.step = 1 := by
    rw [← NormedScalar.ofReal_mul, inv_mul_cancel₀ σ.step_pos.ne', EuclideanScalar.ofReal_one]
  have hzero : σ.signal = σ.gradient * Scalar.ofReal σ.step := by
    rw [gradient, mul_assoc, hstep, mul_one]
  rw [h, zero_mul] at hzero
  exact σ.signal_ne hzero

/-- The images of multiples are as long as the scale of steps wants them to be. -/
def Images (a a' : Operator T) : Prop :=
  ∀ (d : T) (x y : Signal T), x.size = a.cols → a.apply x = .ok y →
    ∃ y', a'.apply (Signal.scale d x) = .ok y' ∧
      σ.step * Signal.normSq y' = Scalar.normSq d * Signal.normSq y

end Rescaling

/-! ## Gradient steps -/

lemma isZero_eq_of_mul_eq {s t u v : ℝ} (hs : 0 < s) (ht : 0 < t) (h : s * u = t * v) :
    RealLike.isZero u = RealLike.isZero v := by
  have hiff : u = 0 ↔ v = 0 := by
    rw [← mul_eq_zero_iff_left hs.ne', h, mul_eq_zero_iff_left ht.ne']
  exact decide_eq_decide.2 hiff

lemma mul_div_eq_of_mul_eq {s t u v : ℝ} (ht : 0 < t) (hv : v ≠ 0) (h : s * u = t * v) (c d : ℝ) :
    c * (t * d) / u = s * (c * d / v) := by
  have hu : u ≠ 0 := by
    rintro rfl
    rw [mul_zero] at h
    exact hv ((mul_eq_zero_iff_left ht.ne').1 h.symm)
  field_simp
  linear_combination -c * d * h

namespace GradientStep

variable {σ : Rescaling T} {a a' : Operator T} {x g : Signal T} {s : Array ℕ} {k : ℕ}

/-- A scaled step from a scaled signal gives the scaled signal. -/
lemma take_scale (x g : Signal T) (μ : ℝ) (k : ℕ) :
    take (Signal.scale σ.signal x) (Signal.scale σ.gradient g) (σ.step * μ) k
      = (take x g μ k).scale σ.signal := by
  have hstep : (Scalar.ofReal σ.step⁻¹ : T) * Scalar.ofReal σ.step = 1 := by
    rw [← NormedScalar.ofReal_mul, inv_mul_cancel₀ σ.step_pos.ne', EuclideanScalar.ofReal_one]
  unfold take
  rw [Signal.zipWith_scale σ.signal x g, Signal.hardThreshold_scale σ.signal_ne]
  intro u v
  simp only [Scalar.scaleReal, Rescaling.gradient, NormedScalar.ofReal_mul]
  linear_combination v * σ.signal * Scalar.ofReal μ * hstep

/-- The move of a step is multiplied by the factor of signals. -/
lemma move_scale (c : T) (t : Thresholded T) (x : Signal T) :
    Array.zipWith (· - ·) (t.scale c).toDense (Signal.scale c x)
      = Signal.scale c (Array.zipWith (· - ·) t.toDense x) := by
  rw [Thresholded.toDense_scale]
  exact Signal.zipWith_scale c _ _ fun u v => (sub_mul u v c).symm

/-- Backtracking makes the same decisions at both scales. -/
lemma backtrack_scale (himages : σ.Images a a') (hx : x.size = a.cols) (hg : g.size = a.cols)
    (halvings : ℕ) (μ : ℝ) {b : Backtracked T}
    (h : backtrack a x g k s halvings μ (take x g μ k) = .ok b) :
    backtrack a' (Signal.scale σ.signal x) (Signal.scale σ.gradient g) k s halvings (σ.step * μ)
      ((take x g μ k).scale σ.signal) = .ok ⟨b.next.scale σ.signal, b.settled⟩ := by
  induction halvings generalizing μ with
  | zero =>
    cases h
    rfl
  | succ halvings ih =>
    unfold backtrack at h ⊢
    -- the first test compares supports, which scaling keeps
    have hindices : ((take x g μ k).scale σ.signal).indices = (take x g μ k).indices := rfl
    rw [hindices]
    split at h
    · rename_i hsame
      cases h
      rw [if_pos hsame]
      rfl
    · rename_i hother
      rw [if_neg hother]
      obtain ⟨y, hy, h⟩ := Except.bind_eq_ok.1 h
      have hsize : (Array.zipWith (· - ·) (take x g μ k).toDense x).size = a.cols := by
        rw [Array.size_zipWith, size_toDense_take, hx, hg, min_self, min_self]
      obtain ⟨y', hy', hseen⟩ := himages σ.signal _ y hsize hy
      have hfactor := NormedScalar.normSq_pos σ.signal_ne
      dsimp only at h ⊢
      -- the second asks whether anything is seen of the move
      rw [move_scale, hy', Except.ok_bind, Signal.normSq_scale,
        isZero_eq_of_mul_eq σ.step_pos hfactor hseen]
      split at h
      · rename_i hzero
        cases h
        rw [if_pos hzero]
        rfl
      · rename_i hzero
        rw [if_neg hzero]
        have hpos : (Signal.normSq y : ℝ) ≠ 0 := by
          simpa [RealLike.isZero] using hzero
        -- the third compares the step with a bound, and both sides have the scale of steps
        have hle (t : ℝ) : RealLike.le (σ.step * μ) (σ.step * t) = RealLike.le μ t :=
          decide_eq_decide.2 (mul_le_mul_iff_right₀ σ.step_pos)
        rw [mul_div_eq_of_mul_eq hfactor hpos hseen, hle]
        split at h
        · rename_i hshort
          cases h
          rw [if_pos hshort]
          rfl
        · rename_i hshort
          rw [if_neg hshort, mul_div_assoc, take_scale]
          exact ih _ h

/-- Scaling the gradient keeps the support of the step. -/
lemma fittedSupport_scale (s : Array ℕ) (g : Signal T) (k : ℕ) :
    fittedSupport s (Signal.scale σ.gradient g) k = fittedSupport s g k := by
  unfold fittedSupport
  rw [Support.largest_scale σ.gradient_ne]

/-- There is nothing to fit the step to: the gradient has no entry at the support, or its part there
is not seen. -/
def FallsBack (a : Operator T) (n : ℕ) (s : Array ℕ) (g : Signal T) : Prop :=
  ∃ v gs y, g.gather s = .ok v ∧ Signal.embed n s v = .ok gs ∧ a.apply gs = .ok y ∧
    (RealLike.isZero (Signal.normSq gs : ℝ) || RealLike.isZero (Signal.normSq y : ℝ)) = true

/-- A fitted step has the scale of steps. The step of one, where there is nothing to fit, does
not. -/
lemma fittedStep_scale (himages : σ.Images a a') {μ : ℝ} (h : fittedStep a a.cols s g = .ok μ) :
    fittedStep a' a.cols s (Signal.scale σ.gradient g) = .ok (σ.step * μ) ∨
      FallsBack a a.cols s g ∧ μ = 1 ∧
        fittedStep a' a.cols s (Signal.scale σ.gradient g) = .ok (1 : ℝ) := by
  unfold fittedStep at h
  obtain ⟨v, hv, h⟩ := Except.bind_eq_ok.1 h
  obtain ⟨gs, hgs, h⟩ := Except.bind_eq_ok.1 h
  obtain ⟨y, hy, h⟩ := Except.bind_eq_ok.1 h
  obtain ⟨y', hy', hseen⟩ := himages σ.gradient gs y (Signal.size_embed hgs) hy
  have hfactor := NormedScalar.normSq_pos σ.gradient_ne
  have hsize : RealLike.isZero (Signal.normSq (Signal.scale σ.gradient gs) : ℝ)
      = RealLike.isZero (Signal.normSq gs) := by
    refine isZero_eq_of_mul_eq one_pos hfactor ?_
    rw [one_mul, Signal.normSq_scale]
  have hstep : fittedStep a' a.cols s (Signal.scale σ.gradient g)
      = .ok (if RealLike.isZero (Signal.normSq gs : ℝ) || RealLike.isZero (Signal.normSq y : ℝ)
        then 1 else Signal.normSq (Signal.scale σ.gradient gs) / Signal.normSq y') := by
    unfold fittedStep
    rw [Signal.gather_scale _ hv, Except.ok_bind, Signal.embed_scale _ hgs, Except.ok_bind]
    dsimp only
    rw [hy', Except.ok_bind, hsize, isZero_eq_of_mul_eq σ.step_pos hfactor hseen]
    rfl
  rw [hstep]
  cases h
  split
  · rename_i hfalls
    exact .inr ⟨⟨v, gs, y, hv, hgs, hy, hfalls⟩, rfl, rfl⟩
  · rename_i hfits
    rw [Bool.or_eq_true, not_or] at hfits
    have hpos : (Signal.normSq y : ℝ) ≠ 0 := by
      simpa [RealLike.isZero] using hfits.2
    have hratio := mul_div_eq_of_mul_eq hfactor hpos hseen 1 (Signal.normSq gs)
    rw [one_mul, one_mul, ← Signal.normSq_scale] at hratio
    exact .inl (congrArg Except.ok hratio)

end GradientStep

namespace Problem

open GradientStep

variable {p p' : Problem T} {σ : Rescaling T} {e e' : Estimate T} {i j : ℕ}

omit [NormedScalar T] in
/-- Fits are multiples if the answers to their requests are. -/
lemma fit_returns_of_solve {c : T} {s : Array ℕ} {z : Signal T} (hz : (p.fit s).Returns i z j)
    (hsize : p'.measurement.size = p'.operator.rows)
    (hcols : p'.operator.cols = p.operator.cols)
    (hsolve : ∀ (s : Array ℕ) (i : ℕ) (z : Signal T) columns, Support.Valid p.operator.cols s →
      p.operator.restrictedMatrix s = .ok columns →
      p.backend.solve i columns p.measurement = .ok z →
        ∃ columns', p'.operator.restrictedMatrix s = .ok columns' ∧
          p'.backend.solve i columns' p'.measurement = .ok (Signal.scale c z)) :
    (p'.fit s).Returns i (Signal.scale c z) j := by
  obtain ⟨-, hvalid, hz⟩ := Operator.solveOn_returns.1 hz
  refine Operator.solveOn_returns.2 ⟨hsize, hcols ▸ hvalid, ?_⟩
  split at hz
  · rename_i hs
    rw [if_pos hs, hz.1]
    exact ⟨Array.map_empty, hz.2⟩
  · rename_i hs
    obtain ⟨columns, hcolumns, hanswer, rfl⟩ := hz
    obtain ⟨columns', hcolumns', hanswer'⟩ := hsolve s i z columns hvalid hcolumns hanswer
    rw [if_neg hs]
    exact ⟨columns', hcolumns', hanswer', rfl⟩

/-! ## Problems -/

/-- Residuals, gradients, images and fits of the second problem are what the change of scale makes
of those of the first. -/
structure Rescaled (p p' : Problem T) (σ : Rescaling T) : Prop where
  cols_eq : p'.operator.cols = p.operator.cols
  sparsity_eq : p'.sparsity = p.sparsity
  size_eq : p'.measurement.size = p'.operator.rows
  measurement_eq : p'.measurement = σ.residual p.measurement
  residual_eq (x r : Signal T) : x.size = p.operator.cols →
    p.operator.residual p.measurement x = .ok r →
    p'.operator.residual p'.measurement (Signal.scale σ.signal x) = .ok (σ.residual r)
  gradient_eq (r g : Signal T) : r.size = p.operator.rows → p.operator.applyAdjoint r = .ok g →
    p'.operator.applyAdjoint (σ.residual r) = .ok (Signal.scale σ.gradient g)
  norm_eq (r : Signal T) : r.size = p.operator.rows →
    (Signal.norm (σ.residual r) : ℝ) = σ.norm * Signal.norm r
  images : σ.Images p.operator p'.operator
  fit_returns (s : Array ℕ) (i j : ℕ) (z : Signal T) : (p.fit s).Returns i z j →
    (p'.fit s).Returns i (Signal.scale σ.signal z) j
  size_fit (i j : ℕ) (z : Signal T) : p.sparsity = p.operator.cols →
    (p.fit (Array.range p.operator.cols)).Returns i z j → z.size = p.operator.cols

/-- The thresholded move that backtracking ends with when it starts from the step `μ`. -/
noncomputable def backtrackFrom (p : Problem T) (e : Estimate T) (μ : ℝ) :
    Except Error (Thresholded T) := do
  let g ← p.operator.applyAdjoint e.residual
  let s := fittedSupport e.support g p.sparsity
  return (← backtrack p.operator e.x g p.sparsity s maxHalvings μ (take e.x g μ p.sparsity)).next

/-- The step of a round has nothing to be fitted to. -/
def FallsBack (p : Problem T) (e : Estimate T) : Prop :=
  ∃ g, p.operator.applyAdjoint e.residual = .ok g ∧
    GradientStep.FallsBack p.operator p.operator.cols (fittedSupport e.support g p.sparsity) g

/-- From either step, backtracking ends with the same move. For the algorithm that fits the
coefficients anyway it is enough that the moves have the same support. -/
def SameMove (p : Problem T) (alg : Algorithm) (e : Estimate T) (μ ν : ℝ) : Prop :=
  p.backtrackFrom e μ = p.backtrackFrom e ν ∨
    alg = .htp ∧ (p.backtrackFrom e μ).map Thresholded.indices
      = (p.backtrackFrom e ν).map Thresholded.indices

omit [NormedScalar T] in
/-- A normalized step is fitted first and backtracks then. -/
lemma gradientStep_normalized (p : Problem T) (e : Estimate T) :
    p.gradientStep .normalized e = p.operator.applyAdjoint e.residual >>= fun g =>
      fittedStep p.operator e.x.size (fittedSupport e.support g p.sparsity) g >>=
        p.backtrackFrom e := by
  unfold gradientStep
  refine Except.bind_congr fun g hg => ?_
  unfold advance normalized backtrackFrom
  simp only [hg, Except.ok_bind, bind_assoc]

namespace Rescaled

variable (h : p.Rescaled p' σ)
include h

lemma backtrackFrom_eq (hx : e.x.size = p.operator.cols) (hr : e.residual.size = p.operator.rows)
    {μ : ℝ} {t : Thresholded T} (ht : p.backtrackFrom e μ = .ok t) :
    p'.backtrackFrom (σ.estimate e) (σ.step * μ) = .ok (t.scale σ.signal) := by
  obtain ⟨g, hg, ht⟩ := Except.bind_eq_ok.1 ht
  obtain ⟨b, hb, ht⟩ := Except.bind_eq_ok.1 ht
  cases ht
  have hgradient : p'.operator.applyAdjoint (σ.estimate e).residual
      = .ok (Signal.scale σ.gradient g) := h.gradient_eq _ _ hr hg
  have hback := backtrack_scale h.images hx (Operator.size_applyAdjoint hg) maxHalvings μ hb
  unfold backtrackFrom
  rw [hgradient, Except.ok_bind, h.sparsity_eq]
  dsimp only [Rescaling.estimate]
  rw [fittedSupport_scale, take_scale, hback]
  rfl

/-! ## Rounds -/

/-- The step adapts to the change of scale, or it falls back to one. -/
lemma gradientStep_eq (hx : e.x.size = p.operator.cols) (hr : e.residual.size = p.operator.rows)
    {t : Thresholded T} (ht : p.gradientStep .normalized e = .ok t) :
    p'.gradientStep .normalized (σ.estimate e) = .ok (t.scale σ.signal) ∨
      p.FallsBack e ∧ p.backtrackFrom e 1 = .ok t ∧
        p'.gradientStep .normalized (σ.estimate e) = p'.backtrackFrom (σ.estimate e) 1 := by
  rw [gradientStep_normalized] at ht
  obtain ⟨g, hg, ht⟩ := Except.bind_eq_ok.1 ht
  obtain ⟨μ, hμ, ht⟩ := Except.bind_eq_ok.1 ht
  have hgradient : p'.operator.applyAdjoint (σ.estimate e).residual
      = .ok (Signal.scale σ.gradient g) := h.gradient_eq _ _ hr hg
  have hstep : p'.gradientStep .normalized (σ.estimate e)
      = fittedStep p'.operator p.operator.cols (fittedSupport e.support g p.sparsity)
        (Signal.scale σ.gradient g) >>= p'.backtrackFrom (σ.estimate e) := by
    rw [gradientStep_normalized, hgradient, Except.ok_bind, h.sparsity_eq]
    dsimp only [Rescaling.estimate]
    rw [fittedSupport_scale, Signal.size_scale, hx]
  rw [hx] at hμ
  rcases fittedStep_scale h.images hμ with hfitted | ⟨hfalls, rfl, hfitted⟩
  · left
    rw [hstep, hfitted, Except.ok_bind]
    exact h.backtrackFrom_eq hx hr ht
  · exact .inr ⟨⟨g, hg, hfalls⟩, ht, by rw [hstep, hfitted, Except.ok_bind]⟩

/-- What a round of the second problem steps to, if falling back makes no difference. -/
lemma exists_gradientStep {alg : Algorithm} (hx : e.x.size = p.operator.cols)
    (hr : e.residual.size = p.operator.rows)
    (hsame : p.FallsBack e → p.SameMove alg e 1 σ.step⁻¹) {t : Thresholded T}
    (ht : p.gradientStep .normalized e = .ok t) :
    ∃ t', p'.gradientStep .normalized (σ.estimate e) = .ok (t'.scale σ.signal) ∧
      t'.indices = t.indices ∧ (alg ≠ .htp → t' = t) := by
  rcases h.gradientStep_eq hx hr ht with hstep | ⟨hfalls, hone, hstep⟩
  · exact ⟨t, hstep, rfl, fun _ => rfl⟩
  · have hother {t' : Thresholded T} (ht' : p.backtrackFrom e σ.step⁻¹ = .ok t') :
        p'.gradientStep .normalized (σ.estimate e) = .ok (t'.scale σ.signal) := by
      have hback := h.backtrackFrom_eq hx hr ht'
      rwa [mul_inv_cancel₀ σ.step_pos.ne', ← hstep] at hback
    rcases hsame hfalls with heq | ⟨rfl, heq⟩
    · exact ⟨t, hother (heq.symm.trans hone), rfl, fun _ => rfl⟩
    · rw [hone] at heq
      cases ht' : p.backtrackFrom e σ.step⁻¹ with
      | error _ =>
        rw [ht'] at heq
        cases heq
      | ok t' =>
        rw [ht'] at heq
        exact ⟨t', hother ht', (Except.ok.inj heq).symm, fun hne => absurd rfl hne⟩

omit [NormedScalar T] in
/-- The estimate of a scaled signal is the image of the estimate. -/
lemma estimate_eq {x : Signal T} {s : Array ℕ} (hx : x.size = p.operator.cols)
    (he : p.estimate x s = .ok e') :
    p'.estimate (Signal.scale σ.signal x) s = .ok (σ.estimate e') := by
  obtain ⟨rfl, rfl, hr⟩ := estimate_eq_ok.1 he
  exact estimate_eq_ok.2 ⟨rfl, rfl, h.residual_eq _ _ hx hr⟩

/-- A round of IHT maps the image of an estimate to the image of the next. -/
lemma ihtRound_eq {rule : StepRule ℝ} (hx : e.x.size = p.operator.cols) {t : Thresholded T}
    (ht : p.gradientStep rule e = .ok t)
    (ht' : p'.gradientStep rule (σ.estimate e) = .ok (t.scale σ.signal))
    (he : p.estimate t.toDense t.indices = .ok e') :
    p'.ihtRound rule (σ.estimate e) = .ok (σ.estimate e') := by
  have hsize : t.toDense.size = p.operator.cols := by
    obtain ⟨y, hy, rfl⟩ := gradientStep_eq_hardThreshold hx ht
    rw [(Signal.hardThreshold_supportedOn y p.sparsity).size_eq, hy]
  refine ihtRound_eq_ok.2 ⟨_, ht', ?_⟩
  rw [Thresholded.toDense_scale]
  exact h.estimate_eq hsize he

/-- Only the support of the step matters. -/
lemma htpRound_returns {rule : StepRule ℝ} {t t' : Thresholded T} {z x : Signal T}
    (ht' : p'.gradientStep rule (σ.estimate e) = .ok t') (hindices : t'.indices = t.indices)
    (hz : (p.fit t.indices).Returns i z j)
    (hx : Signal.embed p.operator.cols t.indices z = .ok x)
    (he : p.estimate x t.indices = .ok e') :
    (p'.htpRound rule (σ.estimate e)).Returns i (σ.estimate e') j := by
  have hfit := h.fit_returns _ _ _ _ hz
  have hsize := Signal.size_embed hx
  rw [← hindices] at hfit hx he
  refine Problem.htpRound_returns.2 ⟨_, _, _, ht', hfit, ?_, h.estimate_eq hsize he⟩
  rw [h.cols_eq]
  exact Signal.embed_scale _ hx

/-- A round of the second problem is what the change of scale makes of a round of the first. -/
theorem round_returns {alg : Algorithm} (halg : alg = .iht ∨ alg = .htp)
    (hx : e.x.size = p.operator.cols) (hr : e.residual.size = p.operator.rows)
    (hsame : p.FallsBack e → p.SameMove alg e 1 σ.step⁻¹)
    (hround : (p.round alg.normalizedMethod e).Returns i e' j) :
    (p'.round alg.normalizedMethod (σ.estimate e)).Returns i (σ.estimate e') j := by
  rcases halg with rfl | rfl
  · obtain ⟨hiht, rfl⟩ := Solving.returns_ofExcept.1 hround
    obtain ⟨t, ht, he⟩ := ihtRound_eq_ok.1 hiht
    obtain ⟨t', hstep, -, hfull⟩ := h.exists_gradientStep hx hr hsame ht
    obtain rfl := hfull (by decide)
    exact Solving.returns_ofExcept.2 ⟨h.ihtRound_eq hx ht hstep he, rfl⟩
  · obtain ⟨t, z, x, ht, hz, hembed, he⟩ := Problem.htpRound_returns.1 hround
    obtain ⟨t', hstep, hindices, -⟩ := h.exists_gradientStep hx hr hsame ht
    exact h.htpRound_returns hstep hindices hz hembed he

end Rescaled

end Problem
end CompressedSensing
