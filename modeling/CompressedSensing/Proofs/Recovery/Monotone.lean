import Mathlib
import CompressedSensing.Proofs.Recovery.Linear
import CompressedSensing.Proofs.Recovery.Success
import CompressedSensing.Proofs.Recovery.Thresholding
import CompressedSensing.Proofs.Signal.BestApproximation
/-!
# Short constant steps do not raise the residual

Let `x` be an estimate with `k` nonzero entries at most, let `g = Mᴴ (b - M x)` be its gradient, and
let `y = x + μ g` be the gradient point. For any signal `z`,

  `μ ‖b - M z‖² = μ ‖b - M x‖² + ‖y - z‖² - ‖y - x‖² - ‖z - x‖² + μ ‖M (z - x)‖²`.

If the step is short enough for the last two terms not to add anything, then no `z` that is as close
to `y` as `x` is leaves more than `x` does. The thresholded gradient point is the closest signal of
its sparsity, and `x` is one of the others. A least-squares fit on its support leaves even less.
-/

namespace CompressedSensing

open Matrix Reals
open scoped ExactScalar

variable {T : Type} [Scalar T ℝ] [NormedScalar T] {m n : ℕ}

/-! ## Majorization -/

/-- What a move `d` from a vector with residual `r` does to the residual, completed to a square. -/
lemma mul_energy_sub_mulVec (M : Matrix (Fin m) (Fin n) T) (μ : ℝ) (r : Fin m → T)
    (d : Fin n → T) :
    μ * energy (r - M *ᵥ d) + energy d + energy ((Scalar.ofReal μ : T) • (Mᴴ *ᵥ r))
      = μ * energy r + energy ((Scalar.ofReal μ : T) • (Mᴴ *ᵥ r) - d) + μ * energy (M *ᵥ d) := by
  have hleft : star ((Scalar.ofReal μ : T) • (Mᴴ *ᵥ r)) ⬝ᵥ d
      = Scalar.ofReal μ * (star r ⬝ᵥ (M *ᵥ d)) := by
    rw [star_smul, smul_dotProduct, ExactScalar.star_ofReal, smul_eq_mul,
      Operator.star_mulVec_dotProduct, conjTranspose_conjTranspose]
  have hright : star d ⬝ᵥ ((Scalar.ofReal μ : T) • (Mᴴ *ᵥ r))
      = Scalar.ofReal μ * (star (M *ᵥ d) ⬝ᵥ r) := by
    rw [dotProduct_smul, smul_eq_mul, Operator.star_mulVec_dotProduct]
  refine EuclideanScalar.ofReal_injective (T := T) ?_
  simp only [EuclideanScalar.ofReal_add, NormedScalar.ofReal_mul, ofReal_energy_sub]
  rw [hleft, hright]
  ring

/-- A move to a vector that is as close to the gradient point does not raise the residual, if the
step is short for it. -/
lemma energy_sub_mulVec_le {M : Matrix (Fin m) (Fin n) T} {μ : ℝ} (hμ : 0 < μ)
    {b : Fin m → T} {x z : Fin n → T} (hshort : μ * energy (M *ᵥ (z - x)) ≤ energy (z - x))
    (hclose : energy (x + (Scalar.ofReal μ : T) • (Mᴴ *ᵥ (b - M *ᵥ x)) - z)
      ≤ energy (x + (Scalar.ofReal μ : T) • (Mᴴ *ᵥ (b - M *ᵥ x)) - x)) :
    energy (b - M *ᵥ z) ≤ energy (b - M *ᵥ x) := by
  have hidentity := mul_energy_sub_mulVec M μ (b - M *ᵥ x) (z - x)
  have hmove : b - M *ᵥ x - M *ᵥ (z - x) = b - M *ᵥ z := by
    rw [mulVec_sub]
    abel
  have hpoint : (Scalar.ofReal μ : T) • (Mᴴ *ᵥ (b - M *ᵥ x)) - (z - x)
      = x + (Scalar.ofReal μ : T) • (Mᴴ *ᵥ (b - M *ᵥ x)) - z := by
    abel
  rw [add_sub_cancel_left] at hclose
  rw [hmove, hpoint] at hidentity
  have hle : μ * energy (b - M *ᵥ z) ≤ μ * energy (b - M *ᵥ x) := by
    linarith
  exact le_of_mul_le_mul_left hle hμ

namespace Problem

variable {p : Problem T} {M : Matrix (Fin p.operator.rows) (Fin p.operator.cols) T} {μ : ℝ}
  {e e' : Estimate T} {i j : ℕ}

/-! ## Rounds -/

/-- The step `μ` does not stretch what the operator sees of any signal. -/
def ShortStep (p : Problem T) (μ : ℝ) : Prop :=
  ∀ v av : Signal T, v.size = p.operator.cols → p.operator.apply v = .ok av →
    μ * Signal.normSq av ≤ Signal.normSq v

/-- A short step times the energy of an image is at most the energy of the vector. -/
lemma ShortStep.mul_energy_le (hshort : p.ShortStep μ) (h : p.Linear M)
    (v : Fin p.operator.cols → T) : μ * energy (M *ᵥ v) ≤ energy v := by
  have hv : (Array.ofFn v).size = p.operator.cols := Array.size_ofFn
  have hle := hshort (Array.ofFn v) _ hv (h.images.apply_eq _ hv)
  rwa [Signal.normSq_eq_energy Array.size_ofFn, Signal.normSq_eq_energy hv, Signal.coords_ofFn,
    Signal.coords_ofFn] at hle

/-- The gradient point `x + μ g`. -/
def gradientPoint (p : Problem T)
    (M : Matrix (Fin p.operator.rows) (Fin p.operator.cols) T) (μ : ℝ) (e : Estimate T) :
    Signal T :=
  Array.ofFn (Signal.coords p.operator.cols e.x
    + (Scalar.ofReal μ : T) • (Mᴴ *ᵥ p.misfit M e.x))

/-- A step along the gradient thresholds the gradient point. -/
lemma Consistent.take_eq (he : p.Consistent M e) (μ : ℝ) (k : ℕ) :
    GradientStep.take e.x (Array.ofFn (Mᴴ *ᵥ p.misfit M e.x)) μ k
      = Signal.hardThreshold (p.gradientPoint M μ e) k := by
  unfold GradientStep.take
  rw [Signal.zipWith_eq_ofFn _ _ _ he.size_eq Array.size_ofFn, Signal.coords_ofFn]
  refine congrArg (fun y => Signal.hardThreshold y k) ?_
  refine congrArg Array.ofFn (funext fun l => ?_)
  rw [Pi.add_apply, Pi.smul_apply, smul_eq_mul, mul_comm]
  rfl

/-- A constant step thresholds the gradient point. -/
lemma Linear.gradientStep_eq (h : p.Linear M) (he : p.Consistent M e) :
    p.gradientStep (.constant μ) e
      = .ok (Signal.hardThreshold (p.gradientPoint M μ e) p.sparsity) := by
  unfold gradientStep
  rw [h.applyAdjoint_eq he, Except.ok_bind]
  exact congrArg Except.ok (he.take_eq μ p.sparsity)

/-- The thresholded gradient point leaves no more than the estimate, if the step is short for the
move to it. -/
lemma energy_threshold_le_of_short (hμ : 0 < μ)
    (hshort : μ * energy (M *ᵥ (Signal.coords p.operator.cols
        ((p.gradientPoint M μ e).threshold p.sparsity) - Signal.coords p.operator.cols e.x))
      ≤ energy (Signal.coords p.operator.cols ((p.gradientPoint M μ e).threshold p.sparsity)
        - Signal.coords p.operator.cols e.x))
    (hsupp : e.x.SupportedOn p.operator.cols e.support) (hk : e.support.size ≤ p.sparsity) :
    energy (p.misfit M ((p.gradientPoint M μ e).threshold p.sparsity))
      ≤ energy (p.misfit M e.x) := by
  refine energy_sub_mulVec_le hμ hshort ?_
  have hbest := energy_sub_threshold_le (x := p.gradientPoint M μ e) (k := p.sparsity)
    (v := Signal.coords p.operator.cols e.x) Array.size_ofFn hsupp.ascending hk fun l hl => ?_
  · rwa [gradientPoint, Signal.coords_ofFn] at hbest
  · exact hsupp.coords_eq_zero hl

/-- Thresholding the gradient point does not raise the energy of the misfit. -/
lemma Linear.energy_threshold_le (h : p.Linear M) (hμ : 0 < μ) (hshort : p.ShortStep μ)
    (hsupp : e.x.SupportedOn p.operator.cols e.support) (hk : e.support.size ≤ p.sparsity) :
    energy (p.misfit M ((p.gradientPoint M μ e).threshold p.sparsity))
      ≤ energy (p.misfit M e.x) :=
  energy_threshold_le_of_short hμ (hshort.mul_energy_le h _) hsupp hk

variable (h : p.Linear M) (hμ : 0 < μ) (hshort : p.ShortStep μ) (he : p.Consistent M e)
  (hsupp : e.x.SupportedOn p.operator.cols e.support) (hk : e.support.size ≤ p.sparsity)
include h hμ hshort he hsupp hk

/-- A round of IHT does not raise the energy of the misfit. -/
lemma Linear.ihtRound_energy_le (hround : p.ihtRound (.constant μ) e = .ok e') :
    energy (p.misfit M e'.x) ≤ energy (p.misfit M e.x) := by
  obtain ⟨t, ht, hest⟩ := ihtRound_eq_ok.1 hround
  rw [h.gradientStep_eq he] at ht
  cases ht
  rw [(estimate_eq_ok.1 hest).1]
  exact h.energy_threshold_le hμ hshort hsupp hk

/-- The fit competes with the thresholded gradient point, which has the same support. -/
lemma Linear.htpRound_energy_le (hs : p.backend.LeastSquares)
    (hround : (p.htpRound (.constant μ) e).Returns i e' j) :
    energy (p.misfit M e'.x) ≤ energy (p.misfit M e.x) := by
  obtain ⟨t, z, x, ht, hz, hx, hest⟩ := htpRound_returns.1 hround
  rw [h.gradientStep_eq he] at ht
  cases ht
  rw [(estimate_eq_ok.1 hest).1]
  have hsize : (p.gradientPoint M μ e).size = p.operator.cols := Array.size_ofFn
  have hthreshold := Signal.hardThreshold_supportedOn (p.gradientPoint M μ e) p.sparsity
  rw [hsize] at hthreshold
  have hfit := h.energy_fit_le hs.minimizing hthreshold.ascending.valid hz hx
    fun _ hl => hthreshold.coords_eq_zero hl
  exact hfit.trans (h.energy_threshold_le hμ hshort hsupp hk)

/-! ## Runs -/

omit h hμ hshort he hsupp hk
variable {m : Method ℝ} {t : ℕ} {f : ℕ → Estimate T} {q : ℕ → ℕ}

/-- The two methods that take a gradient step of a constant length. The one that fits on the
support of the step needs a backend for least squares. -/
def Steps (p : Problem T) (μ : ℝ) (m : Method ℝ) : Prop :=
  m = .iht (.constant μ) ∨ m = .htp (.constant μ) ∧ p.backend.LeastSquares

/-- Neither IHT nor HTP raises the energy of the misfit in a round. -/
lemma Linear.steps_energy_le (h : p.Linear M) (hμ : 0 < μ) (hshort : p.ShortStep μ)
    (hm : p.Steps μ m) (he : p.Consistent M e)
    (hsupp : e.x.SupportedOn p.operator.cols e.support) (hk : e.support.size ≤ p.sparsity)
    (hround : (p.round m e).Returns i e' j) :
    energy (p.misfit M e'.x) ≤ energy (p.misfit M e.x) := by
  rcases hm with rfl | ⟨rfl, hs⟩
  · exact h.ihtRound_energy_le hμ hshort he hsupp hk (Solving.returns_ofExcept.1 hround).1
  · exact h.htpRound_energy_le hμ hshort he hsupp hk hs hround

omit [NormedScalar T] in
/-- If no round adds to the residual, the norms descend from that of the measurement on. -/
lemma norms_recordAt_pairwise (hstart : f 0 = p.start)
    (hstep : ∀ l < t, (residualNormAt f (l + 1) : ℝ) ≤ residualNormAt f l) :
    (Signal.norm p.measurement :: (p.recordAt f t).norms.toList).Pairwise
      fun a b : ℝ => b ≤ a := by
  have hanti : ∀ l l', l ≤ l' → l' ≤ t → (residualNormAt f l' : ℝ) ≤ residualNormAt f l := by
    intro l l' hl hl'
    induction l', hl using Nat.le_induction with
    | base => exact le_rfl
    | succ l' hl ih => exact (hstep l' (by omega)).trans (ih (by omega))
  have hnorms : Signal.norm p.measurement :: (p.recordAt f t).norms.toList
      = List.ofFn fun l : Fin (t + 1) => (residualNormAt f l.val : ℝ) := by
    rw [List.ofFn_succ, ← residualNormAt_zero hstart, norms_recordAt, Array.toList_ofFn]
    rfl
  rw [hnorms, List.pairwise_ofFn]
  intro l l' hl
  exact hanti l l' hl.le (by omega)

/-- The estimates before each round have at most `k` nonzero entries, so no round adds to the
residual. -/
lemma Linear.norm_succ_le (h : p.Linear M) (hμ : 0 < μ) (hshort : p.ShortStep μ)
    (hm : p.Steps μ m) (hk : p.sparsity ≤ p.operator.cols) (htraj : p.Trajectory m i t f q)
    {l : ℕ} (hl : l < t) : (residualNormAt f (l + 1) : ℝ) ≤ residualNormAt f l := by
  obtain ⟨hsupp, hcard, -⟩ := htraj.step_supportedOn (hm.imp_right And.left) h.size_eq hk hl.le
  have hle := h.steps_energy_le hμ hshort hm (h.trajectory_consistent htraj hl.le) hsupp hcard
    (htraj.step l hl)
  unfold residualNormAt
  rw [(h.trajectory_consistent htraj hl).norm_eq, (h.trajectory_consistent htraj hl.le).norm_eq]
  exact Real.sqrt_le_sqrt hle

end Problem

omit [NormedScalar T] in
/-- Valid options fix a positive step, or the estimate of the norm gives one. -/
lemma GradientStep.resolve_pos [DecimalText ℝ] {a : Operator T} {o : Options ℝ} {μ : ℝ}
    (ho : o.validate = .ok ()) (h : resolve a o = .ok (.constant μ)) : 0 < μ := by
  unfold resolve at h
  split at h
  · rename_i hstep
    cases h
    exact of_decide_eq_true ((Options.validate_eq_ok.1 ho).2.2.2 μ hstep).1
  · obtain ⟨size, -, h⟩ := Except.bind_eq_ok.1 h
    split at h
    · cases h
      exact one_pos
    · rename_i hsize
      cases h
      have hne : size ≠ 0 := by
        rintro rfl
        exact hsize (by simp [RealLike.isZero])
      have hnine : (0 : ℝ) < RealLike.decimal 9 1 := by
        show (0 : ℝ) < (9 : ℕ) / 10 ^ 1
        norm_num
      exact div_pos hnine (mul_self_pos.2 hne)
  · cases h

namespace Problem

variable {p : Problem T} {μ : ℝ} {i j : ℕ}

/-- With a constant step that is short enough, neither thresholding nor, with a backend for least
squares, thresholding pursuit ever raises the residual: from the norm of the measurement on, the
norms are a descending sequence. -/
theorem recover_norms_descend [DecimalText ℝ] {alg : Algorithm} {o : Options ℝ}
    {r : Recovered T ℝ} (ha : p.operator.Adjunction)
    (halg : alg = .iht ∨ alg = .htp ∧ p.backend.LeastSquares)
    (hstep : GradientStep.resolve p.operator o = .ok (.constant μ)) (hshort : p.ShortStep μ)
    (hk : 0 < p.sparsity) (hn : p.sparsity < p.operator.cols)
    (h : (p.recover alg o).Returns i r j) :
    (Signal.norm p.measurement :: r.residualNorms.toList).Pairwise fun a b : ℝ => b ≤ a := by
  by_cases hb : RealLike.isZero (Signal.norm p.measurement : ℝ) = true
  · -- the zero measurement takes no iteration
    obtain ⟨-, hbranch⟩ := recover_returns.1 h
    rw [if_pos hb] at hbranch
    rw [hbranch.1]
    exact List.pairwise_singleton _ _
  · obtain ⟨hcheck, m, u, e, q, hm, hrun, -, -, rfl⟩ :=
      recover_returns_run (eq_false_of_ne_true hb) hk hn h
    obtain ⟨hvalid, hrows, -, -⟩ := check_eq_ok.1 hcheck
    obtain ⟨M, hM⟩ := ha.exists_hasImages
    have hlinear : p.Linear M := ⟨hM, hrows⟩
    have hsteps : p.Steps μ m := by
      rcases halg with rfl | ⟨rfl, hs⟩
      · rw [Algorithm.method, hstep] at hm
        cases hm
        exact .inl rfl
      · rw [Algorithm.method, hstep] at hm
        cases hm
        exact .inr ⟨rfl, hs⟩
    refine norms_recordAt_pairwise hrun.start fun l hl => ?_
    exact hlinear.norm_succ_le (GradientStep.resolve_pos hvalid hstep) hshort hsteps hn.le
      hrun.toTrajectory hl

lemma validate_fixedStep_one : (Options.fixedStep 1 : Options ℝ).validate = .ok () := by
  have hthreshold : Options.isThreshold (0 : ℝ) = true := Options.isThreshold_iff.2 le_rfl
  refine Options.validate_eq_ok.2 ⟨by decide, hthreshold, hthreshold, fun μ hμ => ?_⟩
  obtain rfl : 1 = μ := StepSize.fixed.inj hμ
  exact ⟨decide_eq_true one_pos, rfl⟩

/-- The identity sees all of a signal, so a step of one is short enough for both algorithms. -/
theorem recover_norms_descend_realPair :
    (∃ r j, (realPair.recover .iht (Options.fixedStep 1)).Returns 0 r j ∧
      (Signal.norm realPair.measurement :: r.residualNorms.toList).Pairwise
        fun a b : ℝ => b ≤ a) ∧
    ∃ r j, (realPair.recover .htp (Options.fixedStep 1)).Returns 0 r j ∧
      (Signal.norm realPair.measurement :: r.residualNorms.toList).Pairwise
        fun a b : ℝ => b ≤ a := by
  have himages := (Operator.hasMatrix_identity (T := ℝ) 2).hasImages
  have hlinear : realPair.Linear _ := ⟨himages, rfl⟩
  have hcheck : realPair.check (Options.fixedStep (1 : ℝ)) = .ok () :=
    check_eq_ok.2 ⟨validate_fixedStep_one, rfl, one_le_two, nonfiniteEntry?_eq_none realPair⟩
  have hshort : realPair.ShortStep 1 := by
    intro v av hv hav
    rw [(apply_realPair hv).1] at hav
    cases hav
    rw [one_mul]
  have hs := Backend.leastSquares_leastSquares
  obtain ⟨r, j, hr⟩ := hlinear.recover_returns hs .iht hcheck 0
  obtain ⟨r', j', hr'⟩ := hlinear.recover_returns hs .htp hcheck 0
  have hiht := recover_norms_descend himages.adjunction (.inl rfl) rfl hshort one_pos one_lt_two hr
  have hhtp := recover_norms_descend himages.adjunction (.inr ⟨rfl, hs⟩) rfl hshort one_pos
    one_lt_two hr'
  exact ⟨⟨r, j, hr, hiht⟩, r', j', hr', hhtp⟩

end Problem
end CompressedSensing
