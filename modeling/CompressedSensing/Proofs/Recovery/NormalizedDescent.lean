import Mathlib
import CompressedSensing.Proofs.Recovery.FirstRound
import CompressedSensing.Proofs.Recovery.Pairs
/-!
# Accepted normalized steps do not raise the residual

A normalized step starts from the best step along the part `d` of the gradient on the current
support, and is halved until a test accepts it:

* A step that keeps the support moves by `μ d`. It is no longer than the best step along `d`, so it
  leaves no more than before.
* A step whose move the operator does not see leaves what was left before.
* A step that is short for the move it makes does not add to the residual either, because the
  thresholded gradient point is the closest sparse signal to the gradient point.

Where the best step is undefined there is nothing to step along, and the step of one that is taken
instead is no worse. Only if the halvings run out, so that no test has accepted the step, may the
residual grow.
-/

namespace CompressedSensing

open Matrix Reals
open scoped ExactScalar

variable {T : Type} [Scalar T ℝ] [NormedScalar T]

namespace GradientStep

/-! ## Backtracking -/

/-- What a test knows of a step of length `μ` from `x` that it accepts: the support is kept, or the
step is short for the move. A move that is not seen makes every step short. -/
def Acceptable {a : Operator T} (M : Matrix (Fin a.rows) (Fin a.cols) T) (x : Signal T)
    (s : Array ℕ) (μ : ℝ) (next : Thresholded T) : Prop :=
  next.indices = s ∨
    μ * energy (M *ᵥ (Signal.coords a.cols next.toDense - Signal.coords a.cols x))
      ≤ energy (Signal.coords a.cols next.toDense - Signal.coords a.cols x)

lemma shrink_le_one : (shrink : ℝ) ≤ 1 := by
  have hcut : (0 : ℝ) ≤ RealLike.decimal 1 2 := by
    show (0 : ℝ) ≤ (1 : ℕ) / 10 ^ 2
    norm_num
  unfold shrink
  linarith

variable {a : Operator T} {M : Matrix (Fin a.rows) (Fin a.cols) T} {x g : Signal T} {k : ℕ}
  {s : Array ℕ} {μ : ℝ} {next : Thresholded T}

/-- The second test: the operator does not see the move, so every step is short for it. -/
lemma acceptable_of_energy_eq_zero
    (hunseen : energy (M *ᵥ (Signal.coords a.cols next.toDense - Signal.coords a.cols x)) = 0) :
    Acceptable M x s μ next := by
  right
  rw [hunseen, mul_zero]
  exact energy_nonneg _

/-- The third test: the step is at most the bound that the move sets. -/
lemma acceptable_of_le_shrink
    (hseen : energy (M *ᵥ (Signal.coords a.cols next.toDense - Signal.coords a.cols x)) ≠ 0)
    (hle : μ ≤ shrink * energy (Signal.coords a.cols next.toDense - Signal.coords a.cols x)
      / energy (M *ᵥ (Signal.coords a.cols next.toDense - Signal.coords a.cols x))) :
    Acceptable M x s μ next := by
  right
  have hpos : 0 < energy (M *ᵥ (Signal.coords a.cols next.toDense - Signal.coords a.cols x)) :=
    (energy_nonneg _).lt_of_ne' hseen
  have hbound := (le_div_iff₀ hpos).1 hle
  exact hbound.trans (mul_le_of_le_one_left (energy_nonneg _) shrink_le_one)

/-- Backtracking from `μ` takes the step after some halvings, and it settles only for an acceptable
one. -/
lemma backtrack_eq (ha : a.HasImages M) (hx : x.size = a.cols) (hg : g.size = a.cols)
    (halvings : ℕ) (μ : ℝ) :
    ∃ (c : ℕ) (settled : Bool),
      backtrack a x g k s halvings μ (take x g μ k) = .ok ⟨take x g (μ / 2 ^ c) k, settled⟩ ∧
      (settled = true → Acceptable M x s (μ / 2 ^ c) (take x g (μ / 2 ^ c) k)) := by
  -- on the halvings that are left; one more in front of those of the rest
  induction halvings generalizing μ with
  | zero =>
    refine ⟨0, false, ?_, fun h => absurd h Bool.false_ne_true⟩
    rw [pow_zero, div_one]
    rfl
  | succ halvings ih =>
    let next := take x g μ k
    have hnext : next.toDense.size = a.cols := by
      rw [size_toDense_take, hx, hg, min_self]
    let move := Array.zipWith (· - ·) next.toDense x
    have hsize : move.size = a.cols := by
      rw [Array.size_zipWith, hnext, hx, min_self]
    have hmove : Signal.coords a.cols move
        = Signal.coords a.cols next.toDense - Signal.coords a.cols x := by
      unfold move
      rw [Signal.zipWith_eq_ofFn _ _ _ hnext hx, Signal.coords_ofFn]
      rfl
    have hstop (haccept : Acceptable M x s μ next) : ∃ (c : ℕ) (settled : Bool),
        (Except.ok ⟨next, true⟩ : Except Error (Backtracked T))
          = .ok ⟨take x g (μ / 2 ^ c) k, settled⟩ ∧
        (settled = true → Acceptable M x s (μ / 2 ^ c) (take x g (μ / 2 ^ c) k)) := by
      refine ⟨0, true, ?_, fun _ => ?_⟩
      · rw [pow_zero, div_one]
      · rw [pow_zero, div_one]
        exact haccept
    unfold backtrack
    split
    · rename_i hkept
      exact hstop (.inl hkept)
    · dsimp only
      rw [ha.apply_eq _ hsize, Except.ok_bind, Signal.normSq_eq_energy Array.size_ofFn,
        Signal.normSq_eq_energy hsize, Signal.coords_ofFn, hmove]
      split
      · rename_i hunseen
        exact hstop (acceptable_of_energy_eq_zero (of_decide_eq_true hunseen))
      · rename_i hseen
        split
        · rename_i hle
          exact hstop (acceptable_of_le_shrink (fun hzero => hseen (decide_eq_true hzero))
            (of_decide_eq_true hle))
        · obtain ⟨c, settled, hrest, haccept⟩ := ih (μ / 2)
          rw [div_div, ← pow_succ'] at hrest haccept
          exact ⟨c + 1, settled, hrest, haccept⟩

/-- The step that a normalized step starts from is positive and no longer than the best one along
the part of the gradient on the support. -/
lemma exists_fittedStep (ha : a.HasImages M) (hs : Support.Valid a.cols s) {r : Fin a.rows → T}
    (hg : g = Array.ofFn (Mᴴ *ᵥ r)) :
    ∃ μ : ℝ, fittedStep a a.cols s g = .ok μ ∧ 0 < μ ∧
      μ * energy (M *ᵥ Signal.coords a.cols (g.restrict s))
        ≤ energy (Signal.coords a.cols (g.restrict s)) := by
  have hsize : g.size = a.cols := by
    rw [hg, Array.size_ofFn]
  refine ⟨_, fittedStep_eq ha hs hsize, ?_⟩
  have hpart := partOf_restrict_gradient hs hg
  by_cases hzero : Signal.coords a.cols (g.restrict s) = 0
  · -- there is nothing to step along, whatever the step is
    have hempty : RealLike.isZero (energy (Signal.coords a.cols (g.restrict s))) = true := by
      rw [hzero, energy_zero]
      exact decide_eq_true rfl
    rw [hempty, Bool.true_or, if_pos rfl, hzero, mulVec_zero, energy_zero, energy_zero]
    exact ⟨one_pos, by simp⟩
  · have hpos := energy_pos hzero
    have hseen := hpart.energy_mulVec_pos hzero
    have hpos' : RealLike.isZero (energy (Signal.coords a.cols (g.restrict s))) = false :=
      decide_eq_false hpos.ne'
    have hseen' : RealLike.isZero (energy (M *ᵥ Signal.coords a.cols (g.restrict s))) = false :=
      decide_eq_false hseen.ne'
    rw [hpos', hseen', Bool.or_false, if_neg Bool.false_ne_true]
    refine ⟨div_pos hpos hseen, ?_⟩
    rw [div_mul_cancel₀ _ hseen.ne']

end GradientStep

namespace Problem

variable {p : Problem T} {M : Matrix (Fin p.operator.rows) (Fin p.operator.cols) T} {s : Array ℕ}
  {e e' : Estimate T} {μ : ℝ} {i j : ℕ}

/-! ## Accepted steps -/

/-- The gradient `Mᴴ (b - M x)` at an estimate. -/
def gradient (p : Problem T) (M : Matrix (Fin p.operator.rows) (Fin p.operator.cols) T)
    (e : Estimate T) : Signal T :=
  Array.ofFn (Mᴴ *ᵥ p.misfit M e.x)

/-- The part of the gradient on a support. -/
def gradientOn (p : Problem T) (M : Matrix (Fin p.operator.rows) (Fin p.operator.cols) T)
    (e : Estimate T) (s : Array ℕ) : Fin p.operator.cols → T :=
  Signal.coords p.operator.cols ((p.gradient M e).restrict s)

/-- The gradient restricted to a support is a part of the gradient. -/
lemma partOf_gradientOn (hs : Support.Valid p.operator.cols s) :
    PartOf (Mᴴ *ᵥ p.misfit M e.x) (p.gradientOn M e s) :=
  partOf_restrict_gradient hs rfl

omit [NormedScalar T] in
/-- An estimate vanishes outside the support that its step is fitted to. -/
lemma coords_eq_zero_of_notMem_fittedSupport
    (hsupp : e.x.SupportedOn p.operator.cols e.support) {g : Signal T} {k : ℕ}
    {l : Fin p.operator.cols} (hl : l.val ∉ GradientStep.fittedSupport e.support g k) :
    Signal.coords p.operator.cols e.x l = 0 := by
  apply hsupp.coords_eq_zero
  intro hmem
  unfold GradientStep.fittedSupport at hl
  split at hl
  · rename_i hempty
    rw [Array.isEmpty_iff.1 hempty] at hmem
    simp at hmem
  · exact hl hmem

/-- A step that keeps the support is a step along the part of the gradient there. -/
lemma coords_threshold_gradientPoint (hs : Support.Valid p.operator.cols s)
    (hzero : ∀ l : Fin p.operator.cols, l.val ∉ s → Signal.coords p.operator.cols e.x l = 0)
    (hkept : (Signal.hardThreshold (p.gradientPoint M μ e) p.sparsity).indices = s) :
    Signal.coords p.operator.cols ((p.gradientPoint M μ e).threshold p.sparsity)
      = Signal.coords p.operator.cols e.x + (Scalar.ofReal μ : T)
        • p.gradientOn M e s := by
  have hlargest : Support.largest (p.gradientPoint M μ e) p.sparsity = s := hkept
  have hpoint : (p.gradientPoint M μ e).size = p.operator.cols := Array.size_ofFn
  have hgradient : (p.gradient M e).size = p.operator.cols := Array.size_ofFn
  rw [Signal.threshold_eq_restrict, hlargest]
  funext l
  unfold gradientOn
  rw [Pi.add_apply, Pi.smul_apply, Signal.coords_restrict hs hpoint,
    Signal.coords_restrict hs hgradient]
  split
  · unfold gradientPoint gradient
    rw [Signal.coords_ofFn, Signal.coords_ofFn]
    rfl
  · rename_i hl
    rw [hzero l hl, smul_zero, add_zero]

/-- An acceptable step that is no longer than the best one along the part of the gradient on the
support leaves no more than the estimate. -/
lemma energy_le_of_acceptable (hs : Support.Valid p.operator.cols s) (hμ : 0 < μ)
    (hbest : μ * energy (M *ᵥ p.gradientOn M e s) ≤ energy (p.gradientOn M e s))
    (hzero : ∀ l : Fin p.operator.cols, l.val ∉ s → Signal.coords p.operator.cols e.x l = 0)
    (hsupp : e.x.SupportedOn p.operator.cols e.support) (hk : e.support.size ≤ p.sparsity)
    (haccept : GradientStep.Acceptable M e.x s μ
      (Signal.hardThreshold (p.gradientPoint M μ e) p.sparsity)) :
    energy (p.misfit M ((p.gradientPoint M μ e).threshold p.sparsity))
      ≤ energy (p.misfit M e.x) := by
  rcases haccept with hkept | hshort
  · have hleft : p.misfit M ((p.gradientPoint M μ e).threshold p.sparsity)
        = p.misfit M e.x - M *ᵥ ((Scalar.ofReal μ : T) • p.gradientOn M e s) := by
      unfold misfit
      rw [coords_threshold_gradientPoint hs hzero hkept, mulVec_add, sub_sub]
    have hgain := mul_le_mul_of_nonneg_left hbest hμ.le
    have hloss := mul_nonneg hμ.le (energy_nonneg (p.gradientOn M e s))
    rw [hleft, (partOf_gradientOn hs).energy_sub_smul]
    linarith
  · exact energy_threshold_le_of_short hμ hshort hsupp hk

/-- A normalized step succeeds, and unless its halvings have run out it leaves no more than the
estimate. -/
theorem Linear.normalized_energy_le (h : p.Linear M) (he : p.Consistent M e)
    (hsupp : e.x.SupportedOn p.operator.cols e.support) (hk : e.support.size ≤ p.sparsity) :
    ∃ t : GradientStep.Backtracked T,
      GradientStep.normalized (R := ℝ) p.operator e.x e.support (p.gradient M e) p.sparsity
        = .ok t ∧
      t.next.toDense.size = p.operator.cols ∧
      (t.settled = true → energy (p.misfit M t.next.toDense) ≤ energy (p.misfit M e.x)) := by
  have hsize : (p.gradient M e).size = p.operator.cols := Array.size_ofFn
  have hs : Support.Valid p.operator.cols
      (GradientStep.fittedSupport e.support (p.gradient M e) p.sparsity) := by
    rw [← hsize]
    apply Support.Ascending.valid
    apply GradientStep.fittedSupport_ascending
    rw [hsize]
    exact hsupp.ascending
  obtain ⟨μ, hμ, hpos, hbest⟩ := GradientStep.exists_fittedStep h.images hs
    (show p.gradient M e = Array.ofFn (Mᴴ *ᵥ p.misfit M e.x) from rfl)
  obtain ⟨c, settled, hback, haccept⟩ := GradientStep.backtrack_eq (k := p.sparsity)
    (s := GradientStep.fittedSupport e.support (p.gradient M e) p.sparsity) h.images he.size_eq
    hsize GradientStep.maxHalvings μ
  -- halving makes the step shorter
  have hshorter : μ / 2 ^ c ≤ μ := div_le_self hpos.le (one_le_pow₀ one_le_two)
  have hbest' := (mul_le_mul_of_nonneg_right hshorter (energy_nonneg _)).trans hbest
  have htake : GradientStep.take e.x (p.gradient M e) (μ / 2 ^ c) p.sparsity
      = Signal.hardThreshold (p.gradientPoint M (μ / 2 ^ c) e) p.sparsity := he.take_eq _ _
  rw [htake] at hback haccept
  refine ⟨⟨Signal.hardThreshold (p.gradientPoint M (μ / 2 ^ c) e) p.sparsity, settled⟩, ?_, ?_,
    fun hsettled => ?_⟩
  · unfold GradientStep.normalized
    dsimp only
    rw [he.size_eq, hμ, Except.ok_bind]
    exact hback
  · have hpoint : (p.gradientPoint M (μ / 2 ^ c) e).size = p.operator.cols := Array.size_ofFn
    rw [← hpoint]
    exact (Signal.hardThreshold_supportedOn _ p.sparsity).size_eq
  · have haccepted := haccept hsettled
    exact energy_le_of_acceptable hs (by positivity) hbest'
      (fun _ hl => coords_eq_zero_of_notMem_fittedSupport hsupp hl) hsupp hk haccepted

/-! ## Rounds and runs -/

/-- The normalized step from an estimate is accepted before the halvings run out. -/
def Settles (p : Problem T) (e : Estimate T) : Prop :=
  ∃ (g : Signal T) (t : GradientStep.Backtracked T), p.operator.applyAdjoint e.residual = .ok g ∧
    GradientStep.normalized (R := ℝ) p.operator e.x e.support g p.sparsity = .ok t ∧
    t.settled = true

/-- A normalized round that settles does not raise the energy of the misfit. -/
lemma Linear.ihtRound_normalized_energy_le (h : p.Linear M) (he : p.Consistent M e)
    (hsupp : e.x.SupportedOn p.operator.cols e.support) (hk : e.support.size ≤ p.sparsity)
    (hsettles : p.Settles e) (hround : p.ihtRound (.normalized : StepRule ℝ) e = .ok e') :
    energy (p.misfit M e'.x) ≤ energy (p.misfit M e.x) := by
  obtain ⟨g, t, hg, ht, hsettled⟩ := hsettles
  obtain ⟨next, hnext, hest⟩ := ihtRound_eq_ok.1 hround
  unfold gradientStep at hnext
  rw [hg, Except.ok_bind] at hnext
  unfold GradientStep.advance at hnext
  dsimp only at hnext
  rw [ht, Except.ok_bind] at hnext
  cases hnext
  have hgradient : p.operator.applyAdjoint e.residual = .ok (p.gradient M e) :=
    h.applyAdjoint_eq he
  rw [hg] at hgradient
  cases hgradient
  obtain ⟨t', ht', -, hle⟩ := h.normalized_energy_le he hsupp hk
  rw [ht'] at ht
  cases ht
  rw [(estimate_eq_ok.1 hest).1]
  exact hle hsettled

/-- Accepted steps one after the other: no round adds to the residual. -/
lemma Linear.norms_trajectory_pairwise (h : p.Linear M) (hn : p.sparsity ≤ p.operator.cols)
    {t : ℕ} {f : ℕ → Estimate T} {q : ℕ → ℕ}
    (htraj : p.Trajectory (.iht (.normalized : StepRule ℝ)) i t f q)
    (hsettles : ∀ l < t, p.Settles (f l)) :
    (Signal.norm p.measurement :: (p.recordAt f t).norms.toList).Pairwise
      fun a b : ℝ => b ≤ a := by
  apply norms_recordAt_pairwise htraj.start
  intro l hl
  obtain ⟨hsupp, hcard, -⟩ := htraj.step_supportedOn (.inl rfl) h.size_eq hn hl.le
  have hbefore := h.trajectory_consistent htraj hl.le
  have hle := h.ihtRound_normalized_energy_le hbefore hsupp hcard (hsettles l hl)
    (Solving.returns_ofExcept.1 (htraj.step l hl)).1
  unfold residualNormAt
  rw [(h.trajectory_consistent htraj hl).norm_eq, hbefore.norm_eq]
  exact Real.sqrt_le_sqrt hle

/-- Least squares on all columns leaves no more than the measurement. -/
lemma Linear.norms_solveAll_pairwise {r : Recovered T ℝ} (h : p.Linear M)
    (hs : p.backend.Minimizing) (hr : p.solveAll.Returns i r j) :
    (Signal.norm p.measurement :: r.residualNorms.toList).Pairwise fun a b : ℝ => b ≤ a := by
  obtain ⟨x, y, hx, hy, rfl⟩ := solveAll_returns.1 hr
  have hleast := h.least_solveAll hs hx
  rw [h.residual_eq hleast.size_eq] at hy
  cases hy
  have hle := hleast.energy_le 0 fun _ _ => rfl
  rw [mulVec_zero, sub_zero] at hle
  have hnorm : (Signal.norm (Array.ofFn (p.misfit M x)) : ℝ) ≤ Signal.norm p.measurement := by
    rw [Signal.norm_eq_sqrt_energy h.size_eq, Signal.norm_eq_sqrt_energy Array.size_ofFn,
      Signal.coords_ofFn]
    exact Real.sqrt_le_sqrt hle
  exact List.pairwise_pair.2 hnorm

/-- A normalized step from a signal of few enough entries leaves no longer a residual, if it is
accepted. -/
lemma Linear.normalized_norm_le (h : p.Linear M) {x : Signal T} {support : Array ℕ}
    (hsupp : x.SupportedOn p.operator.cols support) (hk : support.size ≤ p.sparsity) :
    ∃ (y g : Signal T) (t : GradientStep.Backtracked T),
      p.operator.residual p.measurement x = .ok y ∧ p.operator.applyAdjoint y = .ok g ∧
      GradientStep.normalized (R := ℝ) p.operator x support g p.sparsity = .ok t ∧
      (t.settled = true → ∃ y', p.operator.residual p.measurement t.next.toDense = .ok y' ∧
        (Signal.norm y' : ℝ) ≤ Signal.norm y) := by
  let e : Estimate T := ⟨x, support, Array.ofFn (p.misfit M x)⟩
  have he : p.Consistent M e := ⟨hsupp.size_eq, rfl⟩
  obtain ⟨t, ht, hsize, hle⟩ := h.normalized_energy_le he hsupp hk
  refine ⟨_, _, t, h.residual_eq hsupp.size_eq, h.applyAdjoint_eq he, ht, fun hsettled => ?_⟩
  refine ⟨_, h.residual_eq hsize, ?_⟩
  rw [Signal.norm_eq_sqrt_energy Array.size_ofFn, Signal.norm_eq_sqrt_energy Array.size_ofFn,
    Signal.coords_ofFn, Signal.coords_ofFn]
  exact Real.sqrt_le_sqrt (hle hsettled)

/-- The norms of a recovery descend, whichever branch it takes. -/
lemma Linear.norms_recover_pairwise [DecimalText ℝ] (h : p.Linear M) {o : Options ℝ}
    {r : Recovered T ℝ} (hstep : o.step = .normalized) (hr : (p.recover .iht o).Returns i r j)
    (hsettles : p.sparsity < p.operator.cols → ∀ (e : ℕ → Estimate T) (q : ℕ → ℕ),
      p.Trajectory (.iht (.normalized : StepRule ℝ)) i r.iterations e q →
        ∀ s < r.iterations, p.Settles (e s))
    (hs : p.sparsity = p.operator.cols → p.backend.Minimizing) :
    (Signal.norm p.measurement :: r.residualNorms.toList).Pairwise fun a b : ℝ => b ≤ a := by
  obtain ⟨hcheck, hbranch⟩ := Problem.recover_returns.1 hr
  obtain ⟨hvalid, -, hn, -⟩ := check_eq_ok.1 hcheck
  split at hbranch
  · rw [hbranch.1]
    exact List.pairwise_singleton _ _
  · split at hbranch
    · rw [hbranch.1]
      exact List.pairwise_singleton _ _
    · split at hbranch
      · rename_i hall
        exact h.norms_solveAll_pairwise (hs hall) hbranch
      · rename_i hsome
        obtain ⟨m, u, f, q, hm, hrun, -, -, rfl⟩ :=
          pursue_returns (Options.maxIterations_pos hvalid) hbranch
        rw [Algorithm.iht.method_eq_normalizedMethod _ hstep] at hm
        cases hm
        have hiterations : ((p.recordAt f (u + 1)).finish
            (Algorithm.iht.normalizedMethod.reasonsAt o.convergence f u)).iterations = u + 1 :=
          size_norms_recordAt p f (u + 1)
        rw [hiterations] at hsettles
        exact h.norms_trajectory_pairwise hn hrun.toTrajectory fun l hl =>
          hsettles (lt_of_le_of_ne hn hsome) f q hrun.toTrajectory l hl

/-- With a correct adjoint, a normalized step from a signal on at most as many indices as are wanted
succeeds, and if one of its three tests accepts it, the residual does not grow. So a run of
thresholding whose steps are all accepted has norms that descend from that of the measurement on.
Where all columns are wanted there is no step, and the backend has to minimize. -/
theorem recover_norms_descend_of_settles [DecimalText ℝ] (ha : p.operator.Adjunction)
    (hb : p.measurement.size = p.operator.rows) :
    (∀ (x : Signal T) (support : Array ℕ), x.SupportedOn p.operator.cols support →
      support.size ≤ p.sparsity →
      ∃ (y g : Signal T) (t : GradientStep.Backtracked T),
        p.operator.residual p.measurement x = .ok y ∧ p.operator.applyAdjoint y = .ok g ∧
        GradientStep.normalized (R := ℝ) p.operator x support g p.sparsity = .ok t ∧
        (t.settled = true → ∃ y', p.operator.residual p.measurement t.next.toDense = .ok y' ∧
          (Signal.norm y' : ℝ) ≤ Signal.norm y)) ∧
    ∀ (o : Options ℝ) (i j : ℕ) (r : Recovered T ℝ), o.step = .normalized →
      (p.recover .iht o).Returns i r j →
      (p.sparsity < p.operator.cols → ∀ (e : ℕ → Estimate T) (q : ℕ → ℕ),
        p.Trajectory (.iht (.normalized : StepRule ℝ)) i r.iterations e q →
          ∀ s < r.iterations, p.Settles (e s)) →
      (p.sparsity = p.operator.cols → p.backend.Minimizing) →
      (Signal.norm p.measurement :: r.residualNorms.toList).Pairwise fun a b : ℝ => b ≤ a := by
  obtain ⟨M, hM⟩ := ha.exists_hasImages
  have h : p.Linear M := ⟨hM, hb⟩
  constructor
  · intro x support hsupp hk
    exact h.normalized_norm_le hsupp hk
  · intro o i j r hstep hr hsettles hs
    exact h.norms_recover_pairwise hstep hr hsettles hs

/-! ## A run of accepted steps -/

/-- A step of a pair that settles. -/
lemma IsPair.settles {p : Problem ℝ} {d₁ d₂ b₁ b₂ x y r₁ r₂ : ℝ} (h : p.IsPair d₁ d₂ b₁ b₂)
    {t : GradientStep.Backtracked ℝ}
    (ht : GradientStep.normalized p.operator #[x, y] s #[d₁ * r₁, d₂ * r₂] 1 = .ok t)
    (hsettled : t.settled = true) : p.Settles ⟨#[x, y], s, #[r₁, r₂]⟩ :=
  ⟨_, t, h.applyAdjoint_eq r₁ r₂, by rwa [h.sparsity_eq], hsettled⟩

/-- The first coordinate, then the second one, which grows. -/
noncomputable def unevenRounds : ℕ → Estimate ℝ :=
  prepend unevenPair.start
    (prepend (fstFit ((5 : ℕ) / (2 : ℕ))) (prepend sndStep fun _ => sndFurther))

/-- The three rounds are a run of IHT on twice the uneven pair. -/
lemma run_unevenRounds : (unevenPair.scaled 2).Run (.iht .normalized)
    (Options.rounds 3).convergence 0 2 unevenRounds fun _ => 0 := by
  refine run_rounds rfl (fun s hs => ?_) fun s hs => ?_
  · interval_cases s
    · exact ihtRound_start_scaled_unevenPair
    · exact ihtRound_fstFit_scaled_unevenPair
    · exact ihtRound_sndStep_scaled_unevenPair
  · interval_cases s
    · show 0 < Signal.norm (fstFit (5 / 2)).residual ∧ Signal.norm (fstFit (5 / 2)).residual
        < Signal.norm unevenPair.measurement
      rw [norm_fstFit]
      exact ⟨by norm_num, lt_norm_measurement_unevenPair⟩
    · show 0 < Signal.norm sndStep.residual ∧ Signal.norm sndStep.residual
        < Signal.norm (fstFit (5 / 2)).residual
      rw [norm_fstFit, norm_sndStep]
      norm_num

/-- Each of the three rounds settles. -/
lemma settles_unevenRounds {l : ℕ} (hl : l < 3) :
    (unevenPair.scaled 2).Settles (unevenRounds l) := by
  interval_cases l
  · exact isPair_scaled_unevenPair.settles normalized_start_scaled_unevenPair rfl
  · exact isPair_scaled_unevenPair.settles normalized_fstFit_scaled_unevenPair rfl
  · exact isPair_scaled_unevenPair.settles normalized_sndStep_scaled_unevenPair rfl

/-- From the first coordinate a short move to the second one is accepted, and from the second one a
step that has been halved twice. With the first step from zero this is a run of three rounds. -/
theorem recover_norms_descend_of_settles_unevenPair :
    (∀ e ∈ [fstFit (5 / 2), sndStep], e.support.size = 1 ∧
      ∃ (y g : Signal ℝ) (t : GradientStep.Backtracked ℝ),
        (unevenPair.scaled 2).operator.residual unevenPair.measurement e.x = .ok y ∧
        (unevenPair.scaled 2).operator.applyAdjoint y = .ok g ∧
        GradientStep.normalized (R := ℝ) (unevenPair.scaled 2).operator e.x e.support g 1 = .ok t ∧
        t.settled = true ∧
        ∃ y', (unevenPair.scaled 2).operator.residual unevenPair.measurement t.next.toDense
            = .ok y' ∧
          (Signal.norm y' : ℝ) ≤ Signal.norm y) ∧
    ∃ r, ((unevenPair.scaled 2).recover .iht (Options.rounds 3)).Returns 0 r 0 ∧
      r.iterations = 3 ∧
      (Signal.norm unevenPair.measurement :: r.residualNorms.toList).Pairwise
        fun a b : ℝ => b ≤ a := by
  have h := linear_unevenPair.scaled 2
  obtain ⟨hsteps, hruns⟩ := recover_norms_descend_of_settles h.images.adjunction h.size_eq
  have htraj := run_unevenRounds.toTrajectory
  constructor
  · intro e he
    have hone : e.support.size = 1 := by
      fin_cases he <;> rfl
    obtain ⟨l, hl, rfl⟩ : ∃ l < 3, e = unevenRounds l := by
      fin_cases he
      · exact ⟨1, by omega, rfl⟩
      · exact ⟨2, by omega, rfl⟩
    obtain ⟨hsupp, hcard, -⟩ := htraj.step_supportedOn (.inl rfl) h.size_eq one_le_two hl.le
    obtain ⟨y, g, t, hy, hg, ht, hle⟩ := hsteps _ _ hsupp hcard
    obtain ⟨g', t', hg', ht', hsettled⟩ := settles_unevenRounds hl
    have hbefore := h.trajectory_consistent htraj hl.le
    have hresidual := h.residual_eq hbefore.size_eq
    rw [← hbefore.residual_eq] at hresidual
    obtain rfl : y = (unevenRounds l).residual := Except.ok.inj (hy.symm.trans hresidual)
    obtain rfl : g = g' := Except.ok.inj (hg.symm.trans hg')
    obtain rfl : t = t' := Except.ok.inj (ht.symm.trans ht')
    exact ⟨hone, _, g, t, hy, hg, ht, hsettled, hle hsettled⟩
  · -- the run of the three rounds is the recovery
    have hb : RealLike.isZero (Signal.norm unevenPair.measurement : ℝ) = false :=
      decide_eq_false (by linarith [lt_norm_measurement_unevenPair])
    have hcheck : (unevenPair.scaled 2).check (Options.rounds 3) = .ok () :=
      check_eq_ok.2 ⟨validate_rounds three_pos, rfl, one_le_two, nonfiniteEntry?_eq_none _⟩
    have hm : Algorithm.iht.method (unevenPair.scaled 2).operator (Options.rounds 3)
        = .ok (.iht .normalized) := rfl
    have hr := (recover_returns_pursue (p := unevenPair.scaled 2) hb one_pos one_lt_two).2
      ⟨hcheck, run_unevenRounds.returns_pursue hm (Nat.lt_succ_self 2)⟩
    have hthree := size_norms_recordAt (R := ℝ) (unevenPair.scaled 2) unevenRounds 3
    refine ⟨_, hr, hthree, hruns _ 0 0 _ rfl hr (fun _ e q htraj' s hs => ?_) fun hall => ?_⟩
    · -- every trajectory of three rounds is the known one
      have hs' : s < 3 := hthree ▸ hs
      rw [htraj'.estimate_eq (Backend.ofSolver_pure _ _) htraj hs.le hs'.le]
      exact settles_unevenRounds hs'
    · exact absurd hall (Nat.ne_of_lt one_lt_two)

end Problem
end CompressedSensing
