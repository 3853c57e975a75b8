import Mathlib
import CompressedSensing.Proofs.Recovery.BestEstimate
import CompressedSensing.Proofs.Recovery.Monotone
import CompressedSensing.Proofs.Recovery.Optimality
import CompressedSensing.Proofs.Recovery.Rescaling
/-!
# The first round makes progress

The first round of a run starts from zero, where the residual is the measurement and the gradient
is the proxy `Aᴴ b`. A step along it thresholds a multiple of the proxy, so it selects the leading
entries whatever its length, and the columns that subspace pursuit merges into the empty support are
the leading ones, too. If the proxy is not zero, it is not zero on its leading entries, and the
normalized step, like a least-squares fit there, leaves strictly less than the measurement.

The answer is the best estimate of the run, so it leaves no more than that of the first round. It
has a smaller residual than the zero signal and is different from it.
-/

namespace CompressedSensing

open Matrix Reals
open scoped ExactScalar

variable {T : Type} [Scalar T ℝ] [NormedScalar T]

namespace GradientStep

/-- From zero a step thresholds a multiple of the gradient. -/
lemma take_zeros {g : Signal T} {n : ℕ} (hg : g.size = n) {μ : ℝ} (hμ : μ ≠ 0) (k : ℕ) :
    take (Signal.zeros n) g μ k = (Signal.hardThreshold g k).scale (Scalar.ofReal μ) := by
  have hpoint : Array.zipWith (fun x y => x + Scalar.scaleReal y μ) (Signal.zeros n) g
      = Signal.scale (Scalar.ofReal μ) g := by
    apply Array.ext
    · simp [Signal.zeros, hg]
    · intro l hl hl'
      simp [Signal.zeros, Signal.scale, Scalar.scaleReal]
  unfold take
  rw [hpoint, Signal.hardThreshold_scale (NormedScalar.ofReal_ne_zero hμ)]

omit [NormedScalar T] in
/-- A step that keeps the support is accepted at once. -/
lemma backtrack_of_indices {a : Operator T} {x g : Signal T} {k halvings : ℕ} {s : Array ℕ} {μ : ℝ}
    {next : Thresholded T} (h : next.indices = s) :
    backtrack a x g k s (halvings + 1) μ next = .ok ⟨next, true⟩ := by
  unfold backtrack
  rw [if_pos h]
  rfl

/-- The step that is fitted to a support, by the part of the gradient there. -/
lemma fittedStep_eq {a : Operator T} {M : Matrix (Fin a.rows) (Fin a.cols) T} (ha : a.HasImages M)
    {s : Array ℕ} (hs : Support.Valid a.cols s) {g : Signal T} (hg : g.size = a.cols) :
    fittedStep a a.cols s g
      = .ok (if RealLike.isZero (energy (Signal.coords a.cols (g.restrict s)))
          || RealLike.isZero (energy (M *ᵥ Signal.coords a.cols (g.restrict s))) then 1
        else energy (Signal.coords a.cols (g.restrict s))
          / energy (M *ᵥ Signal.coords a.cols (g.restrict s))) := by
  rw [← hg] at hs
  have hembed := Signal.embed_valuesAt hs
  rw [hg] at hembed
  have hsize : (g.restrict s).size = a.cols := (Signal.size_restrict g s).trans hg
  unfold fittedStep
  rw [Signal.gather_eq hs, Except.ok_bind, hembed, Except.ok_bind]
  dsimp only
  rw [ha.apply_eq _ hsize, Except.ok_bind, Signal.normSq_eq_energy hsize,
    Signal.normSq_eq_energy Array.size_ofFn, Signal.coords_ofFn]
  rfl

end GradientStep

namespace Problem

variable {p : Problem T} {M : Matrix (Fin p.operator.rows) (Fin p.operator.cols) T} {s : Array ℕ}
  {e e' : Estimate T} {i j : ℕ}

/-! ## The proxy -/

lemma partOf_proxyOn (hs : Support.Valid p.operator.cols s) :
    PartOf (Mᴴ *ᵥ p.target) (p.proxyOn M s) :=
  partOf_restrict_gradient hs rfl

/-- A part of the proxy that is not zero has energy, and so has its image. -/
lemma energy_proxyOn_pos (hs : Support.Valid p.operator.cols s) (hne : p.proxyOn M s ≠ 0) :
    0 < energy (p.proxyOn M s) ∧ 0 < energy (M *ᵥ p.proxyOn M s) :=
  ⟨energy_pos hne, (partOf_proxyOn hs).energy_mulVec_pos hne⟩

/-- A proxy that is not zero is not zero on its leading entries. -/
lemma exists_mem_leading (hk : 0 < p.sparsity) (hne : ∃ l, (p.proxy M).getD l 0 ≠ 0) :
    ∃ l : Fin p.operator.cols, l.val ∈ p.leading M ∧ (Mᴴ *ᵥ p.target) l ≠ 0 := by
  by_contra hall
  push Not at hall
  obtain ⟨l, hl⟩ := hne
  apply hl
  apply Support.eq_zero_of_largest hk
  intro c hc
  have hvanish := hall ⟨c, leading_ascending.lt c hc⟩ hc
  unfold target at hvanish
  rwa [← coords_proxy] at hvanish

/-- If the proxy is not zero, its largest entries are not all zero. -/
lemma proxyOn_leading_ne_zero (hk : 0 < p.sparsity) (hne : ∃ l, (p.proxy M).getD l 0 ≠ 0) :
    p.proxyOn M (p.leading M) ≠ 0 := by
  obtain ⟨l, hl, hentry⟩ := exists_mem_leading hk hne
  intro hzero
  apply hentry
  have hvanish := congrFun hzero l
  rwa [proxyOn_apply leading_ascending.valid, if_pos hl, coords_proxy] at hvanish

/-- The best step along the proxy at a support. -/
noncomputable def bestStep (p : Problem T)
    (M : Matrix (Fin p.operator.rows) (Fin p.operator.cols) T) (s : Array ℕ) : ℝ :=
  energy (p.proxyOn M s) / energy (M *ᵥ p.proxyOn M s)

/-- A fit on columns that do not all have a zero in the proxy leaves less than the measurement. -/
lemma Least.energy_lt {x : Signal T} (h : p.Least M s x)
    (hne : ∃ l : Fin p.operator.cols, l.val ∈ s ∧ (Mᴴ *ᵥ p.target) l ≠ 0) :
    energy (p.misfit M x) < energy p.target := by
  obtain ⟨l, hl, hentry⟩ := hne
  obtain ⟨v, hv, hlt⟩ := exists_energy_lt h.valid hl hentry
  exact (h.energy_le v hv).trans_lt hlt

namespace Linear

variable (h : p.Linear M)
include h

/-- The gradient at the start is the proxy. -/
lemma applyAdjoint_start : p.operator.applyAdjoint p.start.residual = .ok (p.proxy M) :=
  h.images.applyAdjoint_eq _ h.size_eq

/-- The step that is fitted to a support is the best one there. -/
lemma fittedStep_proxy (hs : Support.Valid p.operator.cols s) (hne : p.proxyOn M s ≠ 0) :
    GradientStep.fittedStep p.operator p.operator.cols s (p.proxy M) = .ok (p.bestStep M s) := by
  obtain ⟨hpos, hseen⟩ := energy_proxyOn_pos hs hne
  have hsize_ne : RealLike.isZero (energy (Signal.coords p.operator.cols
      ((p.proxy M).restrict s))) = false := decide_eq_false hpos.ne'
  have hseen_ne : RealLike.isZero (energy (M *ᵥ Signal.coords p.operator.cols
      ((p.proxy M).restrict s))) = false := decide_eq_false hseen.ne'
  rw [GradientStep.fittedStep_eq h.images hs size_proxy, hsize_ne, hseen_ne]
  rfl

/-! ## First steps -/

/-- The first normalized step is the best one along the leading entries of the proxy. It keeps
them, so it is accepted at once. -/
lemma normalized_start (hne : p.proxyOn M (p.leading M) ≠ 0) :
    GradientStep.normalized p.operator p.start.x p.start.support (p.proxy M) p.sparsity
      = .ok ⟨(Signal.hardThreshold (p.proxy M) p.sparsity).scale
        (Scalar.ofReal (p.bestStep M (p.leading M))), true⟩ := by
  obtain ⟨hpos, hseen⟩ := energy_proxyOn_pos (leading_ascending (M := M)).valid hne
  have hstep : p.bestStep M (p.leading M) ≠ 0 := (div_pos hpos hseen).ne'
  have hfitted : GradientStep.fittedSupport p.start.support (p.proxy M) p.sparsity
      = p.leading M := rfl
  have hkept : ((Signal.hardThreshold (p.proxy M) p.sparsity).scale
      (Scalar.ofReal (p.bestStep M (p.leading M)))).indices = p.leading M := rfl
  have hsize : p.start.x.size = p.operator.cols := p.start_supportedOn.size_eq
  unfold GradientStep.normalized
  dsimp only
  rw [hfitted, hsize, h.fittedStep_proxy leading_ascending.valid hne, Except.ok_bind]
  show GradientStep.backtrack p.operator p.start.x (p.proxy M) p.sparsity (p.leading M) (29 + 1)
    (p.bestStep M (p.leading M)) (GradientStep.take (Signal.zeros p.operator.cols) (p.proxy M)
      (p.bestStep M (p.leading M)) p.sparsity) = _
  rw [GradientStep.take_zeros size_proxy hstep, GradientStep.backtrack_of_indices hkept]

/-- The first normalized step thresholds the proxy and scales it by the best step on its largest
entries. -/
lemma gradientStep_start_normalized (hne : p.proxyOn M (p.leading M) ≠ 0) :
    p.gradientStep .normalized p.start = .ok ((Signal.hardThreshold (p.proxy M) p.sparsity).scale
      (Scalar.ofReal (p.bestStep M (p.leading M)))) := by
  unfold gradientStep GradientStep.advance
  rw [h.applyAdjoint_start, Except.ok_bind]
  dsimp only
  rw [h.normalized_start hne, Except.ok_bind]
  rfl

/-- The first constant step thresholds the proxy and scales it by the constant. -/
lemma gradientStep_start_constant {μ : ℝ} (hμ : 0 < μ) :
    p.gradientStep (.constant μ) p.start
      = .ok ((Signal.hardThreshold (p.proxy M) p.sparsity).scale (Scalar.ofReal μ)) := by
  unfold gradientStep
  rw [h.applyAdjoint_start, Except.ok_bind]
  exact congrArg Except.ok (GradientStep.take_zeros size_proxy hμ.ne' p.sparsity)

/-- By every valid rule the first step leads to the leading entries. -/
lemma indices_gradientStep_start [DecimalText ℝ] {o : Options ℝ} (ho : o.validate = .ok ())
    {rule : StepRule ℝ} (hrule : GradientStep.resolve p.operator o = .ok rule)
    (hne : p.proxyOn M (p.leading M) ≠ 0) {t : Thresholded T}
    (ht : p.gradientStep rule p.start = .ok t) : t.indices = p.leading M := by
  cases rule with
  | constant μ =>
    rw [h.gradientStep_start_constant (GradientStep.resolve_pos ho hrule)] at ht
    cases ht
    rfl
  | normalized =>
    rw [h.gradientStep_start_normalized hne] at ht
    cases ht
    rfl

/-! ## First rounds -/

/-- The first normalized round lowers the energy of the residual. -/
lemma ihtRound_start_energy_lt (hne : p.proxyOn M (p.leading M) ≠ 0)
    (hround : p.ihtRound .normalized p.start = .ok e') :
    energy (p.misfit M e'.x) < energy p.target := by
  obtain ⟨t, ht, hest⟩ := ihtRound_eq_ok.1 hround
  rw [h.gradientStep_start_normalized hne] at ht
  cases ht
  rw [(estimate_eq_ok.1 hest).1, Thresholded.toDense_scale, misfit, Signal.coords_scale]
  exact (partOf_proxyOn leading_ascending.valid).energy_step_lt hne

variable (hs : p.backend.Minimizing)
include hs

/-- The first round of HTP lowers the energy of the residual, for every step rule. -/
lemma htpRound_start_energy_lt [DecimalText ℝ] {o : Options ℝ} (ho : o.validate = .ok ())
    {rule : StepRule ℝ} (hrule : GradientStep.resolve p.operator o = .ok rule)
    (hk : 0 < p.sparsity) (hne : ∃ l, (p.proxy M).getD l 0 ≠ 0)
    (hround : (p.htpRound rule p.start).Returns i e' j) :
    energy (p.misfit M e'.x) < energy p.target := by
  obtain ⟨t, z, x, ht, hz, hx, hest⟩ := htpRound_returns.1 hround
  have hindices := h.indices_gradientStep_start ho hrule (proxyOn_leading_ne_zero hk hne) ht
  have hleast := h.least_of_fit hs hz hx
  rw [hindices] at hleast
  rw [(estimate_eq_ok.1 hest).1]
  exact hleast.energy_lt (exists_mem_leading hk hne)

/-- The columns merged into the empty support are as many as are wanted, so the first fit is the
last. -/
lemma subspacePursuitRound_start_energy_lt (hk : 0 < p.sparsity)
    (hn : p.sparsity ≤ p.operator.cols) (hne : ∃ l, (p.proxy M).getD l 0 ≠ 0)
    (hround : (p.subspacePursuitRound p.start).Returns i e' j) :
    energy (p.misfit M e'.x) < energy p.target := by
  obtain ⟨merged, s, z, x, hmerged, hrefit, hx, hest⟩ := subspacePursuitRound_returns.1 hround
  obtain ⟨-, hsize⟩ := expand_ascending p.start_supportedOn.ascending hmerged
  have hempty : p.start.support.size = 0 := rfl
  have hmem : ∀ l ∈ p.leading M, l ∈ merged := by
    intro l hl
    -- nothing is excluded in the first round
    unfold expand at hmerged
    rw [h.applyAdjoint_start, Except.ok_bind] at hmerged
    dsimp only at hmerged
    rw [if_neg (by omega)] at hmerged
    cases hmerged
    apply Support.mem_merge.2
    right
    apply Support.mem_largestExcluding_empty _ hl
    omega
  obtain ⟨y, l, hy, hkept | ⟨hpruned, -⟩⟩ := refit_returns.1 hrefit
  · obtain ⟨-, rfl, rfl, -⟩ := hkept
    obtain ⟨l, hl, hentry⟩ := exists_mem_leading hk hne
    rw [(estimate_eq_ok.1 hest).1]
    exact (h.least_of_fit hs hy hx).energy_lt ⟨l, hmem l hl, hentry⟩
  · have hcount := size_of_minimizing_fit hs hy
    rw [Support.size_largest] at hpruned
    omega

end Linear

section

variable [DecimalText ℝ] {alg : Algorithm} {o : Options ℝ} {m : Method ℝ} {r : Recovered T ℝ}

/-- Thresholding with normalized steps, and both algorithms that fit on what they keep. -/
def Improving (alg : Algorithm) (o : Options ℝ) : Prop :=
  alg = .iht ∧ o.step = .normalized ∨ alg = .htp ∨ alg = .subspacePursuit

/-- The first round leaves strictly less than the measurement. -/
theorem Linear.round_start_energy_lt (h : p.Linear M) (hs : alg ≠ .iht → p.backend.Minimizing)
    (halg : Improving alg o) (ho : o.validate = .ok ()) (hm : alg.method p.operator o = .ok m)
    (hk : 0 < p.sparsity) (hn : p.sparsity ≤ p.operator.cols)
    (hne : ∃ l, (p.proxy M).getD l 0 ≠ 0) (hround : (p.round m p.start).Returns i e' j) :
    energy (p.misfit M e'.x) < energy p.target := by
  obtain ⟨rfl, hstep⟩ | rfl | rfl := halg
  · rw [Algorithm.iht.method_eq_normalizedMethod _ hstep] at hm
    cases hm
    exact h.ihtRound_start_energy_lt (proxyOn_leading_ne_zero hk hne)
      (Solving.returns_ofExcept.1 hround).1
  · obtain ⟨rule, hrule, hm⟩ := Except.bind_eq_ok.1 hm
    cases hm
    exact h.htpRound_start_energy_lt (hs (by decide)) ho hrule hk hne hround
  · cases hm
    exact h.subspacePursuitRound_start_energy_lt (hs (by decide)) hk hn hne hround

/-! ## Recoveries -/

omit [DecimalText ℝ] in
/-- The best estimate of a run is no worse than the one after the first round. -/
lemma Linear.energy_best_le (h : p.Linear M) {t : ℕ} {f : ℕ → Estimate T} {q : ℕ → ℕ}
    (htraj : p.Trajectory m i t f q) (ht : 0 < t) :
    energy (p.misfit M (f (bestIndex (residualNormAt (R := ℝ) f) t)).x)
      ≤ energy (p.misfit M (f 1).x) := by
  have hbest := leads_bestIndex (N := residualNormAt (R := ℝ) f) rfl t
  have hle : (Signal.norm (f (bestIndex (residualNormAt (R := ℝ) f) t)).residual : ℝ)
      ≤ Signal.norm (f 1).residual := of_decide_eq_true (hbest.least 1 ht rfl)
  rwa [(h.trajectory_consistent htraj hbest.le).norm_eq, (h.trajectory_consistent htraj ht).norm_eq,
    Real.sqrt_le_sqrt_iff (energy_nonneg _)] at hle

/-- The answer leaves strictly less than the measurement, and the norm that is reported is that of
what it leaves. -/
structure Improves (p : Problem T) (M : Matrix (Fin p.operator.rows) (Fin p.operator.cols) T)
    (r : Recovered T ℝ) : Prop where
  size_eq : r.x.size = p.operator.cols
  residualNorm_eq : r.residualNorm = Real.sqrt (energy (p.misfit M r.x))
  energy_lt : energy (p.misfit M r.x) < energy p.target

omit [DecimalText ℝ] in
/-- A result that improves on zero reports a residual norm below that of the measurement. -/
lemma Improves.residualNorm_lt (hr : p.Improves M r)
    (hb : p.measurement.size = p.operator.rows) :
    r.residualNorm < Signal.norm p.measurement := by
  have hnorm : (Signal.norm p.measurement : ℝ) = Real.sqrt (energy p.target) :=
    Signal.norm_eq_sqrt_energy hb
  rw [hr.residualNorm_eq, hnorm]
  exact Real.sqrt_lt_sqrt (energy_nonneg _) hr.energy_lt

omit [DecimalText ℝ] in
/-- The zero signal leaves the measurement. -/
lemma Improves.exists_ne_zero (hr : p.Improves M r) : ∃ l, r.x.getD l 0 ≠ 0 := by
  by_contra hall
  push Not at hall
  have hzero : Signal.coords p.operator.cols r.x = 0 := funext fun l => hall l
  have hlt := hr.energy_lt
  rw [misfit, hzero, mulVec_zero, sub_zero] at hlt
  exact lt_irrefl _ hlt

omit [DecimalText ℝ] in
/-- The zero measurement has no proxy. -/
lemma Linear.isZero_norm_measurement (h : p.Linear M) (hk : 0 < p.sparsity)
    (hne : ∃ l, (p.proxy M).getD l 0 ≠ 0) :
    RealLike.isZero (Signal.norm p.measurement : ℝ) = false := by
  obtain ⟨l, -, hentry⟩ := exists_mem_leading hk hne
  have hpos : 0 < energy p.target := by
    apply energy_pos
    intro hzero
    rw [hzero, mulVec_zero] at hentry
    exact hentry rfl
  rw [Signal.norm_eq_sqrt_energy h.size_eq]
  exact decide_eq_false (Real.sqrt_pos.2 hpos).ne'

omit [DecimalText ℝ] in
/-- The direct branch improves on zero. -/
lemma Linear.improves_solveAll (h : p.Linear M) (hs : p.backend.Minimizing) (hk : 0 < p.sparsity)
    (hne : ∃ l, (p.proxy M).getD l 0 ≠ 0) (hr : p.solveAll.Returns i r j) : p.Improves M r := by
  obtain ⟨x, y, hx, hy, rfl⟩ := Problem.solveAll_returns.1 hr
  have hleast := h.least_solveAll hs hx
  obtain ⟨l, -, hentry⟩ := exists_mem_leading hk hne
  rw [h.residual_eq hleast.size_eq] at hy
  cases hy
  constructor
  · exact hleast.size_eq
  · rw [Signal.norm_eq_sqrt_energy Array.size_ofFn, Signal.coords_ofFn]
  · exact hleast.energy_lt ⟨l, Array.mem_range.2 l.isLt, hentry⟩

omit [DecimalText ℝ] in
/-- The answer of a run whose first round leaves less. -/
lemma Linear.improves_run (h : p.Linear M) {c : Convergence ℝ} {u : ℕ} {f : ℕ → Estimate T}
    {q : ℕ → ℕ} (hrun : p.Run m c i u f q) (hlt : energy (p.misfit M (f 1).x) < energy p.target)
    (reason : StopReason) : p.Improves M ((p.recordAt f (u + 1)).finish reason) := by
  obtain ⟨hx, -, hnorm⟩ := recordAt_best (R := ℝ) hrun.start (u + 1)
  have hbest := h.trajectory_consistent hrun.toTrajectory
    (bestIndex_le (residualNormAt (R := ℝ) f) (u + 1))
  constructor
  · show (p.recordAt f (u + 1)).bestX.size = _
    rw [hx]
    exact hbest.size_eq
  · show (p.recordAt f (u + 1)).bestNorm = Real.sqrt (energy (p.misfit M (p.recordAt f _).bestX))
    rw [hx, hnorm]
    exact hbest.norm_eq
  · show energy (p.misfit M (p.recordAt f (u + 1)).bestX) < _
    rw [hx]
    exact (h.energy_best_le hrun.toTrajectory u.succ_pos).trans_lt hlt

/-- Every answer is of one of these two kinds. -/
lemma Linear.improves_recover (h : p.Linear M)
    (hs : alg ≠ .iht ∨ p.sparsity = p.operator.cols → p.backend.Minimizing)
    (halg : Improving alg o) (hk : 0 < p.sparsity) (hne : ∃ l, (p.proxy M).getD l 0 ≠ 0)
    (hr : (p.recover alg o).Returns i r j) : p.Improves M r := by
  obtain ⟨hcheck, hbranch⟩ := Problem.recover_returns.1 hr
  obtain ⟨hvalid, -, hn, -⟩ := check_eq_ok.1 hcheck
  rw [h.isZero_norm_measurement hk hne, if_neg Bool.false_ne_true, if_neg hk.ne'] at hbranch
  split at hbranch
  · rename_i hall
    exact h.improves_solveAll (hs (.inr hall)) hk hne hbranch
  · obtain ⟨m, u, f, q, hm, hrun, -, -, rfl⟩ :=
      Problem.pursue_returns (Options.maxIterations_pos hvalid) hbranch
    have hfirst := hrun.step 0 u.succ_pos
    rw [hrun.start] at hfirst
    have hlt := h.round_start_energy_lt (fun hiht => hs (.inl hiht)) halg hvalid hm hk hn hne hfirst
    exact h.improves_run hrun hlt _

omit [NormedScalar T] [DecimalText ℝ] in
/-- Thresholding does not look at the backend. -/
lemma iterate_iht_withBackend (p : Problem T) (s : Backend T) (rule : StepRule ℝ)
    (c : Convergence ℝ) (b : ℝ) (remaining : ℕ) (record : Record T ℝ) (e : Estimate T) :
    (p.withBackend s).iterate (.iht rule) c b remaining record e
      = p.iterate (.iht rule) c b remaining record e := by
  induction remaining generalizing record e with
  | zero => rfl
  | succ remaining ih =>
    unfold iterate
    simp only [ih]
    rfl

/-- So it succeeds with any backend, unless all columns are wanted. -/
lemma Linear.recover_iht_returns (h : p.Linear M) (hcheck : p.check o = .ok ())
    (hb : RealLike.isZero (Signal.norm p.measurement : ℝ) = false) (hk : 0 < p.sparsity)
    (hn : p.sparsity < p.operator.cols) (i : ℕ) : ∃ r j, (p.recover .iht o).Returns i r j := by
  have hdense := Operator.hasMatrix_dense_ofFn M
  -- the same recovery with maps that accept any buffer
  have hrecover := recover_congr .iht o (h.images.agrees hdense.hasImages)
    fun hall => absurd hall hn.ne
  rw [← hrecover]
  obtain ⟨hvalid, hsize, hle, hfinite⟩ := check_eq_ok.1 hcheck
  obtain ⟨m, hm⟩ := Algorithm.iht.method_ok hdense.total o
  obtain ⟨rule, -, hrule⟩ := Except.bind_eq_ok.1 hm
  cases hrule
  let p' : Problem T := p.withOperator (.dense (.ofFn M))
  obtain ⟨r, hr⟩ := iterate_iht_returns (p := p'.withBackend .columnwise) (i := i) rule
    o.convergence
    (Signal.norm p.measurement) o.maxIterations
    (Record.start p.operator.cols (Signal.norm p.measurement)) hdense.total Backend.columnwise_fits
    hle p'.start_supportedOn hsize
  rw [iterate_iht_withBackend] at hr
  refine ⟨r, i, (recover_returns_pursue (p := p') hb hk hn).2 ⟨?_, ?_⟩⟩
  · exact check_eq_ok.2 ⟨hvalid, hsize, hle, hfinite⟩
  · exact Solving.returns_ofExcept_bind.2 ⟨_, hm, hr⟩

/-- If `Aᴴ b` is not zero, every answer of these algorithms has a residual that is strictly smaller
than the measurement, and is not the zero signal. They do answer as long as the backend does not
refuse; thresholding needs it only where all columns are wanted. -/
theorem recover_residualNorm_lt (ha : p.operator.Adjunction) {g : Signal T}
    (hg : p.operator.applyAdjoint p.measurement = .ok g) (hne : ∃ l, g.getD l 0 ≠ 0)
    (hb : p.measurement.size = p.operator.rows) (hk : 0 < p.sparsity)
    (hn : p.sparsity ≤ p.operator.cols) (ho : o.validate = .ok ()) (halg : Improving alg o)
    (hs : alg ≠ .iht ∨ p.sparsity = p.operator.cols → p.backend.Minimizing) (i : ℕ) :
    (∀ r j, (p.recover alg o).Returns i r j →
      r.residualNorm < Signal.norm p.measurement ∧ ∃ l, r.x.getD l 0 ≠ 0) ∧
    ((alg ≠ .iht ∨ p.sparsity = p.operator.cols → p.backend.LeastSquares) →
      ∃ r j, (p.recover alg o).Returns i r j) := by
  obtain ⟨M, hM⟩ := ha.exists_hasImages
  have h : p.Linear M := ⟨hM, hb⟩
  have hproxy := h.applyAdjoint_start
  rw [show p.start.residual = p.measurement from rfl, hg] at hproxy
  cases hproxy
  constructor
  · intro r j hr
    have himproves := h.improves_recover hs halg hk hne hr
    exact ⟨himproves.residualNorm_lt hb, himproves.exists_ne_zero⟩
  · intro hleast
    have hcheck : p.check o = .ok () := check_eq_ok.2 ⟨ho, hb, hn, nonfiniteEntry?_eq_none p⟩
    -- only here does it matter whether the backend is asked at all
    by_cases hneeds : alg ≠ .iht ∨ p.sparsity = p.operator.cols
    · exact h.recover_returns (hleast hneeds) alg hcheck i
    · push Not at hneeds
      obtain ⟨rfl, hsome⟩ := hneeds
      exact h.recover_iht_returns hcheck (h.isZero_norm_measurement hk hne) hk
        (lt_of_le_of_ne hn hsome) i

end

/-- Of two coordinates, each of the algorithms keeps one. -/
theorem recover_residualNorm_lt_realPair :
    (∃ r j, (realPair.recover .iht Options.standard).Returns 0 r j ∧
      r.residualNorm < Signal.norm realPair.measurement ∧ ∃ l, r.x.getD l 0 ≠ 0) ∧
    (∃ r j, (realPair.recover .htp (Options.fixedStep 1)).Returns 0 r j ∧
      r.residualNorm < Signal.norm realPair.measurement ∧ ∃ l, r.x.getD l 0 ≠ 0) ∧
    ∃ r j, (realPair.recover .subspacePursuit Options.standard).Returns 0 r j ∧
      r.residualNorm < Signal.norm realPair.measurement ∧ ∃ l, r.x.getD l 0 ≠ 0 := by
  have hproxy : ∃ l, realPair.measurement.getD l 0 ≠ 0 := by
    refine ⟨0, ?_⟩
    show (8 : ℝ) ≠ 0
    norm_num
  have hs := Backend.leastSquares_leastSquares
  have hprogress {alg : Algorithm} {o : Options ℝ} (ho : o.validate = .ok ())
      (halg : Improving alg o) : ∃ r j, (realPair.recover alg o).Returns 0 r j ∧
        r.residualNorm < Signal.norm realPair.measurement ∧ ∃ l, r.x.getD l 0 ≠ 0 := by
    obtain ⟨hlt, hreturns⟩ := recover_residualNorm_lt
      (Operator.hasMatrix_identity (T := ℝ) 2).hasImages.adjunction (apply_realPair rfl).2 hproxy
      rfl
      one_pos one_le_two ho halg (fun _ => hs.minimizing) 0
    obtain ⟨r, j, hr⟩ := hreturns fun _ => hs
    exact ⟨r, j, hr, hlt r j hr⟩
  exact ⟨hprogress validate_standard (.inl ⟨rfl, rfl⟩),
    hprogress validate_fixedStep_one (.inr (.inl rfl)),
    hprogress validate_standard (.inr (.inr rfl))⟩

end Problem
end CompressedSensing
