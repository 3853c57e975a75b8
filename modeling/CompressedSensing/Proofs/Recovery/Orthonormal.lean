import Mathlib
import CompressedSensing.Proofs.LeastSquares.Minimizer
import CompressedSensing.Proofs.Recovery.Pruning
/-!
# Rounds on orthonormal columns

If the columns of the operator are orthonormal and arithmetic is exact, a round of any algorithm
ends at the thresholded proxy `H_k (Aᴴ b)`, by different ways. Let `c = Aᴴ b` and let `S` be its
`k` largest entries.

* On any support the least-squares fit is what `c` has there, so an estimate is determined by its
  support: it is the restriction of `c`.
* The gradient step has length one and leads from such an estimate back to `c`.
* Whatever columns are merged, `S` is among them, and pruning selects it again.

So a round from the start or from the estimate on `S` ends at the estimate on `S`.
-/

namespace CompressedSensing

open Matrix Reals
open scoped ExactScalar

variable {T : Type} [Scalar T ℝ]

/-! ## Gradient steps -/

variable [EuclideanScalar T] {m n : ℕ}

namespace GradientStep

/-- On orthonormal columns the fitted step is one. -/
lemma fittedStep_eq_one {a : Operator T} {M : Matrix (Fin a.rows) (Fin a.cols) T}
    (ha : a.HasImages M) (hM : Mᴴ * M = 1) {g : Signal T} (hg : g.size = a.cols) {s : Array ℕ}
    (hs : Support.Valid a.cols s) : fittedStep a a.cols s g = .ok (1 : ℝ) := by
  rw [← hg] at hs
  have hgs : (g.restrict s).size = a.cols := (Signal.size_restrict g s).trans hg
  have hseen : (Signal.normSq (Array.ofFn (M *ᵥ Signal.coords a.cols (g.restrict s))) : ℝ)
      = Signal.normSq (g.restrict s) := by
    rw [Signal.normSq_eq_energy Array.size_ofFn, Signal.normSq_eq_energy hgs,
      Signal.coords_ofFn, energy_mulVec hM]
  unfold fittedStep
  rw [Signal.gather_eq hs, Except.ok_bind, ← hg, Signal.embed_valuesAt hs, Except.ok_bind]
  dsimp only
  rw [ha.apply_eq _ hgs, Except.ok_bind, hseen]
  refine congrArg Except.ok ?_
  split
  · rfl
  · rename_i hne
    have hzero : (Signal.normSq (g.restrict s) : ℝ) ≠ 0 := by
      intro h
      rw [h] at hne
      exact hne (by simp [RealLike.isZero])
    exact div_self hzero

end GradientStep

namespace Problem

/-! ## Estimates on supports -/

variable {p : Problem T} {M : Matrix (Fin p.operator.rows) (Fin p.operator.cols) T}
  {s : Array ℕ} {i j : ℕ}

/-- The operator has orthonormal columns and the backend solves least squares. -/
structure Orthonormal (p : Problem T)
    (M : Matrix (Fin p.operator.rows) (Fin p.operator.cols) T) : Prop where
  images : p.operator.HasImages M
  columns : Mᴴ * M = 1
  backend : p.backend.LeastSquares
  size_eq : p.measurement.size = p.operator.rows

/-- The proxy `c = Aᴴ b`. -/
def proxy (p : Problem T) (M : Matrix (Fin p.operator.rows) (Fin p.operator.cols) T) : Signal T :=
  Array.ofFn (Mᴴ *ᵥ Signal.coords p.operator.rows p.measurement)

/-- The coordinates of the proxy at a support, zero elsewhere. -/
def proxyOn (p : Problem T) (M : Matrix (Fin p.operator.rows) (Fin p.operator.cols) T)
    (s : Array ℕ) : Fin p.operator.cols → T :=
  Signal.coords p.operator.cols ((p.proxy M).restrict s)

/-- The estimate whose signal is the proxy at a support. -/
def estimateOn (p : Problem T) (M : Matrix (Fin p.operator.rows) (Fin p.operator.cols) T)
    (s : Array ℕ) : Estimate T :=
  ⟨(p.proxy M).restrict s, s,
    Array.ofFn (Signal.coords p.operator.rows p.measurement - M *ᵥ p.proxyOn M s)⟩

lemma size_proxy : (p.proxy M).size = p.operator.cols := Array.size_ofFn

lemma coords_proxy : Signal.coords p.operator.cols (p.proxy M)
    = Mᴴ *ᵥ Signal.coords p.operator.rows p.measurement := Signal.coords_ofFn _

/-- The proxy on a support is the proxy there and zero elsewhere. -/
lemma proxyOn_apply (hs : Support.Valid p.operator.cols s) (l : Fin p.operator.cols) :
    p.proxyOn M s l = if l.val ∈ s then Signal.coords p.operator.cols (p.proxy M) l else 0 :=
  Signal.coords_restrict hs size_proxy l

lemma proxyOn_empty : p.proxyOn M #[] = 0 := by
  funext l
  rw [proxyOn_apply (Support.Ascending.empty _).valid, if_neg (Array.not_mem_empty _)]
  rfl

/-- The values of the proxy at a support make the estimate there. -/
lemma embed_proxy (hs : Support.Valid p.operator.cols s) :
    Signal.embed p.operator.cols s ((p.proxy M).valuesAt s) = .ok ((p.proxy M).restrict s) := by
  have hembed := Signal.embed_valuesAt (x := p.proxy M) (s := s) (by rwa [size_proxy])
  rwa [size_proxy] at hembed

/-- The rest of the proxy, which the estimate on a support leaves. -/
def rest (p : Problem T) (M : Matrix (Fin p.operator.rows) (Fin p.operator.cols) T)
    (s : Array ℕ) : Signal T :=
  Array.ofFn (Signal.coords p.operator.cols (p.proxy M) - p.proxyOn M s)

lemma size_rest : (p.rest M s).size = p.operator.cols := Array.size_ofFn

lemma rest_empty : p.rest M #[] = p.proxy M := by
  rw [rest, proxyOn_empty, sub_zero, Signal.ofFn_coords _ size_proxy]

namespace Orthonormal

variable (h : p.Orthonormal M)
include h

/-- The adjoint image of the measurement is the proxy. -/
lemma applyAdjoint_measurement : p.operator.applyAdjoint p.measurement = .ok (p.proxy M) :=
  h.images.applyAdjoint_eq _ h.size_eq

/-- The estimate on the empty support is the start. -/
lemma estimateOn_empty : p.estimateOn M #[] = p.start := by
  have hres : Array.ofFn (Signal.coords p.operator.rows p.measurement - M *ᵥ p.proxyOn M #[])
      = p.measurement := by
    rw [proxyOn_empty, mulVec_zero, sub_zero, Signal.ofFn_coords _ h.size_eq]
  unfold estimateOn start
  rw [hres, Signal.restrict_empty, size_proxy]

/-- The proxy restricted to a support makes the estimate on that support. -/
lemma estimate_restrict (s : Array ℕ) :
    p.estimate ((p.proxy M).restrict s) s = .ok (p.estimateOn M s) := by
  unfold estimate
  rw [h.images.residual_eq h.size_eq ((Signal.size_restrict _ s).trans size_proxy)]
  rfl

/-- The adjoint image of a residual is the rest of the proxy. -/
lemma applyAdjoint_residual (s : Array ℕ) :
    p.operator.applyAdjoint (p.estimateOn M s).residual = .ok (p.rest M s) := by
  unfold estimateOn rest
  rw [h.images.applyAdjoint_eq _ Array.size_ofFn, Signal.coords_ofFn, mulVec_sub, mulVec_mulVec,
    h.columns, one_mulVec, coords_proxy]

/-- The fit on a support is what the proxy has there. -/
lemma fit_returns (hs : Support.Valid p.operator.cols s) (i : ℕ) :
    ∃ j, (p.fit s).Returns i ((p.proxy M).valuesAt s) j := by
  unfold fit
  simp only [Operator.solveOn_returns]
  by_cases hempty : s.isEmpty
  · refine ⟨i, h.size_eq, hs, ?_⟩
    rw [if_pos hempty, Array.isEmpty_iff.1 hempty]
    exact ⟨Array.map_empty, rfl⟩
  · refine ⟨i + 1, h.size_eq, hs, ?_⟩
    rw [if_neg hempty]
    refine ⟨_, h.images.restrictedMatrix_eq hs, ?_, rfl⟩
    rw [h.backend.solve_eq i (Support.orthonormal_columns h.columns hs) h.size_eq,
      conjTranspose_mul, conjTranspose_conjTranspose, ← mulVec_mulVec, ← coords_proxy,
      ← Signal.coords_valuesAt hs size_proxy, Signal.ofFn_coords _ (Signal.size_valuesAt _ _)]

/-- By Pythagoras an estimate takes its own energy off the measurement. -/
lemma energy_measurement (hs : Support.Valid p.operator.cols s) :
    energy (Signal.coords p.operator.rows p.measurement)
      = energy (Signal.coords p.operator.rows p.measurement - M *ᵥ p.proxyOn M s)
        + energy (p.proxyOn M s) := by
  have horth : star (p.proxyOn M s) ⬝ᵥ
      (Mᴴ *ᵥ (Signal.coords p.operator.rows p.measurement - M *ᵥ p.proxyOn M s)) = 0 := by
    rw [mulVec_sub, mulVec_mulVec, h.columns, one_mulVec, ← coords_proxy]
    refine Finset.sum_eq_zero fun l _ => ?_
    -- one factor vanishes off the support, the other one on it
    rw [Pi.star_apply, Pi.sub_apply, proxyOn_apply hs]
    split
    · rw [sub_self, mul_zero]
    · rw [star_zero, zero_mul]
  rw [← energy_add_mulVec h.columns horth, sub_add_cancel]

end Orthonormal

/-! ## The leading support -/

/-- The largest entries of the proxy. -/
noncomputable def leading (p : Problem T)
    (M : Matrix (Fin p.operator.rows) (Fin p.operator.cols) T) : Array ℕ :=
  Support.largest (p.proxy M) p.sparsity

lemma leading_ascending : Support.Ascending p.operator.cols (p.leading M) := by
  have hasc := Support.largest_ascending (p.proxy M) p.sparsity
  rwa [size_proxy] at hasc

lemma size_leading (hk : p.sparsity ≤ p.operator.cols) : (p.leading M).size = p.sparsity := by
  rw [leading, Support.size_largest, size_proxy, min_eq_left hk]

/-- All columns lead if all are wanted. -/
lemma leading_eq_range (hall : p.sparsity = p.operator.cols) :
    p.leading M = Array.range p.operator.cols := by
  refine leading_ascending.eq_of_subset (Support.Ascending.range _) ?_ fun l hl => ?_
  · rw [size_leading hall.le, Array.size_range, hall]
  · exact Array.mem_range.2 (leading_ascending.lt l hl)

/-- A step of length one leads back to the proxy. -/
lemma take_eq_hardThreshold (s : Array ℕ) :
    GradientStep.take (p.estimateOn M s).x (p.rest M s) (1 : ℝ) p.sparsity
      = Signal.hardThreshold (p.proxy M) p.sparsity := by
  have hx : (p.estimateOn M s).x.size = p.operator.cols :=
    (Signal.size_restrict _ s).trans size_proxy
  unfold GradientStep.take
  rw [Signal.zipWith_eq_ofFn _ _ _ hx size_rest, rest, Signal.coords_ofFn]
  refine congrArg (Signal.hardThreshold · p.sparsity) ?_
  refine (congrArg Array.ofFn (funext fun l => ?_)).trans (Signal.ofFn_coords _ size_proxy)
  show p.proxyOn M s l
    + (Signal.coords p.operator.cols (p.proxy M) l - p.proxyOn M s l) * Scalar.ofReal (1 : ℝ) = _
  rw [EuclideanScalar.ofReal_one, mul_one, add_sub_cancel]

/-- The support that a step is fitted to is the leading one. -/
lemma fittedSupport_rest (hpos : 0 < p.sparsity) (hk : p.sparsity ≤ p.operator.cols)
    (hs : s = #[] ∨ s = p.leading M) :
    GradientStep.fittedSupport s (p.rest M s) p.sparsity = p.leading M := by
  unfold GradientStep.fittedSupport
  rcases hs with rfl | rfl
  · rw [if_pos Array.isEmpty_empty, rest_empty]
    rfl
  · rw [if_neg]
    rw [Array.isEmpty_iff_size_eq_zero, size_leading hk]
    omega

namespace Orthonormal

variable (h : p.Orthonormal M)
include h

/-- From the start or from the estimate on the leading support, a gradient step leads to the
proxy. -/
lemma gradientStep_eq (hpos : 0 < p.sparsity) (hk : p.sparsity ≤ p.operator.cols)
    (hs : s = #[] ∨ s = p.leading M) :
    p.gradientStep .normalized (p.estimateOn M s)
      = .ok (Signal.hardThreshold (p.proxy M) p.sparsity) := by
  have hx : (p.estimateOn M s).x.size = p.operator.cols :=
    (Signal.size_restrict _ s).trans size_proxy
  have hkeeps : (Signal.hardThreshold (p.proxy M) p.sparsity).indices = p.leading M := rfl
  unfold gradientStep
  rw [h.applyAdjoint_residual, Except.ok_bind]
  show (GradientStep.normalized p.operator (p.estimateOn M s).x s (p.rest M s) p.sparsity >>=
    fun t => pure t.next) = _
  unfold GradientStep.normalized
  dsimp only
  rw [fittedSupport_rest hpos hk hs, hx, GradientStep.fittedStep_eq_one h.images h.columns
    size_rest leading_ascending.valid, Except.ok_bind, take_eq_hardThreshold]
  -- the step keeps the support, so it is accepted as it is
  unfold GradientStep.maxHalvings GradientStep.backtrack
  rw [if_pos hkeeps]
  rfl

/-- Merging columns keeps the leading support. -/
lemma expand_eq (hk : p.sparsity ≤ p.operator.cols) (hs : s = #[] ∨ s = p.leading M) {count : ℕ}
    (hcount : p.sparsity ≤ count) :
    ∃ merged, p.expand count (p.estimateOn M s) = .ok merged ∧
      Support.Ascending p.operator.cols merged ∧ ∀ l ∈ p.leading M, l ∈ merged := by
  have hasc : Support.Ascending p.operator.cols s := by
    rcases hs with rfl | rfl
    · exact .empty _
    · exact leading_ascending
  have hexpand : p.expand count (p.estimateOn M s) = .ok (Support.merge s
      (Support.largestExcluding (p.rest M s) (min count (p.operator.cols - s.size)) s)) := by
    unfold expand
    rw [h.applyAdjoint_residual, Except.ok_bind]
    exact if_neg (not_lt.2 hasc.size_le)
  refine ⟨_, hexpand, (expand_ascending hasc hexpand).1, fun l hl => Support.mem_merge.2 ?_⟩
  -- from the empty support the leading columns are merged in, afterwards they are there
  rcases hs with rfl | rfl
  · right
    rw [rest_empty]
    refine Support.mem_largestExcluding_empty (le_min hcount ?_) hl
    rwa [Array.size_empty, Nat.sub_zero]
  · exact .inl hl

end Orthonormal

end Problem

/-! ## Rounds -/

/-- The methods with normalized steps. -/
def Algorithm.normalizedMethod : Algorithm → Method ℝ
  | .iht => .iht .normalized
  | .htp => .htp .normalized
  | .cosamp => .cosamp
  | .subspacePursuit => .subspacePursuit

omit [EuclideanScalar T] in
lemma Algorithm.method_eq_normalizedMethod (alg : Algorithm) (a : Operator T) {o : Options ℝ}
    (ho : o.step = .normalized) : alg.method a o = .ok alg.normalizedMethod := by
  have hresolve : GradientStep.resolve a o = .ok .normalized := by
    unfold GradientStep.resolve
    rw [ho]
    rfl
  unfold method
  rw [hresolve]
  cases alg <;> rfl

namespace Problem

variable {p : Problem T} {M : Matrix (Fin p.operator.rows) (Fin p.operator.cols) T}
  {s : Array ℕ}

namespace Orthonormal

variable (h : p.Orthonormal M)
include h

/-- From the start or from the estimate on the leading support, a round of any algorithm ends at
the estimate on the leading support. -/
theorem round_returns (alg : Algorithm) (hpos : 0 < p.sparsity)
    (hk : p.sparsity ≤ p.operator.cols) (hs : s = #[] ∨ s = p.leading M) (i : ℕ) :
    ∃ j, (p.round alg.normalizedMethod (p.estimateOn M s)).Returns i
      (p.estimateOn M (p.leading M)) j := by
  have hleading : Support.Ascending p.operator.cols (p.leading M) := leading_ascending
  have hstep := h.gradientStep_eq hpos hk hs
  have hestimate := h.estimate_restrict (p.leading M)
  have hembed := embed_proxy (M := M) hleading.valid
  -- pruning any merged support selects the leading entries
  have hprune {merged : Array ℕ} (hm : Support.Ascending p.operator.cols merged)
      (hsub : ∀ l ∈ p.leading M, l ∈ merged) :
      choose merged (Support.largest ((p.proxy M).valuesAt merged) p.sparsity)
        = .ok (p.leading M) :=
    choose_largest_valuesAt (by rwa [size_proxy]) hsub
  cases alg with
  | iht => exact ⟨i, Solving.returns_ofExcept.2 ⟨ihtRound_eq_ok.2 ⟨_, hstep, hestimate⟩, rfl⟩⟩
  | htp =>
    obtain ⟨j, hfit⟩ := h.fit_returns hleading.valid i
    exact ⟨j, htpRound_returns.2 ⟨_, _, _, hstep, hfit, hembed, hestimate⟩⟩
  | cosamp =>
    obtain ⟨merged, hmerged, hm, hsub⟩ :=
      h.expand_eq hk hs (show p.sparsity ≤ 2 * p.sparsity by omega)
    obtain ⟨j, hfit⟩ := h.fit_returns hm.valid i
    have hplaces := Support.largest_ascending ((p.proxy M).valuesAt merged) p.sparsity
    rw [Signal.size_valuesAt] at hplaces
    refine ⟨j, cosampRound_returns.2 ⟨merged, _, hmerged, hfit, prune_eq_ok.2 ?_⟩⟩
    exact ⟨_, _, _, hprune hm hsub, gather_valuesAt hplaces (hprune hm hsub), hembed, hestimate⟩
  | subspacePursuit =>
    obtain ⟨merged, hmerged, hm, hsub⟩ := h.expand_eq hk hs le_rfl
    obtain ⟨l, hfit⟩ := h.fit_returns hm.valid i
    by_cases hall : (Support.largest ((p.proxy M).valuesAt merged) p.sparsity).size
        = merged.size
    · -- only the leading columns have been merged
      have hsize : merged.size ≤ (p.leading M).size := by
        rw [← hall, size_leading hk, Support.size_largest]
        exact min_le_left _ _
      obtain rfl := hleading.eq_of_subset hm hsize hsub
      refine ⟨l, subspacePursuitRound_returns.2 ⟨_, _, _, _, hmerged, ?_, hembed, hestimate⟩⟩
      exact refit_returns.2 ⟨_, l, hfit, .inl ⟨hall, rfl, rfl, rfl⟩⟩
    · obtain ⟨j, hrefit⟩ := h.fit_returns hleading.valid l
      refine ⟨j, subspacePursuitRound_returns.2 ⟨_, _, _, _, hmerged, ?_, hembed, hestimate⟩⟩
      exact refit_returns.2 ⟨_, l, hfit, .inr ⟨hall, hprune hm hsub, hrefit⟩⟩

end Orthonormal

end Problem
end CompressedSensing
