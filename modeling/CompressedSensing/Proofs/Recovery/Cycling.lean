import Mathlib
import CompressedSensing.Proofs.Recovery.Descent
import CompressedSensing.Proofs.Recovery.Prefix
import CompressedSensing.Proofs.Recovery.Representation
import CompressedSensing.Proofs.Recovery.Supports
import CompressedSensing.Proofs.Scalar.Rationals
import CompressedSensing.Proofs.Support.Ranking
/-!
# Runs do not cycle

A pure backend makes the outcome of a fit a function of the columns that are fitted. The estimate
after a round of hard thresholding pursuit or of subspace pursuit is the fit on its own support,
also where subspace pursuit keeps all merged columns and does not fit again; the estimate after a
round of compressive sampling matching pursuit is determined by the merged columns. Over exact
ordered numbers every iteration but the last lowers the residual norm strictly, so no support, or
no merged set of columns, comes back before the last iteration. There are only `n choose k`
supports of `k` entries, which bounds the number of iterations whatever the iteration cap is.
-/

namespace CompressedSensing

variable {T R : Type} [RealLike R] [Scalar T R]

namespace Support

/-- There are `n choose k` ascending supports of `k` entries. -/
lemma le_choose {n k u : ℕ} {S : ℕ → Array ℕ}
    (hS : ∀ s < u, Ascending n (S s) ∧ (S s).size = k)
    (hne : ∀ s s', s < s' → s' < u → S s ≠ S s') : u ≤ n.choose k := by
  have hmaps : ∀ s ∈ Finset.range u,
      (S s).toList.toFinset ∈ (Finset.range n).powersetCard k := by
    intro s hs
    obtain ⟨hasc, hsize⟩ := hS s (Finset.mem_range.1 hs)
    rw [Finset.mem_powersetCard]
    refine ⟨fun c hc => ?_, ?_⟩
    · rw [List.mem_toFinset, Array.mem_toList_iff] at hc
      exact Finset.mem_range.2 (hasc.lt c hc)
    · rw [List.toFinset_card_of_nodup hasc.nodup, Array.length_toList, hsize]
  have hinj : Set.InjOn (fun s => (S s).toList.toFinset) (Finset.range u) := by
    intro s hs s' hs' heq
    rw [Finset.coe_range, Set.mem_Iio] at hs hs'
    -- an ascending support is known from its entries
    have hsub : ∀ c ∈ S s, c ∈ S s' := by
      intro c hc
      have hmem : c ∈ (S s).toList.toFinset := by simpa using hc
      rw [show (S s).toList.toFinset = (S s').toList.toFinset from heq] at hmem
      simpa using hmem
    have hsize : (S s').size ≤ (S s).size := by rw [(hS s hs).2, (hS s' hs').2]
    have hsame : S s = S s' := (hS s hs).1.eq_of_subset (hS s' hs').1 hsize hsub
    rcases lt_trichotomy s s' with hlt | rfl | hlt
    · exact absurd hsame (hne s s' hlt hs')
    · rfl
    · exact absurd hsame.symm (hne s' s hlt hs)
  have hcard := Finset.card_le_card_of_injOn _ hmaps hinj
  rwa [Finset.card_range, Finset.card_powersetCard, Finset.card_range] at hcard

end Support

namespace Problem

variable {p : Problem T} {e e₀ e₁ e₀' e₁' : Estimate T} {i j i' j' : ℕ}

/-! ## Estimates that are fits -/

/-- The signal of an estimate is the embedded fit on its own support, and the residual is that of
the signal. -/
def Fitted (p : Problem T) (e : Estimate T) : Prop :=
  ∃ i z j, (p.fit e.support).Returns i z j ∧ Signal.embed p.operator.cols e.support z = .ok e.x ∧
    p.operator.residual p.measurement e.x = .ok e.residual

omit [RealLike R] in
/-- A fitted estimate is known from its support. -/
lemma Fitted.eq (hs : p.backend.Pure) (h : p.Fitted e₀) (h' : p.Fitted e₁)
    (hsupport : e₀.support = e₁.support) : e₀ = e₁ := by
  obtain ⟨i, z, j, hz, hx, hr⟩ := h
  obtain ⟨i', z', j', hz', hx', hr'⟩ := h'
  rw [← hsupport] at hz' hx'
  obtain rfl : z = z' := (p.fit_ignoresCount hs e₀.support).eq_of_returns hz hz'
  have hxx' : e₀.x = e₁.x := by
    rw [hx] at hx'
    exact Except.ok.inj hx'
  have hrr' : e₀.residual = e₁.residual := by
    rw [← hxx', hr] at hr'
    exact Except.ok.inj hr'
  cases e₀
  cases e₁
  simp_all

omit [RealLike R] in
/-- An estimate made of a fit on its own support is fitted. -/
lemma fitted_of_estimate {s : Array ℕ} {z x : Signal T} (hz : (p.fit s).Returns i z j)
    (hx : Signal.embed p.operator.cols s z = .ok x) (h : p.estimate x s = .ok e) :
    p.Fitted e := by
  obtain ⟨rfl, rfl, hr⟩ := estimate_eq_ok.1 h
  exact ⟨i, z, j, hz, hx, hr⟩

/-- A round of HTP ends at a fitted estimate. -/
lemma htpRound_fitted {rule : StepRule R} (h : (p.htpRound rule e).Returns i e' j) :
    p.Fitted e' := by
  obtain ⟨t, z, x, -, hz, hx, he⟩ := htpRound_returns.1 h
  exact fitted_of_estimate hz hx he

/-- A round of subspace pursuit ends at a fitted estimate. -/
lemma subspacePursuitRound_fitted (h : (p.subspacePursuitRound e).Returns i e' j) :
    p.Fitted e' := by
  obtain ⟨merged, s, z, x, -, hrefit, hx, he⟩ := subspacePursuitRound_returns.1 h
  obtain ⟨y, l, hy, ⟨-, rfl, rfl, -⟩ | ⟨-, -, hz⟩⟩ := refit_returns.1 hrefit
  · -- all merged columns are kept, and the first fit is the fit on them
    exact fitted_of_estimate hy hx he
  · exact fitted_of_estimate hz hx he

/-- The round that prunes is known from the merged columns. -/
lemma cosampRound_eq (hs : p.backend.Pure) {merged : Array ℕ}
    (h₀ : p.expand (2 * p.sparsity) e₀ = .ok merged)
    (h₁ : p.expand (2 * p.sparsity) e₁ = .ok merged)
    (h : (p.cosampRound e₀).Returns i e₀' j) (h' : (p.cosampRound e₁).Returns i' e₁' j') :
    e₀' = e₁' := by
  obtain ⟨w, z, hw, hz, he⟩ := cosampRound_returns.1 h
  obtain ⟨w', z', hw', hz', he'⟩ := cosampRound_returns.1 h'
  rw [h₀] at hw
  rw [h₁] at hw'
  cases hw
  cases hw'
  obtain rfl : z = z' := (p.fit_ignoresCount hs merged).eq_of_returns hz hz'
  rw [he] at he'
  exact Except.ok.inj he'

/-! ## Exact runs -/

section Exact

variable [ExactOrder R] {m : Method R} {c : Convergence R} {u : ℕ} {e : ℕ → Estimate T}
  {q : ℕ → ℕ}

/-- Every round but the last lowers the norm. -/
lemma Run.norm_lt (h : p.Run m c i u e q) (hthreshold : RealLike.le 0 c.stagnation = true) {s : ℕ}
    (hs : s < u) : RealLike.lt (residualNormAt e (s + 1) : R) (residualNormAt e s) = true := by
  by_contra hnot
  have hstagnation : (m.reasonsAt c e s).stagnation = true :=
    Method.stagnation_reasonsAt hthreshold (ExactOrder.isNaN_eq_false _)
      (ExactOrder.isNaN_eq_false _) (eq_false_of_ne_true hnot)
  have := h.eq_of_stagnation hs.le hstagnation
  omega

/-- Along a run whose threshold is not negative, the residual norms before the end fall strictly.
-/
lemma Run.norm_lt_of_lt (h : p.Run m c i u e q) (hthreshold : RealLike.le 0 c.stagnation = true)
    {s s' : ℕ} (hss' : s < s') (hs' : s' ≤ u) :
    RealLike.lt (residualNormAt e s' : R) (residualNormAt e s) = true := by
  induction s' with
  | zero => omega
  | succ s' ih =>
    have hlast := h.norm_lt hthreshold (show s' < u by omega)
    rcases Nat.lt_succ_iff_lt_or_eq.1 hss' with hlt | rfl
    · have hearlier := ih hlt (by omega)
      exact OrderLaws.lt_of_lt_of_le hlast ((OrderLaws.lt_iff _ _).1 hearlier).1
    · exact hlast

/-- No estimate comes back before the run ends. -/
lemma Run.estimate_ne (h : p.Run m c i u e q) (hthreshold : RealLike.le 0 c.stagnation = true)
    {s s' : ℕ} (hss' : s < s') (hs' : s' ≤ u) : e s ≠ e s' := by
  intro heq
  have hlt : RealLike.lt (residualNormAt e s' : R) (residualNormAt e s) = true :=
    h.norm_lt_of_lt hthreshold hss' hs'
  unfold residualNormAt at hlt
  rw [heq, OrderLaws.not_lt_self] at hlt
  cases hlt

/-- No support comes back before the run ends, if every estimate is the fit on its support. -/
lemma Run.support_ne (h : p.Run m c i u e q) (hthreshold : RealLike.le 0 c.stagnation = true)
    (hs : p.backend.Pure) (hfitted : ∀ s ≤ u, p.Fitted (e (s + 1))) {s s' : ℕ} (hss' : s < s')
    (hs' : s' < u) : (e (s + 1)).support ≠ (e (s' + 1)).support := by
  intro heq
  refine h.estimate_ne hthreshold (Nat.succ_lt_succ hss') hs' ?_
  exact (hfitted s (by omega)).eq hs (hfitted s' (by omega)) heq

/-- If every estimate is the fit on its support, the supports are few and the run is short. -/
lemma Run.le_choose (h : p.Run m c i u e q) (hthreshold : RealLike.le 0 c.stagnation = true)
    (hs : p.backend.Pure) (hfitted : ∀ s ≤ u, p.Fitted (e (s + 1)))
    (hsupport : ∀ s < u, Support.Ascending p.operator.cols (e (s + 1)).support ∧
      (e (s + 1)).support.size = p.sparsity) :
    u ≤ p.operator.cols.choose p.sparsity :=
  Support.le_choose hsupport fun _ _ => h.support_ne hthreshold hs hfitted

/-- No merged set of columns comes back before the run ends. -/
lemma Run.merged_ne (h : p.Run .cosamp c i u e q) (hthreshold : RealLike.le 0 c.stagnation = true)
    (hs : p.backend.Pure) {s s' : ℕ} (hss' : s < s') (hs' : s' < u) {merged : Array ℕ}
    (hmerged : p.expand (2 * p.sparsity) (e s) = .ok merged) :
    p.expand (2 * p.sparsity) (e s') ≠ .ok merged := by
  intro hmerged'
  refine h.estimate_ne hthreshold (Nat.succ_lt_succ hss') hs' ?_
  exact cosampRound_eq hs hmerged hmerged' (h.step s (by omega)) (h.step s' (by omega))

end Exact

section Supports

variable {m : Method R} {c : Convergence R} {alg : Algorithm} {o : Options R} {u s : ℕ}
  {e : ℕ → Estimate T} {q : ℕ → ℕ}

/-- The estimates of both algorithms that fit on what they keep are fits on their supports. -/
lemma Trajectory.fitted {t : ℕ} (h : p.Trajectory m i t e q) (hm : alg.method p.operator o = .ok m)
    (halg : alg = .htp ∨ alg = .subspacePursuit) (hs : s < t) : p.Fitted (e (s + 1)) := by
  have hround := h.step s hs
  rcases halg with rfl | rfl
  · obtain ⟨rule, -, hrule⟩ := Except.bind_eq_ok.1 hm
    cases hrule
    exact htpRound_fitted hround
  · cases hm
    exact subspacePursuitRound_fitted hround

/-- From the first round on the supports have `k` entries. Only subspace pursuit needs to know how
many coefficients the backend answers with. -/
lemma Trajectory.support_ascending {t : ℕ} (h : p.Trajectory m i t e q)
    (hm : alg.method p.operator o = .ok m) (halg : alg = .htp ∨ alg = .subspacePursuit)
    (hfits : alg = .subspacePursuit → p.backend.Fits)
    (hb : p.measurement.size = p.operator.rows) (hk : p.sparsity ≤ p.operator.cols) (hs : s < t) :
    Support.Ascending p.operator.cols (e (s + 1)).support ∧
      (e (s + 1)).support.size = p.sparsity := by
  rcases halg with rfl | rfl
  · obtain ⟨rule, -, hrule⟩ := Except.bind_eq_ok.1 hm
    cases hrule
    have hsupp := htpRound_supportedOn hk (h.sizes hb hs.le).1 (h.step s hs)
    exact ⟨hsupp.1.ascending, hsupp.2⟩
  · have hsupp := h.supportedOn (hfits rfl) hk (Nat.succ_le_of_lt hs)
    exact ⟨hsupp.1.ascending, hsupp.2 s.succ_pos⟩

/-- The sets that the rounds of the pruning algorithm merge and fit on. -/
lemma Trajectory.exists_merged {t : ℕ} {e : ℕ → Estimate T} {q : ℕ → ℕ}
    (h : p.Trajectory (.cosamp : Method R) i t e q) :
    ∃ merged : ℕ → Array ℕ, ∀ s < t, p.expand (2 * p.sparsity) (e s) = .ok (merged s) ∧
      ∃ z l, (p.fit (merged s)).Returns (q s) z l := by
  have hround : ∀ s, ∃ w, s < t → p.expand (2 * p.sparsity) (e s) = .ok w ∧
      ∃ z l, (p.fit w).Returns (q s) z l := by
    intro s
    by_cases hs : s < t
    · obtain ⟨w, z, hw, hz, -⟩ := cosampRound_returns.1 (h.step s hs)
      exact ⟨w, fun _ => ⟨hw, z, _, hz⟩⟩
    · exact ⟨#[], fun h => absurd h hs⟩
  choose merged hmerged using hround
  exact ⟨merged, hmerged⟩

end Supports

/-- Over exact ordered numbers and with a pure backend a run does not cycle. Both algorithms that
fit on what they keep accept fits on supports that do not come back before the last iteration, so
their iterations are bounded by the number of supports; the algorithm that prunes does not come
back to a merged set of columns. -/
theorem recover_never_cycles [DecimalText R] [ExactOrder R] {alg : Algorithm} {o : Options R}
    {r : Recovered T R} (hpure : p.backend.Pure)
    (hb : RealLike.isZero (Signal.norm p.measurement : R) = false) (hk : 0 < p.sparsity)
    (hn : p.sparsity < p.operator.cols) (h : (p.recover alg o).Returns i r j) :
    ∃ (m : Method R) (e : ℕ → Estimate T) (q : ℕ → ℕ),
      alg.method p.operator o = .ok m ∧ p.Trajectory m i r.iterations e q ∧
      (alg = .htp ∨ alg = .subspacePursuit →
        (∀ s < r.iterations, p.Fitted (e (s + 1))) ∧
        (∀ s s', 1 ≤ s → s < s' → s' < r.iterations → (e s).support ≠ (e s').support) ∧
        ((alg = .subspacePursuit → p.backend.Fits) →
          r.iterations ≤ p.operator.cols.choose p.sparsity + 1)) ∧
      (alg = .cosamp → ∃ merged : ℕ → Array ℕ,
        (∀ s < r.iterations, p.expand (2 * p.sparsity) (e s) = .ok (merged s) ∧
          ∃ z l, (p.fit (merged s)).Returns (q s) z l) ∧
        ∀ s s', s < s' → s' + 1 < r.iterations → merged s ≠ merged s') := by
  rcases recover_returns_run hb hk hn h with ⟨hcheck, m, u, e, q, hm, hrun, -, -, rfl⟩
  obtain ⟨hvalid, hrows, -, -⟩ := check_eq_ok.1 hcheck
  have hthreshold := Options.zero_le_stagnation hvalid
  simp only [Record.finish, size_norms_recordAt]
  refine ⟨m, e, q, hm, hrun.toTrajectory, fun halg => ?_, ?_⟩
  · have hfitted : ∀ s ≤ u, p.Fitted (e (s + 1)) :=
      fun s hs => hrun.toTrajectory.fitted hm halg (Nat.lt_succ_of_le hs)
    refine ⟨fun s hs => hfitted s (Nat.le_of_lt_succ hs), fun s s' hs hss' hs' => ?_, ?_⟩
    · -- iteration `s` is round `s - 1`
      have hne := hrun.support_ne hthreshold hpure hfitted (show s - 1 < s' - 1 by omega) (by omega)
      rwa [Nat.sub_add_cancel hs, Nat.sub_add_cancel (by omega)] at hne
    · -- the last iteration may come back to a support, hence one more than there are supports
      intro hfits
      refine Nat.succ_le_succ (hrun.le_choose hthreshold hpure hfitted fun s hs => ?_)
      exact hrun.toTrajectory.support_ascending hm halg hfits hrows hn.le (by omega)
  · rintro rfl
    cases hm
    obtain ⟨merged, hmerged⟩ := hrun.toTrajectory.exists_merged
    refine ⟨merged, hmerged, fun s s' hss' hs' heq => ?_⟩
    have hfirst := (hmerged s (by omega)).1
    rw [heq] at hfirst
    exact hrun.merged_ne hthreshold hpure hss' (by omega) hfirst (hmerged s' (by omega)).1

open Rationals

/-- Two coordinates, of which the one that is seen twice as large is measured as the smaller one. -/
def unequalPair : Problem ℚ where
  operator := Diagonal.toOperator ⟨#[2, 1]⟩
  measurement := #[3, 4]
  sparsity := 1
  backend := .columnwise

/-- In hard thresholding pursuit a gradient step turns to the coordinate that is left, until the
norm grows. From the second round on subspace pursuit merges both columns and keeps the second
one. -/
lemma recover_unequalPair :
    (unequalPair.recover .htp (Options.fixedStep 1)).Returns 0
      { x := #[0, 4], support := #[1], iterations := 3, residualNorms := #[4, 3, 4],
        residualNorm := 3, converged := true, reason := { stagnation := true } } 3 ∧
    (unequalPair.recover .subspacePursuit (Options.fixedStep 1)).Returns 0
      { x := #[0, 4], support := #[1], iterations := 3, residualNorms := #[4, 3, 3],
        residualNorm := 3, converged := true, reason := { stagnation := true } } 5 := by
  unfold Solving.Returns
  constructor
  · cbv
  · cbv

/-- Three iterations of either algorithm that fits on what it keeps, which are as many as the number
of supports allows. -/
theorem recover_never_cycles_unequalPair :
    (∃ r e q, (unequalPair.recover .htp (Options.fixedStep 1)).Returns 0 r 3 ∧
      r.iterations = 3 ∧ unequalPair.Trajectory (.htp (.constant (1 : ℚ))) 0 3 e q ∧
      (∀ s < 3, unequalPair.Fitted (e (s + 1))) ∧ (e 1).support ≠ (e 2).support ∧
      r.iterations ≤ Nat.choose 2 1 + 1) ∧
    ∃ r e q, (unequalPair.recover .subspacePursuit (Options.fixedStep 1)).Returns 0 r 5 ∧
      r.iterations = 3 ∧ unequalPair.Trajectory (.subspacePursuit : Method ℚ) 0 3 e q ∧
      (∀ s < 3, unequalPair.Fitted (e (s + 1))) ∧ (e 1).support ≠ (e 2).support ∧
      r.iterations ≤ Nat.choose 2 1 + 1 := by
  have hpure : unequalPair.backend.Pure := Backend.ofSolver_pure _ _
  have hb : RealLike.isZero (Signal.norm unequalPair.measurement) = false := by cbv
  obtain ⟨hhtp, hsp⟩ := recover_unequalPair
  constructor
  · obtain ⟨m, e, q, hm, htraj, hfitting, -⟩ :=
      recover_never_cycles hpure hb one_pos one_lt_two hhtp
    cases hm
    obtain ⟨hfitted, hne, hbound⟩ := hfitting (.inl rfl)
    exact ⟨_, e, q, hhtp, rfl, htraj, hfitted, hne 1 2 le_rfl one_lt_two (by decide),
      hbound fun h => absurd h (by decide)⟩
  · obtain ⟨m, e, q, hm, htraj, hfitting, -⟩ :=
      recover_never_cycles hpure hb one_pos one_lt_two hsp
    cases hm
    obtain ⟨hfitted, hne, hbound⟩ := hfitting (.inr rfl)
    exact ⟨_, e, q, hsp, rfl, htraj, hfitted, hne 1 2 le_rfl one_lt_two (by decide),
      hbound fun _ => Backend.columnwise_fits⟩

end Problem
end CompressedSensing
