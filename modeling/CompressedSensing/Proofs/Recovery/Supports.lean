import Mathlib
import CompressedSensing.Proofs.Recovery.Trajectory
/-!
# The supports of a run

From the first round on every estimate of a run has a support of exactly `k` entries. The answer
is one of these estimates, or the zero signal with the empty support, or a solution on all
columns. Scalars obey no law here, so scores and coefficients may be NaN; all that is asked of
the backend is one coefficient per column.
-/

namespace CompressedSensing

variable {T R : Type} [RealLike R] [Scalar T R]

/-- The number of columns that an algorithm merges into the support in a round, if it does. -/
def Algorithm.mergeCount (k : ℕ) : Algorithm → Option ℕ
  | .cosamp => some (2 * k)
  | .subspacePursuit => some k
  | _ => none

namespace Problem

variable {p : Problem T} {alg : Algorithm} {o : Options R} {m : Method R} {i j t : ℕ}
  {e : ℕ → Estimate T} {q : ℕ → ℕ} {r : Recovered T R}

/-- Estimates are supported on ascending supports, all but the first on exactly `k` entries. -/
lemma Trajectory.supportedOn (h : p.Trajectory m i t e q) (hb : p.backend.Fits)
    (hk : p.sparsity ≤ p.operator.cols) {s : ℕ} (hs : s ≤ t) :
    (e s).x.SupportedOn p.operator.cols (e s).support ∧
      (0 < s → (e s).support.size = p.sparsity) := by
  induction s with
  | zero =>
    rw [h.start]
    exact ⟨Signal.zeros_supportedOn _, fun h => absurd h (lt_irrefl 0)⟩
  | succ s ih =>
    rcases round_supportedOn hb hk (ih (by omega)).1 (h.step s (by omega)) with ⟨hsupp, hsize⟩
    exact ⟨hsupp, fun _ => hsize⟩

/-- A round of an algorithm that merges fits on the merged support first. -/
lemma round_fits_merged (hm : alg.method p.operator o = .ok m) {count : ℕ}
    (hcount : alg.mergeCount p.sparsity = some count) {e₀ e₁ : Estimate T}
    (h : (p.round m e₀).Returns i e₁ j) :
    ∃ merged z l, p.expand count e₀ = .ok merged ∧ (p.fit merged).Returns i z l := by
  cases alg with
  | iht => cases hcount
  | htp => cases hcount
  | cosamp =>
    cases hm
    cases hcount
    rcases cosampRound_returns.1 h with ⟨merged, z, hmerged, hz, -⟩
    exact ⟨merged, z, j, hmerged, hz⟩
  | subspacePursuit =>
    cases hm
    cases hcount
    rcases subspacePursuitRound_returns.1 h with ⟨merged, s, z, x, hmerged, hrefit, -⟩
    rcases refit_returns.1 hrefit with ⟨y, l, hy, -⟩
    exact ⟨merged, y, l, hmerged, hy⟩

/-- The solution on all columns is supported on all of them. -/
lemma solveAll_supportedOn (hb : p.backend.Fits) (h : p.solveAll.Returns i r j) :
    r.x.SupportedOn p.operator.cols r.support ∧ r.support.size = p.operator.cols := by
  rcases solveAll_returns.1 h with ⟨x, y, hx, -, rfl⟩
  -- every index below `n` is in the support, so nothing is left to vanish
  have hsize := size_of_fit hb hx
  rw [Array.size_range] at hsize
  refine ⟨⟨hsize, Support.Ascending.range _, fun c hc hout => ?_⟩, Array.size_range⟩
  exact absurd (Array.mem_range.2 (hsize ▸ hc)) hout

/-- Every branch of a recovery answers with a signal on an ascending support, which is empty or of
exactly `k` entries. -/
lemma answer_supportedOn [DecimalText R] (hb : p.backend.Fits)
    (h : (p.recover alg o).Returns i r j) :
    r.x.SupportedOn p.operator.cols r.support ∧
      (r.support = #[] ∧ r.x = Signal.zeros p.operator.cols ∨ r.support.size = p.sparsity) := by
  rcases recover_returns.1 h with ⟨hcheck, h⟩
  rcases check_eq_ok.1 hcheck with ⟨hvalid, -, hk, -⟩
  have hdirect (norm : R) (converged : Bool)
      (hr : r = .direct (Signal.zeros p.operator.cols) #[] norm converged) :
      r.x.SupportedOn p.operator.cols r.support ∧
        (r.support = #[] ∧ r.x = Signal.zeros p.operator.cols ∨ r.support.size = p.sparsity) := by
    rw [hr]
    exact ⟨Signal.zeros_supportedOn _, .inl ⟨rfl, rfl⟩⟩
  split_ifs at h with hz hzero hall
  · exact hdirect _ _ h.1
  · exact hdirect _ _ h.1
  · rcases solveAll_supportedOn hb h with ⟨hsupp, hsize⟩
    exact ⟨hsupp, .inr (hsize.trans hall.symm)⟩
  · obtain ⟨m, u, e, q, hm, hrun, -, -, rfl⟩ :=
      pursue_returns (Options.maxIterations_pos hvalid) h
    rcases recordAt_best (R := R) hrun.start (u + 1) with ⟨hx, hs, -⟩
    have hle := bestIndex_le (residualNormAt (R := R) e) (u + 1)
    rcases hrun.toTrajectory.supportedOn hb hk hle with ⟨hsupp, hsize⟩
    unfold Record.finish
    dsimp only
    rw [hx, hs]
    refine ⟨hsupp, ?_⟩
    -- the best round is the start, or one with a support of `k` entries
    rcases Nat.eq_zero_or_pos (bestIndex (residualNormAt (R := R) e) (u + 1)) with hz | hpos
    · left
      rw [hz, hrun.start]
      exact ⟨rfl, rfl⟩
    · exact .inr (hsize hpos)

/-- An answer is a signal on an ascending support, which is empty, or of exactly `k` entries; if
the recovery iterates, its iterations are a trajectory. Along any trajectory each round makes a
support of exactly `k` entries. Where columns are merged, those that are fitted have grown out of
the support before the round by the number merged, as far as there are any left; this includes
the round after the last that succeeds. -/
theorem recover_supportedOn [DecimalText R] (p : Problem T) (hb : p.backend.Fits)
    (alg : Algorithm) (o : Options R) :
    (∀ (i j : ℕ) (r : Recovered T R), (p.recover alg o).Returns i r j →
      r.x.SupportedOn p.operator.cols r.support ∧
        (r.support = #[] ∧ r.x = Signal.zeros p.operator.cols ∨
          r.support.size = p.sparsity) ∧
        (RealLike.isZero (Signal.norm p.measurement : R) = false → 0 < p.sparsity →
          p.sparsity < p.operator.cols → ∃ (m : Method R) (e : ℕ → Estimate T) (q : ℕ → ℕ),
            alg.method p.operator o = .ok m ∧ p.Trajectory m i r.iterations e q ∧
            q r.iterations = j)) ∧
    (p.sparsity ≤ p.operator.cols → ∀ m : Method R, alg.method p.operator o = .ok m →
      ∀ (i t : ℕ) (e : ℕ → Estimate T) (q : ℕ → ℕ), p.Trajectory m i t e q →
        (∀ s < t, (e (s + 1)).support.size = p.sparsity) ∧
        ∀ count, alg.mergeCount p.sparsity = some count →
          (∀ s < t, ∃ merged z l, p.expand count (e s) = .ok merged ∧
            (p.fit merged).Returns (q s) z l) ∧
          ∀ s ≤ t, ∀ merged, p.expand count (e s) = .ok merged →
            Support.Ascending p.operator.cols merged ∧
              merged.size = min ((e s).support.size + count) p.operator.cols) := by
  constructor
  · intro i j r h
    have hanswer := answer_supportedOn hb h
    refine ⟨hanswer.1, hanswer.2, fun hz hk hn => ?_⟩
    rcases recover_returns_run hz hk hn h with ⟨-, m, u, e, q, hm, hrun, hj, -, rfl⟩
    unfold Record.finish
    dsimp only
    rw [size_norms_recordAt]
    exact ⟨m, e, q, hm, hrun.toTrajectory, hj⟩
  · -- that supports have `k` entries is preserved by a round, from the first one on
    intro hk m hm i t e q htraj
    refine ⟨fun s hs => (htraj.supportedOn hb hk (Nat.succ_le_of_lt hs)).2 s.succ_pos, ?_⟩
    intro count hcount
    refine ⟨fun s hs => round_fits_merged hm hcount (htraj.step s hs), ?_⟩
    intro s hs merged hmerged
    exact expand_ascending (htraj.supportedOn hb hk hs).1.ascending hmerged

lemma expand_pair : pair.expand 2 pair.start = .ok #[0, 1] := by
  cbv

/-- Compressive sampling matching pursuit on two coordinates merges both and keeps one. -/
theorem recover_supportedOn_pair :
    (∃ r, (pair.recover .cosamp (Options.fixedStep 1)).Returns 0 r 2 ∧
      r.x.SupportedOn 2 r.support ∧
        (r.support = #[] ∧ r.x = Signal.zeros 2 ∨ r.support.size = 1)) ∧
    ∃ merged, pair.expand 2 pair.start = .ok merged ∧ Support.Ascending 2 merged ∧
      merged.size = min (0 + 2) 2 := by
  have hrun : (pair.recover .cosamp (Options.fixedStep 1)).Returns 0
      { x := #[.finite 8, .finite 0], support := #[0], iterations := 2,
        residualNorms := #[.finite 6, .finite 6], residualNorm := .finite 6, converged := true,
        reason := { stagnation := true } } 2 := by
    unfold Solving.Returns
    cbv
  obtain ⟨hanswer, hrounds⟩ :=
    recover_supportedOn pair Backend.columnwise_fits .cosamp (Options.fixedStep 1)
  refine ⟨⟨_, hrun, (hanswer _ _ _ hrun).1, (hanswer _ _ _ hrun).2.1⟩, _, expand_pair, ?_⟩
  have htraj : pair.Trajectory (.cosamp : Method Extended) 0 0 (fun _ => pair.start) (fun _ => 0) :=
    ⟨rfl, rfl, fun s hs => absurd hs (Nat.not_lt_zero s)⟩
  exact ((hrounds (by decide) .cosamp rfl 0 0 _ _ htraj).2 2 rfl).2 0 le_rfl _ expand_pair

end Problem
end CompressedSensing
