import Mathlib
import CompressedSensing.Proofs.Operator.Linearity
import CompressedSensing.Proofs.Recovery.Optimality
import CompressedSensing.Proofs.Recovery.Stopping
import CompressedSensing.Proofs.Signal.BestApproximation
/-!
# Exact recovery

Let the measurement be the image of a signal `x` with at most `k` nonzero entries. Once the set that
a round fits first contains the nonzero entries of `x`, and the operator tells the signals on that
set apart, the fit is `x`: nothing else on the set leaves a residual of zero. Pruning the fit to `k`
entries keeps all that are not zero, so it is still `x`, and so is a second fit on what is kept. The
residual of `x` is zero, which is within every tolerance and below every norm before, so the run
ends with `x` as its best estimate.

Only the images `A x` matter here; what the adjoint does decides which sets are fitted, and is left
open.
-/

namespace CompressedSensing

open Matrix Reals
open scoped ExactScalar

namespace Problem

variable {T : Type} [Scalar T ℝ] {p : Problem T} {x : Signal T} {w : Array ℕ} {m : Method ℝ}
  {e e' : Estimate T} {i j : ℕ}

/-- The measurement is the image of the signal, which has at most `k` nonzero entries. -/
structure Explains (p : Problem T) (x : Signal T) : Prop where
  size_eq : x.size = p.operator.cols
  apply_eq : p.operator.apply x = .ok p.measurement
  sparse : ∃ S : Finset ℕ, S.card ≤ p.sparsity ∧ ∀ l ∉ S, x.getD l 0 = 0

/-- The set contains the nonzero entries of the signal, and signals that vanish outside of the set
have different images. -/
structure Captures (p : Problem T) (x : Signal T) (w : Array ℕ) : Prop where
  mem (l : ℕ) : x.getD l 0 ≠ 0 → l ∈ w
  injective (u v y : Signal T) : u.size = p.operator.cols → v.size = p.operator.cols →
    (∀ l ∉ w, u.getD l 0 = 0) → (∀ l ∉ w, v.getD l 0 = 0) →
    p.operator.apply u = .ok y → p.operator.apply v = .ok y → u = v

/-- The set that a round fits first: the support of its gradient step, or the current support with
the columns that are merged into it. -/
inductive FitsFirst (p : Problem T) : Method ℝ → Estimate T → Array ℕ → Prop where
  | htp {rule : StepRule ℝ} {e : Estimate T} {t : Thresholded T} :
    p.gradientStep rule e = .ok t → FitsFirst p (.htp rule) e t.indices
  | cosamp {e : Estimate T} {merged : Array ℕ} :
    p.expand (R := ℝ) (2 * p.sparsity) e = .ok merged → FitsFirst p .cosamp e merged
  | subspacePursuit {e : Estimate T} {merged : Array ℕ} :
    p.expand (R := ℝ) p.sparsity e = .ok merged → FitsFirst p .subspacePursuit e merged

/-! ## Fits -/

/-- Outside of a set that captures it, a signal is zero. -/
lemma Captures.eq_zero (h : p.Captures x w) {l : ℕ} (hl : l ∉ w) : x.getD l 0 = 0 := by
  by_contra hne
  exact hl (h.mem l hne)

/-- No other signal on the set has the same image. -/
lemma Captures.eq_of_embed (h : p.Captures x w) (hx : p.Explains x) {z u : Signal T}
    (hu : Signal.embed p.operator.cols w z = .ok u)
    (himage : p.operator.apply u = .ok p.measurement) : u = x := by
  have husize : u.size = p.operator.cols := Signal.size_embed hu
  refine h.injective u x _ husize hx.size_eq (fun l hl => ?_) (fun l hl => h.eq_zero hl) himage
    hx.apply_eq
  by_cases hlt : l < p.operator.cols
  · exact Signal.coords_embed_of_notMem hu (l := ⟨l, hlt⟩) hl
  · simp [husize, hlt]

/-- Nothing is lost where the values on the set are written back. -/
lemma Captures.embed_valuesAt (h : p.Captures x w) (hx : x.size = p.operator.cols)
    (hw : Support.Valid p.operator.cols w) :
    Signal.embed p.operator.cols w (x.valuesAt w) = .ok x := by
  rw [← hx] at hw ⊢
  rw [Signal.embed_valuesAt hw, Signal.restrict_eq_self hw fun _ hl => h.eq_zero hl]

section

variable [NormedScalar T]

/-- The signal leaves nothing. -/
lemma Explains.exists_estimate (hx : p.Explains x) (s : Array ℕ) :
    ∃ e', p.estimate x s = .ok e' ∧ e'.x = x ∧ (Signal.norm e'.residual : ℝ) = 0 := by
  have hsize : p.measurement.size = p.operator.rows := Operator.size_apply hx.apply_eq
  have hresidual : p.operator.residual p.measurement x
      = .ok (Array.ofFn (0 : Fin p.operator.rows → T)) := by
    rw [Operator.residual_eq_apply, hx.apply_eq, Except.ok_bind,
      Signal.mapIdx_eq_ofFn _ _ hsize]
    congr 2
    funext l
    have hl : l.val < p.measurement.size := by omega
    rw [Array.getElem?_eq_getElem hl, Signal.coords_eq_getElem _ l hl]
    exact sub_self _
  refine ⟨⟨x, s, Array.ofFn 0⟩, estimate_eq_ok.2 ⟨rfl, rfl, hresidual⟩, rfl, ?_⟩
  rw [Signal.norm_eq_sqrt_energy Array.size_ofFn, Signal.coords_ofFn, energy_zero, Real.sqrt_zero]

/-- The fit on a set that captures the signal consists of its values there. -/
lemma Captures.fit_returns (h : p.Captures x w) (ha : p.operator.ActsLinearly)
    (hs : p.backend.LeastSquares) (hx : p.Explains x) (hw : Support.Valid p.operator.cols w)
    (i : ℕ) : ∃ j, (p.fit w).Returns i (x.valuesAt w) j := by
  obtain ⟨M, hM⟩ := ha.exists_mapsBy
  have hsize : p.measurement.size = p.operator.rows := Operator.size_apply hx.apply_eq
  have hmeasurement : p.measurement = Array.ofFn (M *ᵥ Signal.coords p.operator.cols x) :=
    Except.ok.inj (hx.apply_eq.symm.trans (hM x hx.size_eq))
  by_cases hempty : w.isEmpty
  · -- nothing is asked of the backend
    refine ⟨i, Operator.solveOn_returns.2 ⟨hsize, hw, ?_⟩⟩
    rw [if_pos hempty, Array.isEmpty_iff.1 hempty]
    exact ⟨Array.map_empty, rfl⟩
  · obtain ⟨z, hz, hzsize, hle⟩ := hs.exists_energy_le i
      (M * (Support.selection T w p.operator.cols)ᴴ) hsize
    obtain ⟨u, hu, husize⟩ := Signal.embed_ok hw hzsize
    have hself := Signal.selection_mulVec_selection hw (v := Signal.coords p.operator.cols x)
      fun l hl => h.eq_zero hl
    -- the values of the signal leave nothing, so the least-squares solution leaves nothing
    have hleast := hle (Support.selection T w p.operator.cols *ᵥ Signal.coords p.operator.cols x)
    rw [← mulVec_mulVec, ← mulVec_mulVec, hself, ← Signal.coords_embed hw hu, hmeasurement,
      Signal.coords_ofFn, sub_self, energy_zero] at hleast
    have hsame := sub_eq_zero.1 (eq_zero_of_energy (hleast.antisymm (energy_nonneg _)))
    have himage : p.operator.apply u = .ok p.measurement := by
      rw [hM u husize, ← hsame, ← hmeasurement]
    have hux := h.eq_of_embed hx hu himage
    rw [hux] at hu
    rw [Signal.eq_valuesAt_of_embed hw hzsize hu] at hz
    refine ⟨i + 1, Operator.solveOn_returns.2 ⟨hsize, hw, ?_⟩⟩
    rw [if_neg hempty]
    exact ⟨_, Operator.restrictedMatrix_eq_of_apply hM hw, hz, rfl⟩

/-! ## Pruning -/

/-- The `k` largest values on a set that captures the signal are at places that capture it, too. -/
lemma Captures.exists_kept (h : p.Captures x w) (hx : p.Explains x)
    (hw : Support.Ascending p.operator.cols w) :
    ∃ s, choose w (Support.largest (x.valuesAt w) p.sparsity) = .ok s ∧
      (x.valuesAt w).gather (Support.largest (x.valuesAt w) p.sparsity) = .ok (x.valuesAt s) ∧
      Support.Ascending p.operator.cols s ∧ p.Captures x s := by
  have hkeep := Support.largest_ascending (x.valuesAt w) p.sparsity
  rw [Signal.size_valuesAt] at hkeep
  have hchoose := choose_eq_ok hkeep
  refine ⟨_, hchoose, gather_valuesAt hkeep hchoose, (choose_ascending hw hkeep hchoose).1, ?_, ?_⟩
  · intro l hl
    obtain ⟨c, hc, rfl⟩ := Array.mem_iff_getElem.1 (h.mem l hl)
    obtain ⟨S, hcard, hzero⟩ := hx.sparse
    -- the places whose values may be nonzero are no more than the nonzero entries
    let places : Finset (Fin w.size) := {a | w[a] ∈ S}
    have hplaces : places.card ≤ p.sparsity := by
      refine le_trans (Finset.card_le_card_of_injOn (fun a => w[a]) ?_ ?_) hcard
      · intro a ha
        exact (Finset.mem_filter.1 ha).2
      · intro a _ b _ hab
        exact Fin.ext (hw.valid.eq_of_getElem_eq a.isLt b.isLt hab)
    have hmem : c ∈ Support.largest (x.valuesAt w) p.sparsity := by
      refine Support.mem_largest_of_ne_zero (Signal.size_valuesAt x w) hplaces (fun a ha => ?_) ?_
      · have hnotMem : w[a] ∉ S := fun hmem =>
          ha (Finset.mem_filter.2 ⟨Finset.mem_univ _, hmem⟩)
        have hentry := hzero _ hnotMem
        simpa [Signal.coords, Signal.valuesAt] using hentry
      · simpa [Signal.valuesAt, hc] using hl
    exact Array.mem_map.2 ⟨c, hmem, by simp [hc]⟩
  · -- what vanishes outside of a part of the set vanishes outside of the set
    have hsub : ∀ l ∉ w, l ∉ (Support.largest (x.valuesAt w) p.sparsity).map
        fun l => w.getD l 0 := by
      intro l hl hmem
      obtain ⟨c, hc, rfl⟩ := Array.mem_map.1 hmem
      have hlt := hkeep.lt c hc
      exact hl (by simp [hlt])
    intro u v y hu hv hu' hv' hau hav
    exact h.injective u v y hu hv (fun l hl => hu' l (hsub l hl)) (fun l hl => hv' l (hsub l hl))
      hau hav

/-! ## Rounds -/

/-- A round that fits a set first that captures the signal finds the signal. -/
theorem round_returns_explanation (ha : p.operator.ActsLinearly) (hs : p.backend.LeastSquares)
    (hx : p.Explains x) (he : e.x.SupportedOn p.operator.cols e.support)
    (hfirst : p.FitsFirst m e w) (h : p.Captures x w) (i : ℕ) :
    ∃ e' j, (p.round m e).Returns i e' j ∧ e'.x = x ∧ (Signal.norm e'.residual : ℝ) = 0 := by
  cases hfirst with
  | @htp rule _ t ht =>
    obtain ⟨y, hy, rfl⟩ := gradientStep_eq_hardThreshold he.size_eq ht
    have hw := (Signal.hardThreshold_supportedOn y p.sparsity).ascending.valid
    rw [hy] at hw
    obtain ⟨j, hfit⟩ := h.fit_returns ha hs hx hw i
    obtain ⟨e', hest, hfound⟩ := hx.exists_estimate (Signal.hardThreshold y p.sparsity).indices
    exact ⟨e', j, htpRound_returns.2 ⟨_, _, x, ht, hfit, h.embed_valuesAt hx.size_eq hw, hest⟩,
      hfound⟩
  | cosamp hmerged =>
    -- the fit on the merged set is the signal already, and pruning keeps all of it
    have hw := (expand_ascending he.ascending hmerged).1
    obtain ⟨j, hfit⟩ := h.fit_returns ha hs hx hw.valid i
    obtain ⟨s, hchoose, hgather, hs', hkept⟩ := h.exists_kept hx hw
    obtain ⟨e', hest, hfound⟩ := hx.exists_estimate s
    have hprune := prune_eq_ok.2
      ⟨s, _, x, hchoose, hgather, hkept.embed_valuesAt hx.size_eq hs'.valid, hest⟩
    exact ⟨e', j, cosampRound_returns.2 ⟨_, _, hmerged, hfit, hprune⟩, hfound⟩
  | subspacePursuit hmerged =>
    have hw := (expand_ascending he.ascending hmerged).1
    obtain ⟨l, hfit⟩ := h.fit_returns ha hs hx hw.valid i
    obtain ⟨s, hchoose, -, hs', hkept⟩ := h.exists_kept hx hw
    by_cases hall : (Support.largest (x.valuesAt w) p.sparsity).size = w.size
    · -- all columns are kept, with the first fit
      obtain ⟨e', hest, hfound⟩ := hx.exists_estimate w
      have hrefit := refit_returns.2 ⟨_, l, hfit, .inl ⟨hall, rfl, rfl, rfl⟩⟩
      exact ⟨e', l, subspacePursuitRound_returns.2 ⟨w, w, _, x, hmerged, hrefit,
        h.embed_valuesAt hx.size_eq hw.valid, hest⟩, hfound⟩
    · -- the columns that are kept capture the signal, so the second fit finds it again
      obtain ⟨j, hfit'⟩ := hkept.fit_returns ha hs hx hs'.valid l
      obtain ⟨e', hest, hfound⟩ := hx.exists_estimate s
      have hrefit := refit_returns.2 ⟨_, l, hfit, .inr ⟨hall, hchoose, hfit'⟩⟩
      exact ⟨e', j, subspacePursuitRound_returns.2 ⟨w, s, _, x, hmerged, hrefit,
        hkept.embed_valuesAt hx.size_eq hs'.valid, hest⟩, hfound⟩

end

/-! ## Runs -/

section

variable {alg : Algorithm} {o : Options ℝ} {l : ℕ} {f : ℕ → Estimate T} {q : ℕ → ℕ}

/-- The recovery has iterated `l` times and no rule has stopped it. -/
structure Underway [DecimalText ℝ] (p : Problem T) (alg : Algorithm) (o : Options ℝ)
    (m : Method ℝ) (i l : ℕ) (f : ℕ → Estimate T) (q : ℕ → ℕ) : Prop
    extends p.Trajectory m i l f q where
  check_eq : p.check o = .ok ()
  isZero_eq : RealLike.isZero (Signal.norm p.measurement : ℝ) = false
  method_eq : alg.method p.operator o = .ok m
  quiet : ∀ s < l, (m.reasonsAt o.convergence f s).shouldStop = false

namespace Underway

variable [DecimalText ℝ] (h : p.Underway alg o m i l f q)
include h

lemma tolerance_nonneg : 0 ≤ o.tolerance :=
  Options.isThreshold_iff.1 (Options.validate_eq_ok.1 (check_eq_ok.1 h.check_eq).1).2.1

/-- The iteration cap would have stopped it. -/
lemma lt_maxIterations : l < o.maxIterations := by
  rcases l with _ | l
  · exact Options.maxIterations_pos (check_eq_ok.1 h.check_eq).1
  · have hquiet := h.quiet l l.lt_succ_self
    rw [StopReason.shouldStop, Bool.or_eq_false_iff] at hquiet
    have hcap : (decide (o.maxIterations ≤ l + 1) || false) = false := hquiet.2
    rw [Bool.or_false, decide_eq_false_iff_not] at hcap
    omega

/-- Neither the measurement nor a residual so far is zero, since the tolerance would have stopped
the run there. -/
lemma residualNormAt_pos {s : ℕ} (hs : s ≤ l) : 0 < (residualNormAt f s : ℝ) := by
  have hnonneg (x : Signal T) : 0 ≤ (Signal.norm x : ℝ) := by
    rw [Signal.norm_eq_sqrt_energy rfl]
    exact Real.sqrt_nonneg _
  rcases s with _ | s
  · rw [residualNormAt_zero h.start]
    exact (hnonneg _).lt_of_ne fun hzero => of_decide_eq_false h.isZero_eq hzero.symm
  · have hquiet := h.quiet s hs
    rw [StopReason.shouldStop_eq_false_iff] at hquiet
    have htolerance := m.residualTolerance_reasonsAt o.convergence f s
    rw [hquiet] at htolerance
    have hgreater := not_le.1 (of_decide_eq_false htolerance.symm)
    exact (mul_nonneg h.tolerance_nonneg (hnonneg _)).trans_lt hgreater

/-- A round that leaves nothing is the last one, and its estimate is the answer. -/
theorem recover_returns_of_norm_eq_zero (hk : 0 < p.sparsity) (hn : p.sparsity < p.operator.cols)
    (hround : (p.round m (f l)).Returns (q l) e' j)
    (hzero : (Signal.norm e'.residual : ℝ) = 0) :
    ∃ r j, (p.recover alg o).Returns i r j ∧ r.iterations = l + 1 ∧
      r.reason.residualTolerance = true ∧ r.converged = true ∧ r.residualNorm = 0 ∧
      r.x = e'.x := by
  obtain ⟨f', q', htraj, hsame, hlast⟩ := h.toTrajectory.exists_succ hround
  have hnorm (s : ℕ) (hs : s ≤ l) : (residualNormAt f' s : ℝ) = residualNormAt f s := by
    unfold residualNormAt
    rw [hsame s hs]
  have hnormLast : (residualNormAt f' (l + 1) : ℝ) = 0 := by
    unfold residualNormAt
    rw [hlast, hzero]
  have htolerance : (m.reasonsAt o.convergence f' l).residualTolerance = true := by
    rw [Method.residualTolerance_reasonsAt, hnormLast]
    apply decide_eq_true
    rw [hnorm 0 l.zero_le]
    exact mul_nonneg h.tolerance_nonneg (h.residualNormAt_pos l.zero_le).le
  have hconverged : (m.reasonsAt o.convergence f' l).isConverged = true :=
    (StopReason.isConverged_iff _).2 (.inl htolerance)
  have hrun : p.Run m o.convergence i l f' q' := by
    refine ⟨htraj, fun s hs => ?_, ?_⟩
    · have hquiet := h.quiet s hs
      unfold Method.reasonsAt at hquiet ⊢
      rw [hnorm 0 l.zero_le, hnorm s hs.le, hsame s hs.le, hsame (s + 1) hs]
      exact hquiet
    · rw [StopReason.shouldStop, hconverged, Bool.true_or]
  -- the last norm is below all others
  have hbest : bestIndex (residualNormAt (R := ℝ) f') (l + 1) = l + 1 := by
    unfold bestIndex
    rw [if_pos]
    apply decide_eq_true
    have hle := bestIndex_le (residualNormAt (R := ℝ) f') l
    rw [hnormLast, hnorm _ hle]
    exact h.residualNormAt_pos hle
  obtain ⟨hx, -, hbestNorm⟩ := recordAt_best (R := ℝ) hrun.start (l + 1)
  refine ⟨_, _, (recover_returns_pursue h.isZero_eq hk hn).2
    ⟨h.check_eq, hrun.returns_pursue h.method_eq h.lt_maxIterations⟩, ?_, htolerance, hconverged,
    ?_, ?_⟩
  · exact size_norms_recordAt p f' (l + 1)
  · show (p.recordAt f' (l + 1)).bestNorm = (0 : ℝ)
    rw [hbestNorm, hbest, hnormLast]
  · show (p.recordAt f' (l + 1) : Record T ℝ).bestX = e'.x
    rw [hx, hbest, hlast]

end Underway

/-- Let the measurement be the image of a signal with at most `k` nonzero entries. If, after any
number of iterations, the set that is fitted first contains these entries, and the operator is
injective on the signals that vanish outside of it, then the recovery ends with this very iteration,
by the residual tolerance, and answers with the signal. -/
theorem recover_exact [NormedScalar T] [DecimalText ℝ] (ha : p.operator.ActsLinearly)
    (hs : p.backend.LeastSquares) (hx : p.Explains x) (hk : 0 < p.sparsity)
    (hn : p.sparsity < p.operator.cols) (h : p.Underway alg o m i l f q)
    (hfirst : p.FitsFirst m (f l) w) (hcaptures : p.Captures x w) :
    ∃ r j, (p.recover alg o).Returns i r j ∧ r.iterations = l + 1 ∧
      r.reason.residualTolerance = true ∧ r.converged = true ∧ r.residualNorm = 0 ∧ r.x = x := by
  -- a backend that answers all requests goes through the same estimates
  have htraj := p.sameAnswers_obliging.trajectory h.toTrajectory
  have hsupp : (f l).x.SupportedOn p.operator.cols (f l).support :=
    (htraj.supportedOn hs.obliging_fits hn.le le_rfl).1
  obtain ⟨e', j, hround, hfound, hzero⟩ :=
    round_returns_explanation ha hs hx hsupp hfirst hcaptures (q l)
  rw [← hfound]
  exact h.recover_returns_of_norm_eq_zero hk hn hround hzero

end

/-- A multiple of the second unit vector, seen by the identity. -/
noncomputable def realSpike : Problem ℝ := { realPair with measurement := #[0, (5 : ℕ)] }

lemma explains_realSpike : realSpike.Explains #[0, 5] where
  size_eq := rfl
  apply_eq := (apply_realPair rfl).1
  sparse := by
    refine ⟨{1}, le_rfl, fun l hl => ?_⟩
    rw [Finset.mem_singleton] at hl
    rcases l with _ | _ | l
    · rfl
    · exact absurd rfl hl
    · rfl

/-- The identity is injective on every set. -/
lemma captures_realSpike {w : Array ℕ} (hw : 1 ∈ w) : realSpike.Captures #[0, 5] w where
  mem l hl := by
    rcases l with _ | _ | l
    · exact absurd rfl hl
    · exact hw
    · exact absurd rfl hl
  injective u v y hu hv _ _ hau hav := by
    have hu' := (apply_realPair hu).1.symm.trans hau
    have hv' := (apply_realPair hv).1.symm.trans hav
    exact (Except.ok.inj hu').trans (Except.ok.inj hv').symm

/-- Matching pursuit merges both columns, keeps one of two coefficients, and is done. -/
theorem recover_exact_realSpike :
    ∃ merged, realSpike.FitsFirst .cosamp realSpike.start merged ∧ merged.size = 2 ∧
      ∃ r j, (realSpike.recover .cosamp Options.standard).Returns 0 r j ∧ r.iterations = 1 ∧
        r.reason.residualTolerance = true ∧ r.converged = true ∧ r.residualNorm = 0 ∧
        r.x = #[0, 5] := by
  have hidentity := Operator.hasMatrix_identity (T := ℝ) 2
  have hlinear : realSpike.operator.ActsLinearly :=
    Operator.MapsBy.actsLinearly hidentity.hasImages.apply_eq
  obtain ⟨merged, hmerged⟩ := expand_ok (p := realSpike) (e := realSpike.start) (R := ℝ)
    hidentity.total 2 (Support.Ascending.empty 2) rfl
  obtain ⟨hasc, hsize⟩ := expand_ascending (Support.Ascending.empty 2) hmerged
  have htwo : merged.size = 2 := hsize
  have hmem : 1 ∈ merged := by
    -- two ascending indices below two are all of them
    have hall := hasc.eq_of_subset (Support.Ascending.range 2) (by simp [htwo]) fun l hl =>
      Array.mem_range.2 (hasc.lt l hl)
    rw [hall]
    simp
  have hnorm : RealLike.isZero (Signal.norm realSpike.measurement : ℝ) = false := by
    have hpos : (0 : ℝ) < 0 * 0 + 5 * 5 := by norm_num
    rw [Signal.norm_eq_sqrt_energy (n := 2) rfl, energy, Fin.sum_univ_two]
    exact decide_eq_false (Real.sqrt_pos.2 hpos).ne'
  have hunderway : realSpike.Underway .cosamp Options.standard .cosamp 0 0
      (fun _ => realSpike.start) fun _ => 0 :=
    { start := rfl
      count := rfl
      step := fun s hs => absurd hs (Nat.not_lt_zero s)
      check_eq := check_eq_ok.2
        ⟨validate_standard, rfl, one_le_two, nonfiniteEntry?_eq_none realSpike⟩
      isZero_eq := hnorm
      method_eq := rfl
      quiet := fun s hs => absurd hs (Nat.not_lt_zero s) }
  exact ⟨merged, .cosamp hmerged, htwo, recover_exact hlinear Backend.leastSquares_leastSquares
    explains_realSpike one_pos one_lt_two hunderway (.cosamp hmerged) (captures_realSpike hmem)⟩

end Problem
end CompressedSensing
