import Mathlib
import CompressedSensing.Proofs.Recovery.Requests
import CompressedSensing.Proofs.Recovery.Rounds
/-!
# Rounds get stuck only at requests

On an operator that accepts vectors of the right lengths the steps of a round that ask nobody all
succeed. What they need is an ascending support and vectors of the right lengths, whatever the
scores and coefficients are: there is room for the columns that are merged, the places chosen lie
within the merged support, and the supports that are fitted are valid. So a round succeeds, or it
makes a request that is refused.
-/

namespace CompressedSensing

variable {T R : Type} [RealLike R] [Scalar T R]

/-! ## Gradient steps -/

namespace GradientStep

variable {a : Operator T} {x g : Signal T} {s : Array ℕ} {k : ℕ}

/-- The step that is taken can be written densely. -/
lemma embed_take (hx : x.size = a.cols) (hg : g.size = a.cols) (μ : R) :
    Signal.embed a.cols (take x g μ k).indices (take x g μ k).values
      = .ok (take x g μ k).toDense := by
  have hlength : (take x g μ k).length = a.cols := by
    show (Array.zipWith _ x g).size = a.cols
    rw [Array.size_zipWith, hx, hg, min_self]
  rw [← hlength]
  exact Signal.embed_hardThreshold _ k

/-- Backtracking goes from one step that can be written densely to the next. -/
lemma backtrack_ok (ha : a.Total) (hx : x.size = a.cols) (hg : g.size = a.cols) (halvings : ℕ)
    (μ : R) {next : Thresholded T}
    (hnext : Signal.embed a.cols next.indices next.values = .ok next.toDense) :
    ∃ b, backtrack a x g k s halvings μ next = .ok b := by
  induction halvings generalizing μ next with
  | zero => exact ⟨_, rfl⟩
  | succ halvings ih =>
    have hmove : (Array.zipWith (· - ·) next.toDense x).size = a.cols := by
      rw [Array.size_zipWith, Signal.size_embed hnext, hx, min_self]
    obtain ⟨seen, hseen, -⟩ := ha.apply_ok hmove
    unfold backtrack
    split
    · exact ⟨_, rfl⟩
    · dsimp only
      rw [hseen, Except.ok_bind]
      split
      · exact ⟨_, rfl⟩
      · split
        · exact ⟨_, rfl⟩
        · exact ih _ (embed_take hx hg _)

/-- The support of a step is ascending, the given one or the largest entries of the gradient. -/
lemma fittedSupport_ascending (hs : Support.Ascending g.size s) (k : ℕ) :
    Support.Ascending g.size (fittedSupport s g k) := by
  unfold fittedSupport
  split
  · exact Support.largest_ascending g k
  · exact hs

/-- The step fitted to a support exists. -/
lemma fittedStep_ok (ha : a.Total) (hg : g.size = a.cols) (hs : Support.Ascending g.size s) :
    ∃ μ : R, fittedStep a a.cols s g = .ok μ := by
  obtain ⟨v, hv, hvsize⟩ := Signal.gather_ok hs.valid
  obtain ⟨gs, hgs, hgsize⟩ := Signal.embed_ok hs.valid hvsize
  rw [hg] at hgs hgsize
  obtain ⟨seen, hseen, -⟩ := ha.apply_ok hgsize
  unfold fittedStep
  rw [hv, Except.ok_bind, hgs, Except.ok_bind]
  dsimp only
  rw [hseen]
  exact ⟨_, rfl⟩

/-- A gradient step exists for every step rule. -/
lemma advance_ok (rule : StepRule R) (ha : a.Total) (hx : x.size = a.cols)
    (hg : g.size = a.cols) (hs : Support.Ascending a.cols s) (k : ℕ) :
    ∃ t, advance rule a x s g k = .ok t := by
  cases rule with
  | constant μ => exact ⟨_, rfl⟩
  | normalized =>
    rw [← hg] at hs
    obtain ⟨μ, hμ⟩ := fittedStep_ok (R := R) ha hg (fittedSupport_ascending hs k)
    obtain ⟨b, hb⟩ := backtrack_ok (k := k) (s := fittedSupport s g k) ha hx hg maxHalvings μ
      (embed_take hx hg μ)
    unfold advance normalized
    dsimp only
    rw [hx, hμ, Except.ok_bind, hb]
    exact ⟨_, rfl⟩

end GradientStep

/-- Only the norm estimate could fail. -/
lemma Algorithm.method_ok (alg : Algorithm) {a : Operator T} (ha : a.Total) (o : Options R) :
    ∃ m, alg.method a o = .ok m := by
  have hresolve : ∃ rule, GradientStep.resolve a o = .ok rule := by
    unfold GradientStep.resolve
    split
    · exact ⟨_, rfl⟩
    · obtain ⟨size, hsize⟩ := ha.normEstimate_ok (R := R) o.normIterations
      rw [hsize, Except.ok_bind]
      split <;> exact ⟨_, rfl⟩
    · exact ⟨_, rfl⟩
  obtain ⟨rule, hrule⟩ := hresolve
  unfold method
  cases alg with
  | iht => exact ⟨.iht rule, by rw [hrule]; rfl⟩
  | htp => exact ⟨.htp rule, by rw [hrule]; rfl⟩
  | cosamp => exact ⟨.cosamp, rfl⟩
  | subspacePursuit => exact ⟨.subspacePursuit, rfl⟩

/-! ## The steps of a round -/

namespace Problem

variable {p : Problem T} {e : Estimate T} {i j : ℕ}

omit [RealLike R] in
/-- The estimate of a signal of the column count exists. -/
lemma estimate_ok (ha : p.operator.Total) {x : Signal T} (hx : x.size = p.operator.cols)
    (s : Array ℕ) : ∃ e', p.estimate x s = .ok e' := by
  obtain ⟨r, hr, -⟩ := ha.residual_ok p.measurement hx
  unfold estimate
  rw [hr]
  exact ⟨_, rfl⟩

omit [RealLike R] in
/-- Fitted coefficients make an estimate on their support. -/
lemma embed_estimate_ok (ha : p.operator.Total) {s : Array ℕ} {z : Signal T}
    (hs : Support.Ascending p.operator.cols s) (hz : z.size = s.size) :
    ∃ e', (Signal.embed p.operator.cols s z >>= fun x => p.estimate x s) = .ok e' := by
  obtain ⟨x, hx, hsize⟩ := Signal.embed_ok hs.valid hz
  rw [hx]
  exact estimate_ok ha hsize s

/-- A gradient step succeeds, and where it leads can be written densely. -/
lemma gradientStep_ok (ha : p.operator.Total) (rule : StepRule R)
    (he : e.x.SupportedOn p.operator.cols e.support)
    (hr : e.residual.size = p.operator.rows) :
    ∃ t, p.gradientStep rule e = .ok t ∧
      Signal.embed p.operator.cols t.indices t.values = .ok t.toDense := by
  obtain ⟨g, hg, hsize⟩ := ha.applyAdjoint_ok hr
  obtain ⟨t, hadvance⟩ :=
    GradientStep.advance_ok rule ha he.size_eq hsize he.ascending p.sparsity
  have ht : p.gradientStep rule e = .ok t := by
    unfold gradientStep
    rw [hg, Except.ok_bind]
    exact hadvance
  obtain ⟨y, hy, rfl⟩ := gradientStep_eq_hardThreshold he.size_eq ht
  refine ⟨_, ht, ?_⟩
  rw [← hy]
  exact Signal.embed_hardThreshold y p.sparsity

/-- Expanding an ascending support succeeds. -/
lemma expand_ok (ha : p.operator.Total) (count : ℕ)
    (hs : Support.Ascending p.operator.cols e.support)
    (hr : e.residual.size = p.operator.rows) : ∃ merged, p.expand count e = .ok merged := by
  obtain ⟨proxy, hproxy, -⟩ := ha.applyAdjoint_ok hr
  unfold expand
  rw [hproxy, Except.ok_bind]
  dsimp only
  rw [if_neg (not_lt.2 hs.size_le)]
  exact ⟨_, rfl⟩

omit [RealLike R] [Scalar T R] in
/-- Choosing places within a support succeeds. -/
lemma choose_ok {s places : Array ℕ} (h : Support.Ascending s.size places) :
    ∃ out, choose s places = .ok out := by
  unfold choose
  rw [if_pos (Array.all_eq_true'.2 fun i hi => decide_eq_true (h.lt i hi))]
  exact ⟨_, rfl⟩

/-- A round of IHT never fails. -/
lemma ihtRound_ok (ha : p.operator.Total) (rule : StepRule R)
    (he : e.x.SupportedOn p.operator.cols e.support)
    (hr : e.residual.size = p.operator.rows) : ∃ e', p.ihtRound rule e = .ok e' := by
  obtain ⟨t, ht, hdense⟩ := gradientStep_ok ha rule he hr
  obtain ⟨e', he'⟩ := estimate_ok ha (Signal.size_embed hdense) t.indices
  exact ⟨e', ihtRound_eq_ok.2 ⟨t, ht, he'⟩⟩

/-- Pruning a fit to its largest entries never fails. -/
lemma prune_ok (ha : p.operator.Total) {merged : Array ℕ} {z : Signal T}
    (hm : Support.Ascending p.operator.cols merged) (hz : z.size = merged.size) :
    ∃ e', p.prune merged z = .ok e' := by
  have hkeep := Support.largest_ascending z p.sparsity
  obtain ⟨s, hs⟩ := choose_ok (hz ▸ hkeep)
  obtain ⟨v, hv, hvsize⟩ := Signal.gather_ok hkeep.valid
  obtain ⟨hasc, hsize⟩ := choose_ascending hm (hz ▸ hkeep) hs
  obtain ⟨e', he'⟩ := embed_estimate_ok ha hasc (hvsize.trans hsize.symm)
  unfold prune
  dsimp only
  rw [hs, Except.ok_bind, hv, Except.ok_bind, he']
  exact ⟨e', rfl⟩

/-! ## Rounds and requests -/

/-- The same problem with another backend. -/
def withBackend (p : Problem T) (s : Backend T) : Problem T := { p with backend := s }

omit [RealLike R] in
/-- A fit on a valid support succeeds, or its only request is refused. -/
lemma fit_onlyRefused (ha : p.operator.Total) (hb : p.measurement.size = p.operator.rows)
    {s : Array ℕ} (hs : Support.Valid p.operator.cols s) :
    Solving.OnlyRefused (fun backend => (p.withBackend backend).fit s) p.backend := by
  obtain ⟨columns, hcolumns⟩ := ha.restrictedMatrix_ok hs
  show Solving.OnlyRefused (fun backend => p.operator.solveOn p.measurement s backend) p.backend
  unfold Operator.solveOn
  dsimp only
  refine .ite (fun _ => rfl) (fun h => absurd hb h) fun _ => ?_
  refine .bind (.ofExcept ((Support.validate_eq_ok_iff _ _).2 hs)) fun _ _ _ _ => ?_
  refine .ite (fun _ => rfl) (fun _ => .pure _) fun _ => ?_
  exact .bind (.ofExcept hcolumns) fun columns _ _ _ => .request columns p.measurement

/-- Refitting fails only where the backend refuses a request. -/
lemma refit_onlyRefused (ha : p.operator.Total) (hb : p.measurement.size = p.operator.rows)
    (hfits : p.backend.Fits) {merged : Array ℕ}
    (hm : Support.Ascending p.operator.cols merged) :
    Solving.OnlyRefused (fun backend => (p.withBackend backend).refit merged) p.backend := by
  refine .bind (fit_onlyRefused ha hb hm.valid) fun z i j hz => ?_
  have hkeep := size_of_fit hfits hz ▸ Support.largest_ascending z p.sparsity
  obtain ⟨s, hs⟩ := choose_ok hkeep
  refine .ite (fun _ => rfl) (fun _ => .pure _) fun _ => .bind (.ofExcept hs) fun s' i j hs' => ?_
  obtain ⟨hs', -⟩ := Solving.returns_ofExcept.1 hs'
  obtain ⟨hasc, -⟩ := choose_ascending hm hkeep hs'
  exact .bind (fit_onlyRefused ha hb hasc.valid) fun z' _ _ _ => .pure _

/-- A round from an estimate on an ascending support succeeds, or it makes a request that is
refused. -/
theorem round_onlyRefused (m : Method R) (ha : p.operator.Total)
    (hb : p.measurement.size = p.operator.rows) (hfits : p.backend.Fits)
    (he : e.x.SupportedOn p.operator.cols e.support)
    (hr : e.residual.size = p.operator.rows) :
    Solving.OnlyRefused (fun backend => (p.withBackend backend).round m e) p.backend := by
  -- where columns are merged, the support that is fitted first is ascending
  have hexpand (count : ℕ) : ∃ merged, p.expand count e = .ok merged ∧
      Support.Ascending p.operator.cols merged := by
    obtain ⟨merged, hmerged⟩ := expand_ok ha count he.ascending hr
    exact ⟨merged, hmerged, (expand_ascending he.ascending hmerged).1⟩
  cases m with
  | iht rule =>
    obtain ⟨e', he'⟩ := ihtRound_ok ha rule he hr
    exact .ofExcept he'
  | htp rule =>
    obtain ⟨t, ht, -⟩ := gradientStep_ok ha rule he hr
    refine .bind (.ofExcept ht) fun t' i j ht' => ?_
    obtain ⟨ht', -⟩ := Solving.returns_ofExcept.1 ht'
    obtain ⟨y, hy, rfl⟩ := gradientStep_eq_hardThreshold he.size_eq ht'
    have hasc := hy ▸ (Signal.hardThreshold_supportedOn y p.sparsity).ascending
    refine .bind (fit_onlyRefused ha hb hasc.valid) fun z i j hz => ?_
    obtain ⟨e', he'⟩ := embed_estimate_ok ha hasc (size_of_fit hfits hz)
    exact .ofExcept he'
  | cosamp =>
    obtain ⟨merged, hmerged, hasc⟩ := hexpand (2 * p.sparsity)
    refine .bind (.ofExcept hmerged) fun merged' i j hmerged' => ?_
    obtain ⟨hmerged', -⟩ := Solving.returns_ofExcept.1 hmerged'
    have hasc := (expand_ascending he.ascending hmerged').1
    refine .bind (fit_onlyRefused ha hb hasc.valid) fun z i j hz => ?_
    obtain ⟨e', he'⟩ := prune_ok ha hasc (size_of_fit hfits hz)
    exact .ofExcept he'
  | subspacePursuit =>
    obtain ⟨merged, hmerged, hasc⟩ := hexpand p.sparsity
    refine .bind (.ofExcept hmerged) fun merged' i j hmerged' => ?_
    obtain ⟨hmerged', -⟩ := Solving.returns_ofExcept.1 hmerged'
    have hasc := (expand_ascending he.ascending hmerged').1
    refine .bind (refit_onlyRefused ha hb hfits hasc) fun fitted i j hfitted => ?_
    obtain ⟨s, z⟩ := fitted
    obtain ⟨e', he'⟩ := embed_estimate_ok ha (refit_ascending hfits hasc hfitted).1
      (refit_ascending hfits hasc hfitted).2
    exact .ofExcept he'

end Problem
end CompressedSensing
