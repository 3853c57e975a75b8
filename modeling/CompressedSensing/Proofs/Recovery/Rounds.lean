import Mathlib
import CompressedSensing.Recovery.Round
import CompressedSensing.Proofs.Operator.Total
import CompressedSensing.Proofs.Signal.Supported
import CompressedSensing.Proofs.Support.Merge
import CompressedSensing.Proofs.Support.Restricted
/-!
# What a round does

Each round is taken apart once: the lemmas ending in `_returns` list the steps of a round that
succeeds. From these follows what every round establishes, whatever the scalars are, as long as
the backend answers with one coefficient per column:

* the estimate vanishes outside an ascending support of exactly `k` entries;
* its residual is the residual of its signal.

Columns that are merged into a support `S` make it grow to `min (|S| + count) n` entries.
-/

namespace CompressedSensing

variable {T R : Type} [RealLike R] [Scalar T R]

/-! ## Gradient steps -/

namespace GradientStep

lemma size_toDense_take (x g : Signal T) (μ : R) (k : ℕ) :
    (take x g μ k).toDense.size = min x.size g.size := by
  unfold take
  rw [(Signal.hardThreshold_supportedOn _ k).size_eq, Array.size_zipWith]

/-- Backtracking moves along `g` by some step. -/
lemma backtrack_eq_take {a : Operator T} {x g : Signal T} {k : ℕ} {s : Array ℕ} (halvings : ℕ)
    (μ : R) {b : Backtracked T}
    (h : backtrack a x g k s halvings μ (take x g μ k) = .ok b) :
    ∃ μ' : R, b.next = take x g μ' k := by
  induction halvings generalizing μ with
  | zero =>
    cases h
    exact ⟨μ, rfl⟩
  | succ halvings ih =>
    -- three tests accept the step as it is; only then is it halved
    unfold backtrack at h
    split at h
    · cases h
      exact ⟨μ, rfl⟩
    · rcases Except.bind_eq_ok.1 h with ⟨seen, -, h⟩
      dsimp only at h
      split at h
      · cases h
        exact ⟨μ, rfl⟩
      · split at h
        · cases h
          exact ⟨μ, rfl⟩
        · exact ih _ h

/-- Either rule moves along `g` by some step and thresholds. -/
lemma advance_eq_take {rule : StepRule R} {a : Operator T} {x g : Signal T} {s : Array ℕ}
    {k : ℕ} {t : Thresholded T} (h : advance rule a x s g k = .ok t) :
    ∃ μ : R, t = take x g μ k := by
  cases rule with
  | constant μ =>
    cases h
    exact ⟨μ, rfl⟩
  | normalized =>
    unfold advance normalized at h
    rcases Except.bind_eq_ok.1 h with ⟨b, hb, h⟩
    cases h
    -- the support that the step is fitted to does not matter, only that there is a step
    rcases Except.bind_eq_ok.1 hb with ⟨μ, -, hb⟩
    exact backtrack_eq_take _ μ hb

end GradientStep

namespace Problem

variable {p : Problem T} {e e' : Estimate T} {i j : ℕ}

/-- A gradient step ends in a threshold, whatever the rule. -/
lemma gradientStep_eq_hardThreshold {rule : StepRule R} {t : Thresholded T}
    (hx : e.x.size = p.operator.cols) (h : p.gradientStep rule e = .ok t) :
    ∃ y : Signal T, y.size = p.operator.cols ∧ t = Signal.hardThreshold y p.sparsity := by
  unfold gradientStep at h
  rcases Except.bind_eq_ok.1 h with ⟨g, hg, h⟩
  rcases GradientStep.advance_eq_take h with ⟨μ, rfl⟩
  refine ⟨_, ?_, rfl⟩
  rw [Array.size_zipWith, hx, Operator.size_applyAdjoint hg, min_self]

omit [RealLike R] in
lemma start_supportedOn (p : Problem T) :
    p.start.x.SupportedOn p.operator.cols p.start.support := Signal.zeros_supportedOn _

/-! ## The steps of a round -/

omit [RealLike R] in
/-- An estimate holds its signal, its support and the residual. -/
lemma estimate_eq_ok {x : Signal T} {s : Array ℕ} :
    p.estimate x s = .ok e' ↔
      e'.x = x ∧ e'.support = s ∧ p.operator.residual p.measurement x = .ok e'.residual := by
  unfold estimate
  rw [Except.bind_eq_ok]
  constructor
  · intro h
    rcases h with ⟨r, hr, ⟨⟩⟩
    exact ⟨rfl, rfl, hr⟩
  · intro h
    rcases h with ⟨rfl, rfl, hr⟩
    exact ⟨_, hr, rfl⟩

/-- A round of IHT is a gradient step and its estimate. -/
lemma ihtRound_eq_ok {rule : StepRule R} :
    p.ihtRound rule e = .ok e' ↔
      ∃ t, p.gradientStep rule e = .ok t ∧ p.estimate t.toDense t.indices = .ok e' :=
  Except.bind_eq_ok

/-- A round of HTP fits on the support of a gradient step. -/
lemma htpRound_returns {rule : StepRule R} :
    (p.htpRound rule e).Returns i e' j ↔
      ∃ t z x, p.gradientStep rule e = .ok t ∧ (p.fit t.indices).Returns i z j ∧
        Signal.embed p.operator.cols t.indices z = .ok x ∧
        p.estimate x t.indices = .ok e' := by
  unfold htpRound
  rw [Solving.returns_ofExcept_bind]
  simp only [Solving.returns_bind, Solving.returns_ofExcept, Except.bind_eq_ok]
  constructor
  · intro h
    rcases h with ⟨t, ht, z, _, hz, ⟨x, hx, he⟩, rfl⟩
    exact ⟨t, z, x, ht, hz, hx, he⟩
  · intro h
    rcases h with ⟨t, z, x, ht, hz, hx, he⟩
    exact ⟨t, ht, z, j, hz, ⟨x, hx, he⟩, rfl⟩

/-- Pruning keeps the largest entries of a fit, with their values. -/
lemma prune_eq_ok {merged : Array ℕ} {z : Signal T} :
    p.prune merged z = .ok e' ↔
      ∃ s v x, choose merged (Support.largest z p.sparsity) = .ok s ∧
        Signal.gather z (Support.largest z p.sparsity) = .ok v ∧
        Signal.embed p.operator.cols s v = .ok x ∧ p.estimate x s = .ok e' := by
  unfold prune
  simp only [Except.bind_eq_ok]
  constructor
  · intro h
    rcases h with ⟨s, hs, v, hv, x, hx, he⟩
    exact ⟨s, v, x, hs, hv, hx, he⟩
  · intro h
    rcases h with ⟨s, v, x, hs, hv, hx, he⟩
    exact ⟨s, hs, v, hv, x, hx, he⟩

/-- A round of CoSaMP expands by `2 k` indices, fits and prunes. -/
lemma cosampRound_returns :
    (p.cosampRound e).Returns i e' j ↔
      ∃ merged z, p.expand (2 * p.sparsity) e = .ok merged ∧ (p.fit merged).Returns i z j ∧
        p.prune merged z = .ok e' := by
  unfold cosampRound
  rw [Solving.returns_ofExcept_bind]
  simp only [Solving.returns_bind, Solving.returns_ofExcept]
  constructor
  · intro h
    rcases h with ⟨merged, hm, z, _, hz, he, rfl⟩
    exact ⟨merged, z, hm, hz, he⟩
  · intro h
    rcases h with ⟨merged, z, hm, hz, he⟩
    exact ⟨merged, hm, z, j, hz, he, rfl⟩

/-- A refit keeps all columns, or fits again on those it chose. -/
lemma refit_returns {merged : Array ℕ} {s : Array ℕ} {z : Signal T} :
    (p.refit merged).Returns i (s, z) j ↔
      ∃ y l, (p.fit merged).Returns i y l ∧
        ((Support.largest y p.sparsity).size = merged.size ∧ s = merged ∧ z = y ∧ j = l ∨
          (Support.largest y p.sparsity).size ≠ merged.size ∧
            choose merged (Support.largest y p.sparsity) = .ok s ∧
            (p.fit s).Returns l z j) := by
  unfold refit
  rw [Solving.returns_bind]
  refine exists₂_congr fun y l => and_congr_right fun _ => ?_
  dsimp only
  by_cases hsize : (Support.largest y p.sparsity).size = merged.size
  · rw [if_pos hsize, Solving.returns_pure, Prod.mk.injEq, and_assoc]
    simp only [hsize, ne_eq, not_true_eq_false, true_and, false_and, or_false]
  · rw [if_neg hsize, Solving.returns_ofExcept_bind]
    simp only [Solving.returns_bind, Solving.returns_pure, Prod.mk.injEq, hsize, ne_eq,
      not_false_eq_true, true_and, false_and, false_or]
    constructor
    · rintro ⟨s', hs, z', _, hz, ⟨rfl, rfl⟩, rfl⟩
      exact ⟨hs, hz⟩
    · rintro ⟨hs, hz⟩
      exact ⟨s, hs, z, j, hz, ⟨rfl, rfl⟩, rfl⟩

/-- A round of subspace pursuit expands by `k` indices and refits. -/
lemma subspacePursuitRound_returns :
    (p.subspacePursuitRound e).Returns i e' j ↔
      ∃ merged s z x, p.expand p.sparsity e = .ok merged ∧
        (p.refit merged).Returns i (s, z) j ∧
        Signal.embed p.operator.cols s z = .ok x ∧ p.estimate x s = .ok e' := by
  unfold subspacePursuitRound
  rw [Solving.returns_ofExcept_bind]
  simp only [Solving.returns_bind, Solving.returns_ofExcept, Except.bind_eq_ok, Prod.exists]
  constructor
  · intro h
    rcases h with ⟨merged, hm, s, z, _, hz, ⟨x, hx, he⟩, rfl⟩
    exact ⟨merged, s, z, x, hm, hz, hx, he⟩
  · intro h
    rcases h with ⟨merged, s, z, x, hm, hz, hx, he⟩
    exact ⟨merged, hm, s, z, j, hz, ⟨x, hx, he⟩, rfl⟩

/-- Every round ends by taking the residual of its signal. -/
theorem round_returns_estimate {m : Method R} (h : (p.round m e).Returns i e' j) :
    p.estimate e'.x e'.support = .ok e' := by
  have hlast {x s} (he : p.estimate x s = .ok e') : p.estimate e'.x e'.support = .ok e' := by
    rcases estimate_eq_ok.1 he with ⟨hx, hs, -⟩
    rwa [hx, hs]
  cases m with
  | iht rule =>
    rcases Solving.returns_ofExcept.1 h with ⟨h, -⟩
    rcases ihtRound_eq_ok.1 h with ⟨t, -, he⟩
    exact hlast he
  | htp rule =>
    rcases htpRound_returns.1 h with ⟨t, z, x, -, -, -, he⟩
    exact hlast he
  | cosamp =>
    rcases cosampRound_returns.1 h with ⟨merged, z, -, -, h⟩
    rcases prune_eq_ok.1 h with ⟨s, v, x, -, -, -, he⟩
    exact hlast he
  | subspacePursuit =>
    rcases subspacePursuitRound_returns.1 h with ⟨merged, s, z, x, -, -, -, he⟩
    exact hlast he

/-! ## What a round establishes -/

omit [RealLike R] in
/-- Columns chosen from a support by ascending places are ascending. -/
lemma choose_ascending {n : ℕ} {s places out : Array ℕ} (hs : Support.Ascending n s)
    (hplaces : Support.Ascending s.size places) (h : choose s places = .ok out) :
    Support.Ascending n out ∧ out.size = places.size := by
  unfold choose at h
  split at h
  · rw [Except.ok.injEq] at h
    subst h
    refine ⟨⟨?_, ?_⟩, Array.size_map⟩
    · -- ascending places in an ascending support
      rw [Array.toList_map, List.pairwise_map]
      refine hplaces.sorted.imp_of_mem fun {i j} hi hj hij => ?_
      have hi' : i < s.size := hplaces.lt i (Array.mem_toList_iff.1 hi)
      have hj' : j < s.size := hplaces.lt j (Array.mem_toList_iff.1 hj)
      simpa [hi', hj'] using hs.getElem_lt_getElem hij hj'
    · intro c hc
      rcases Array.mem_map.1 hc with ⟨i, hi, rfl⟩
      have hi' : i < s.size := hplaces.lt i hi
      simpa [hi'] using hs.lt _ (Array.getElem_mem hi')
  · cases h

omit [RealLike R] in
/-- A fit has one value per index of its support. -/
lemma size_of_fit (hb : p.backend.Fits) {s : Array ℕ} {z : Signal T}
    (h : (p.fit s).Returns i z j) : z.size = s.size :=
  Operator.size_of_solveOn hb h

/-- Merging columns into a support keeps it ascending; it grows by the number of columns that are
merged, as far as there are any left. -/
lemma expand_ascending {count : ℕ} {merged : Array ℕ}
    (hs : Support.Ascending p.operator.cols e.support) (h : p.expand count e = .ok merged) :
    Support.Ascending p.operator.cols merged ∧
      merged.size = min (e.support.size + count) p.operator.cols := by
  unfold expand at h
  rcases Except.bind_eq_ok.1 h with ⟨proxy, hproxy, h⟩
  have hsize := Operator.size_applyAdjoint hproxy
  dsimp only at h
  split at h
  · cases h
  · cases h
    -- the fresh columns lie outside the support, so the sizes add up
    rw [← hsize] at hs
    refine ⟨hsize ▸ Support.merge_ascending hs (Support.largestExcluding_ascending _ _ hs), ?_⟩
    rw [Support.size_merge fun j => Support.notMem_of_mem_largestExcluding _ _ hs,
      Support.size_largestExcluding _ _ hs]
    omega

/-- Keeping the largest coefficients of a fit leaves `k` columns, if there are as many. -/
lemma choose_largest_ascending {merged s : Array ℕ} {z : Signal T}
    (hm : Support.Ascending p.operator.cols merged) (hz : z.size = merged.size)
    (hk : p.sparsity ≤ merged.size) (h : choose merged (Support.largest z p.sparsity) = .ok s) :
    Support.Ascending p.operator.cols s ∧ s.size = p.sparsity := by
  rcases choose_ascending hm (hz ▸ Support.largest_ascending z _) h with ⟨hs, hsize⟩
  rw [Support.size_largest, hz, min_eq_left hk] at hsize
  exact ⟨hs, hsize⟩

/-- A refit ends with one coefficient per column of an ascending support. -/
lemma refit_ascending (hb : p.backend.Fits) {merged s : Array ℕ} {z : Signal T}
    (hm : Support.Ascending p.operator.cols merged) (h : (p.refit merged).Returns i (s, z) j) :
    Support.Ascending p.operator.cols s ∧ z.size = s.size := by
  rcases refit_returns.1 h with ⟨y, l, hy, ⟨-, rfl, rfl, -⟩ | ⟨-, hchoose, hz⟩⟩
  · exact ⟨hm, size_of_fit hb hy⟩
  · have hkeep := size_of_fit hb hy ▸ Support.largest_ascending y p.sparsity
    exact ⟨(choose_ascending hm hkeep hchoose).1, size_of_fit hb hz⟩

/-- A thresholded signal comes with its support. -/
lemma ihtRound_supportedOn {rule : StepRule R} (hk : p.sparsity ≤ p.operator.cols)
    (hx : e.x.size = p.operator.cols) (h : p.ihtRound rule e = .ok e') :
    e'.x.SupportedOn p.operator.cols e'.support ∧ e'.support.size = p.sparsity := by
  rcases ihtRound_eq_ok.1 h with ⟨t, ht, h⟩
  rcases estimate_eq_ok.1 h with ⟨hx', hs, -⟩
  rcases gradientStep_eq_hardThreshold hx ht with ⟨y, hy, rfl⟩
  rw [hx', hs, Signal.size_hardThreshold_indices, hy, min_eq_left hk]
  exact ⟨hy ▸ Signal.hardThreshold_supportedOn y _, rfl⟩

/-- Only the support of the step is kept, and the fit is embedded there, whatever the backend
answers. -/
lemma htpRound_supportedOn {rule : StepRule R} (hk : p.sparsity ≤ p.operator.cols)
    (hx : e.x.size = p.operator.cols) (h : (p.htpRound rule e).Returns i e' j) :
    e'.x.SupportedOn p.operator.cols e'.support ∧ e'.support.size = p.sparsity := by
  rcases htpRound_returns.1 h with ⟨t, z, x, ht, -, hembed, h⟩
  rcases estimate_eq_ok.1 h with ⟨hx', hs, -⟩
  rcases gradientStep_eq_hardThreshold hx ht with ⟨y, hy, rfl⟩
  have hasc := (Signal.hardThreshold_supportedOn y p.sparsity).ascending
  rw [hx', hs, Signal.size_hardThreshold_indices, hy, min_eq_left hk]
  exact ⟨Signal.embed_supportedOn (hy ▸ hasc) hembed, rfl⟩

/-- The two rounds that take a gradient step need nothing from the backend for that. -/
lemma stepRound_supportedOn {m : Method R} {rule : StepRule R} (hm : m = .iht rule ∨ m = .htp rule)
    (hk : p.sparsity ≤ p.operator.cols) (hx : e.x.size = p.operator.cols)
    (h : (p.round m e).Returns i e' j) :
    e'.x.SupportedOn p.operator.cols e'.support ∧ e'.support.size = p.sparsity := by
  rcases hm with rfl | rfl
  · exact ihtRound_supportedOn hk hx (Solving.returns_ofExcept.1 h).1
  · exact htpRound_supportedOn hk hx h

/-- A round keeps the estimate on an ascending support and makes that support have exactly `k`
entries. -/
theorem round_supportedOn {m : Method R} (hb : p.backend.Fits)
    (hk : p.sparsity ≤ p.operator.cols) (he : e.x.SupportedOn p.operator.cols e.support)
    (h : (p.round m e).Returns i e' j) :
    e'.x.SupportedOn p.operator.cols e'.support ∧ e'.support.size = p.sparsity := by
  -- the merged supports of both matching pursuits are large enough to keep `k` columns
  have hroom {count : ℕ} {merged : Array ℕ} (hcount : p.sparsity ≤ count)
      (hm : p.expand count e = .ok merged) :
      Support.Ascending p.operator.cols merged ∧ p.sparsity ≤ merged.size := by
    rcases expand_ascending he.ascending hm with ⟨hasc, hsize⟩
    exact ⟨hasc, by omega⟩
  cases m with
  | iht rule =>
    rcases Solving.returns_ofExcept.1 h with ⟨h, -⟩
    exact ihtRound_supportedOn hk he.size_eq h
  | htp rule => exact htpRound_supportedOn hk he.size_eq h
  | cosamp =>
    rcases cosampRound_returns.1 h with ⟨merged, z, hm, hz, h⟩
    rcases prune_eq_ok.1 h with ⟨s, v, x, hchoose, -, hembed, h⟩
    rcases estimate_eq_ok.1 h with ⟨hx, hs, -⟩
    rcases hroom (by omega) hm with ⟨hasc, hsize⟩
    rcases choose_largest_ascending hasc (size_of_fit hb hz) hsize hchoose with ⟨hs', hk'⟩
    rw [hx, hs]
    exact ⟨Signal.embed_supportedOn hs' hembed, hk'⟩
  | subspacePursuit =>
    rcases subspacePursuitRound_returns.1 h with ⟨merged, s, z, x, hm, hrefit, hembed, h⟩
    rcases estimate_eq_ok.1 h with ⟨hx, hs, -⟩
    rcases hroom le_rfl hm with ⟨hasc, hsize⟩
    rcases refit_returns.1 hrefit with ⟨y, l, hy, hrest⟩
    have hysize := size_of_fit hb hy
    -- if nothing is pruned the merged support itself has `k` entries
    have hs' : Support.Ascending p.operator.cols s ∧ s.size = p.sparsity := by
      rcases hrest with ⟨hall, rfl, -⟩ | ⟨-, hchoose, -⟩
      · rw [Support.size_largest, hysize, min_eq_left hsize] at hall
        exact ⟨hasc, hall.symm⟩
      · exact choose_largest_ascending hasc hysize hsize hchoose
    rw [hx, hs]
    exact ⟨Signal.embed_supportedOn hs'.1 hembed, hs'.2⟩

end Problem
end CompressedSensing
