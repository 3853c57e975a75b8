import Mathlib
import CompressedSensing.Proofs.Recovery.ScaleInvariance
/-!
# Recoveries and the scale of the data

A change of scale that keeps the lengths of steps commutes with the rounds of every method: the same
entries are selected, steps are halved in the same places, and fits are multiplied by the factor of
signals. The two matching pursuits take no steps, so every change of scale commutes with their
rounds.

It follows that the answer for a multiple of the measurement is the multiple of the answer, with the
same support, after as many iterations and for the same reasons, and that the answer of a matching
pursuit for a multiple of the operator is the quotient of the answer.
-/

namespace CompressedSensing

open Matrix Reals
open scoped ExactScalar

variable {T : Type} [Scalar T ℝ] [NormedScalar T]

namespace Solving

variable {α β : Type} {x : Solving α} {y : Solving β} {i j : ℕ}

/-- If answers can be carried over in both directions, then one computation gives what `f` makes of
the answers of the other one, and nothing else. -/
lemma returns_iff_of_carries {f : α → β} {g : β → α}
    (hf : ∀ a, x.Returns i a j → y.Returns i (f a) j)
    (hg : ∀ b, y.Returns i b j → x.Returns i (g b) j) (b : β) :
    y.Returns i b j ↔ ∃ a, x.Returns i a j ∧ b = f a := by
  constructor
  · intro h
    exact ⟨g b, hg b h, (h.inj (hf _ (hg b h))).1⟩
  · rintro ⟨a, ha, rfl⟩
    exact hf a ha

end Solving

namespace Problem

variable {p p' : Problem T} {σ : Rescaling T} {e e' : Estimate T} {s merged : Array ℕ}
  {z : Signal T}
  {i j : ℕ}

namespace Rescaled

variable (h : p.Rescaled p' σ)
include h

/-! ## Steps -/

/-- If steps keep their length, every rule leads to the multiple. -/
lemma gradientStep_of_step_eq_one (hstep : σ.step = 1) (hx : e.x.size = p.operator.cols)
    (hr : e.residual.size = p.operator.rows) {rule : StepRule ℝ} {t : Thresholded T}
    (ht : p.gradientStep rule e = .ok t) :
    p'.gradientStep rule (σ.estimate e) = .ok (t.scale σ.signal) := by
  cases rule with
  | constant μ =>
    unfold gradientStep at ht
    obtain ⟨g, hg, ht⟩ := Except.bind_eq_ok.1 ht
    cases ht
    have hgradient : p'.operator.applyAdjoint (σ.estimate e).residual
        = .ok (Signal.scale σ.gradient g) := h.gradient_eq _ _ hr hg
    have htake := GradientStep.take_scale (σ := σ) e.x g μ p.sparsity
    rw [hstep, one_mul] at htake
    unfold gradientStep
    rw [hgradient, Except.ok_bind, h.sparsity_eq]
    exact congrArg Except.ok htake
  | normalized =>
    have hsame : p.FallsBack e → p.SameMove .iht e 1 σ.step⁻¹ := by
      intro _
      left
      rw [hstep, inv_one]
    obtain ⟨t', ht', -, hfull⟩ := h.exists_gradientStep hx hr hsame ht
    rw [ht', hfull (by decide)]

/-! ## Merging, pruning and fitting again -/

/-- The same columns correlate best with the residual. -/
lemma expand_eq {count : ℕ} (hr : e.residual.size = p.operator.rows)
    (hm : p.expand count e = .ok merged) : p'.expand count (σ.estimate e) = .ok merged := by
  unfold expand at hm ⊢
  obtain ⟨proxy, hproxy, hm⟩ := Except.bind_eq_ok.1 hm
  have hgradient : p'.operator.applyAdjoint (σ.estimate e).residual
      = .ok (Signal.scale σ.gradient proxy) := h.gradient_eq _ _ hr hproxy
  rw [hgradient, Except.ok_bind, h.cols_eq]
  dsimp only at hm ⊢
  rw [Support.largestExcluding_scale σ.gradient_ne]
  exact hm

/-- The same coefficients are kept. -/
lemma prune_eq (he : p.prune merged z = .ok e') :
    p'.prune merged (Signal.scale σ.signal z) = .ok (σ.estimate e') := by
  obtain ⟨s, v, x, hs, hv, hx, he⟩ := prune_eq_ok.1 he
  apply prune_eq_ok.2
  rw [h.sparsity_eq, h.cols_eq, Support.largest_scale σ.signal_ne]
  exact ⟨s, _, _, hs, Signal.gather_scale _ hv, Signal.embed_scale _ hx,
    h.estimate_eq (Signal.size_embed hx) he⟩

/-- Refitting the image of a problem keeps the support and scales the answer. -/
lemma refit_returns (hz : (p.refit merged).Returns i (s, z) j) :
    (p'.refit merged).Returns i (s, Signal.scale σ.signal z) j := by
  obtain ⟨y, l, hy, hrest⟩ := Problem.refit_returns.1 hz
  apply Problem.refit_returns.2
  refine ⟨Signal.scale σ.signal y, l, h.fit_returns _ _ _ _ hy, ?_⟩
  rw [h.sparsity_eq, Support.largest_scale σ.signal_ne]
  rcases hrest with ⟨hall, rfl, rfl, rfl⟩ | ⟨hsome, hchoose, hz⟩
  · exact .inl ⟨hall, rfl, rfl, rfl⟩
  · exact .inr ⟨hsome, hchoose, h.fit_returns _ _ _ _ hz⟩

/-! ## Rounds -/

/-- A round of CoSaMP on the image starts and ends at the images of the estimates. -/
lemma cosampRound_returns (hr : e.residual.size = p.operator.rows)
    (hround : (p.cosampRound e).Returns i e' j) :
    (p'.cosampRound (σ.estimate e)).Returns i (σ.estimate e') j := by
  obtain ⟨merged, z, hm, hz, he⟩ := Problem.cosampRound_returns.1 hround
  apply Problem.cosampRound_returns.2
  rw [h.sparsity_eq]
  exact ⟨merged, _, h.expand_eq hr hm, h.fit_returns _ _ _ _ hz, h.prune_eq he⟩

/-- A round of subspace pursuit on the image starts and ends at the images of the estimates. -/
lemma subspacePursuitRound_returns (hr : e.residual.size = p.operator.rows)
    (hround : (p.subspacePursuitRound e).Returns i e' j) :
    (p'.subspacePursuitRound (σ.estimate e)).Returns i (σ.estimate e') j := by
  obtain ⟨merged, s, z, x, hm, hz, hx, he⟩ := Problem.subspacePursuitRound_returns.1 hround
  apply Problem.subspacePursuitRound_returns.2
  rw [h.sparsity_eq, h.cols_eq]
  exact ⟨merged, s, _, _, h.expand_eq hr hm, h.refit_returns hz, Signal.embed_scale _ hx,
    h.estimate_eq (Signal.size_embed hx) he⟩

/-- A change of scale that keeps the lengths of steps commutes with every round. -/
theorem round_returns_of_step {m : Method ℝ} (hm : σ.step = 1 ∨ m = .cosamp ∨ m = .subspacePursuit)
    (hx : e.x.size = p.operator.cols) (hr : e.residual.size = p.operator.rows)
    (hround : (p.round m e).Returns i e' j) :
    (p'.round m (σ.estimate e)).Returns i (σ.estimate e') j := by
  cases m with
  | iht rule =>
    have hstep : σ.step = 1 := by simpa using hm
    obtain ⟨hiht, rfl⟩ := Solving.returns_ofExcept.1 hround
    obtain ⟨t, ht, he⟩ := ihtRound_eq_ok.1 hiht
    have ht' := h.gradientStep_of_step_eq_one hstep hx hr ht
    exact Solving.returns_ofExcept.2 ⟨h.ihtRound_eq hx ht ht' he, rfl⟩
  | htp rule =>
    have hstep : σ.step = 1 := by simpa using hm
    obtain ⟨t, z, x, ht, hz, hembed, he⟩ := Problem.htpRound_returns.1 hround
    have ht' := h.gradientStep_of_step_eq_one hstep hx hr ht
    exact h.htpRound_returns ht' rfl hz hembed he
  | cosamp => exact h.cosampRound_returns hr hround
  | subspacePursuit => exact h.subspacePursuitRound_returns hr hround

/-! ## Recoveries -/

/-- Such a change of scale carries answers over. -/
theorem recover_returns_of_step [DecimalText ℝ] {o : Options ℝ} {alg : Algorithm} {m : Method ℝ}
    {r : Recovered T ℝ} (hstep : σ.step = 1 ∨ m = .cosamp ∨ m = .subspacePursuit)
    (hk : p.sparsity = 0 → σ.norm = 1) (hm : alg.method p.operator o = .ok m)
    (hm' : alg.method p'.operator o = .ok m) (hr : (p.recover alg o).Returns i r j) :
    (p'.recover alg o).Returns i (σ.answer r) j := by
  have hb := (check_eq_ok.1 (Problem.recover_returns.1 hr).1).2.1
  refine h.recover_returns hk hm hm' (fun _ u e q hrun l hl => ?_) hr
  obtain ⟨hx, hres⟩ := hrun.toTrajectory.sizes hb (show l ≤ u + 1 by omega)
  exact h.round_returns_of_step hstep hx hres (hrun.step l (by omega))

end Rescaled

variable {M : Matrix (Fin p.operator.rows) (Fin p.operator.cols) T}

/-- Only the estimate of the norm could fail, and it does not. -/
lemma Linear.exists_method (h : p.Linear M) (alg : Algorithm) (o : Options ℝ) :
    ∃ m, alg.method p.operator o = .ok m := by
  have hdense := Operator.hasMatrix_dense_ofFn M
  obtain ⟨m, hm⟩ := alg.method_ok hdense.total o
  rw [alg.method_congr_operator ((h.images.agrees hdense.hasImages).normEstimate_eq _)] at hm
  exact ⟨m, hm⟩

end Problem

/-- The answer with its signal multiplied by `c` and its norms by `d`. -/
def Recovered.scaled {T R : Type} [RealLike R] [Scalar T R] (c : T) (d : R) (r : Recovered T R) :
    Recovered T R :=
  { r with
    x := Signal.scale c r.x
    residualNorms := r.residualNorms.map (d * ·)
    residualNorm := d * r.residualNorm }

namespace Problem

variable {p : Problem T} {M : Matrix (Fin p.operator.rows) (Fin p.operator.cols) T} {c : T}
  {i j : ℕ}

omit [NormedScalar T] in
/-- What a backend with one coefficient per column fits on all columns. -/
lemma size_fit_range (hfits : p.sparsity = p.operator.cols → p.backend.Fits)
    (hall : p.sparsity = p.operator.cols) (i j : ℕ) (z : Signal T)
    (hz : (p.fit (Array.range p.operator.cols)).Returns i z j) : z.size = p.operator.cols :=
  (size_of_fit (hfits hall) hz).trans Array.size_range

/-- Multiplying by the inverse factor takes the factor back. -/
lemma measured_measured_one_div (p : Problem T) (hc : c ≠ 0) :
    (p.measured c).measured (1 / c) = p := by
  show { p with measurement := Signal.scale (1 / c) (Signal.scale c p.measurement) } = p
  rw [Signal.scale_scale, mul_comm, NormedScalar.one_div_mul_cancel hc, Signal.scale_one]

section

variable [DecimalText ℝ] {alg : Algorithm} {o : Options ℝ} {r : Recovered T ℝ}
  (ha : p.operator.Adjunction) (hc : c ≠ 0) (hk : 0 < p.sparsity)
  (hfits : p.sparsity = p.operator.cols → p.backend.Fits)
include ha hc hk hfits

/-- A recovery that succeeds succeeds on `c` times the measurement, with the scaled result. -/
lemma recover_measured_returns (hs : p.backend.Homogeneous c)
    (hr : (p.recover alg o).Returns i r j) :
    ((p.measured c).recover alg o).Returns i (r.scaled c (Scalar.modulus c)) j := by
  obtain ⟨M, hM⟩ := ha.exists_hasImages
  have h : p.Linear M := ⟨hM, (check_eq_ok.1 (recover_returns.1 hr).1).2.1⟩
  obtain ⟨m, hm⟩ := h.exists_method alg o
  exact (h.remeasured hc hs (size_fit_range hfits)).recover_returns_of_step (.inl rfl)
    (fun hnone => absurd hnone hk.ne') hm hm hr

omit hk in
/-- A recovery by CoSaMP or subspace pursuit succeeds on `c` times the operator, with the answer
divided by `c`. -/
lemma recover_multiple_returns (halg : alg = .cosamp ∨ alg = .subspacePursuit)
    (hs : p.backend.InverselyHomogeneous c) (hr : (p.recover alg o).Returns i r j) :
    ((p.scaled c).recover alg o).Returns i { r with x := r.x.map (· / c) } j := by
  obtain ⟨M, hM⟩ := ha.exists_hasImages
  have h : p.Linear M := ⟨hM, (check_eq_ok.1 (recover_returns.1 hr).1).2.1⟩
  have hrescaled := h.rescaled_of_inverselyHomogeneous hc hs (size_fit_range hfits)
  have hanswer : (Rescaling.ofFactor hc).answer r = { r with x := r.x.map (· / c) } := by
    unfold Rescaling.answer Rescaling.ofFactor
    simp only [one_mul, Array.map_id_fun', id_eq, Signal.scale_one_div hc]
  rw [← hanswer]
  rcases halg with rfl | rfl
  · exact hrescaled.recover_returns_of_step (.inr (.inl rfl)) (fun _ => rfl) rfl rfl hr
  · exact hrescaled.recover_returns_of_step (.inr (.inr rfl)) (fun _ => rfl) rfl rfl hr

omit hk in
/-- With the inverse factor on top, the operator maps like the original one. -/
lemma recover_scaled_one_div (alg : Algorithm) (o : Options ℝ) :
    ((p.scaled c).scaled (1 / c)).recover alg o = p.recover alg o := by
  obtain ⟨M, hM⟩ := ha.exists_hasImages
  have hback := (hM.scaled c).scaled (1 / c)
  rw [smul_smul, NormedScalar.one_div_mul_cancel hc, one_smul] at hback
  exact recover_congr alg o (hM.agrees hback) hfits

/-- With a homogeneous backend the answers for a multiple of the measurement are those for the
measurement with the signal multiplied by the factor and the norms by its modulus; supports,
iterations and reasons are the same. The answers of a matching pursuit for a multiple of the
operator are those for the operator with the signal divided by the factor. -/
theorem recover_homogeneous (hs : p.backend.Homogeneous c) (alg : Algorithm) (o : Options ℝ)
    (i j : ℕ) :
    (∀ r', ((p.measured c).recover alg o).Returns i r' j ↔
      ∃ r, (p.recover alg o).Returns i r j ∧ r' = r.scaled c (Scalar.modulus c)) ∧
    (alg = .cosamp ∨ alg = .subspacePursuit → p.backend.InverselyHomogeneous c →
      ∀ r', ((p.scaled c).recover alg o).Returns i r' j ↔
        ∃ r, (p.recover alg o).Returns i r j ∧ r' = { r with x := r.x.map (· / c) }) := by
  have hc' : (1 / c : T) ≠ 0 := NormedScalar.one_div_ne_zero hc
  constructor
  · apply Solving.returns_iff_of_carries
    · intro r hr
      exact recover_measured_returns ha hc hk hfits hs hr
    · -- the way back is the same statement for the inverse factor
      intro r' hr'
      have hback := recover_measured_returns (p := p.measured c) ha hc' hk hfits (hs.inv hc) hr'
      rw [p.measured_measured_one_div hc] at hback
      exact hback
  · intro halg hs'
    obtain ⟨M, hM⟩ := ha.exists_hasImages
    apply Solving.returns_iff_of_carries
    · intro r hr
      exact recover_multiple_returns ha hc hfits halg hs' hr
    · intro r' hr'
      have hback := recover_multiple_returns (p := p.scaled c) (hM.scaled c).adjunction hc' hfits
        halg (hs'.inv hc) hr'
      rw [recover_scaled_one_div ha hc hfits] at hback
      exact hback

end

/-- Three times the measurement, with the opposite sign, and three times the operator. -/
theorem recover_homogeneous_unevenPair :
    (∃ r j, (unevenPair.recover .iht Options.standard).Returns 0 r j ∧
      ((unevenPair.measured (-3)).recover .iht Options.standard).Returns 0
        (r.scaled (-3) (Scalar.modulus (-3 : ℝ))) j) ∧
    ∃ r j, (unevenPair.recover .cosamp Options.standard).Returns 0 r j ∧
      ((unevenPair.scaled 3).recover .cosamp Options.standard).Returns 0
        { r with x := r.x.map (· / 3) } j := by
  have ha := linear_unevenPair.images.adjunction
  have hs : unevenPair.backend.Shortest := Backend.shortest_shortest
  have hcheck : unevenPair.check Options.standard = .ok () :=
    check_eq_ok.2 ⟨validate_standard, rfl, one_le_two, nonfiniteEntry?_eq_none _⟩
  have hfits (hall : unevenPair.sparsity = unevenPair.operator.cols) : unevenPair.backend.Fits :=
    absurd (show (1 : ℕ) = 2 from hall) (by decide)
  have hminus : (-3 : ℝ) ≠ 0 := by norm_num
  have hthree : (3 : ℝ) ≠ 0 := by norm_num
  obtain ⟨r, j, hr⟩ := linear_unevenPair.recover_returns hs.leastSquares .iht hcheck 0
  obtain ⟨r', j', hr'⟩ := linear_unevenPair.recover_returns hs.leastSquares .cosamp hcheck 0
  have hmeasured := (recover_homogeneous ha hminus one_pos hfits (hs.homogeneous hminus) .iht
    Options.standard 0 j).1
  have hscaled := (recover_homogeneous ha hthree one_pos hfits (hs.homogeneous hthree) .cosamp
    Options.standard 0 j').2 (.inl rfl) (hs.inverselyHomogeneous hthree)
  exact ⟨⟨r, j, hr, (hmeasured _).2 ⟨r, hr, rfl⟩⟩, r', j', hr', (hscaled _).2 ⟨r', hr', rfl⟩⟩

end Problem
end CompressedSensing
