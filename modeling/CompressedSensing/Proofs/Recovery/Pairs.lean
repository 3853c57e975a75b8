import Mathlib
import CompressedSensing.Proofs.Recovery.Multiples
import CompressedSensing.Proofs.Recovery.Rescaling
import CompressedSensing.Proofs.Recovery.Thresholding
/-!
# Gradient steps on two coordinates

A problem with two real coordinates of which one is wanted is small enough for its rounds to be
worked out. The operator multiplies the coordinates by `d₁` and `d₂`. A normalized step fitted to
the first coordinate is `1 / d₁²`, or one if there is nothing to fit, and the round keeps the first
coordinate or lets the second one in, whichever is larger after the step.
-/

namespace CompressedSensing

open Matrix Reals
open scoped ExactScalar

/-! ## The larger of two coordinates -/

section

variable {a b : ℝ}

lemma Support.largest_pair_of_le (h : |b| ≤ |a|) : largest #[a, b] 1 = #[0] := by
  rw [largest_two, if_pos]
  rw [ranksBefore_iff rfl rfl]
  exact .inr ⟨decide_eq_true h, Nat.zero_le 1⟩

lemma Support.largest_pair_of_lt (h : |a| < |b|) : largest #[a, b] 1 = #[1] := by
  rw [largest_two, if_neg]
  rw [ranksBefore_iff rfl rfl]
  rintro (hlt | ⟨hle, -⟩)
  · exact absurd (of_decide_eq_true hlt) (not_lt.2 h.le)
  · exact absurd (of_decide_eq_true hle) (not_le.2 h)

lemma Signal.hardThreshold_pair_of_le (h : |b| ≤ |a|) :
    hardThreshold #[a, b] 1 = ⟨#[0], #[a], 2⟩ := by
  rw [hardThreshold, Support.largest_pair_of_le h]
  simp

lemma Signal.hardThreshold_pair_of_lt (h : |a| < |b|) :
    hardThreshold #[a, b] 1 = ⟨#[1], #[b], 2⟩ := by
  rw [hardThreshold, Support.largest_pair_of_lt h]
  simp

lemma Thresholded.toDense_fst (v : ℝ) : toDense ⟨#[0], #[v], 2⟩ = #[v, 0] := by
  simp [toDense, Signal.scatter]
  rfl

lemma Thresholded.toDense_snd (v : ℝ) : toDense ⟨#[1], #[v], 2⟩ = #[0, v] := by
  simp [toDense, Signal.scatter]
  rfl

/-- The part of a vector on the first coordinate. -/
lemma Signal.part_fst (v w : ℝ) : gather #[v, w] #[0] >>= embed 2 #[0] = .ok #[v, 0] := by
  have hgather : gather #[v, w] #[0] = .ok #[v] := by
    simp [gather, inBounds]
  rw [hgather, Except.ok_bind]
  simp [embed, inBounds, scatter]
  rfl

/-- The part of a vector on the second coordinate. -/
lemma Signal.part_snd (v w : ℝ) : gather #[v, w] #[1] >>= embed 2 #[1] = .ok #[0, w] := by
  have hgather : gather #[v, w] #[1] = .ok #[w] := by
    simp [gather, inBounds]
  rw [hgather, Except.ok_bind]
  simp [embed, inBounds, scatter]
  rfl

lemma Signal.normSq_pair (v w : ℝ) : (normSq #[v, w] : ℝ) = v * v + w * w := by
  simp [normSq, sum]
  rfl

lemma Signal.norm_pair (v w : ℝ) : (norm #[v, w] : ℝ) = Real.sqrt (v * v + w * w) :=
  congrArg Real.sqrt (normSq_pair v w)

lemma GradientStep.take_pair (x y g₁ g₂ μ : ℝ) :
    take #[x, y] #[g₁, g₂] μ 1 = Signal.hardThreshold #[x + g₁ * μ, y + g₂ * μ] 1 := by
  simp [take]
  rfl

lemma GradientStep.take_fst {x y g₁ g₂ μ v : ℝ} (hv : x + g₁ * μ = v) (hle : |y + g₂ * μ| ≤ |v|) :
    take #[x, y] #[g₁, g₂] μ 1 = ⟨#[0], #[v], 2⟩ := by
  rw [take_pair, hv, Signal.hardThreshold_pair_of_le hle]

lemma GradientStep.take_snd {x y g₁ g₂ μ v : ℝ} (hv : y + g₂ * μ = v) (hlt : |x + g₁ * μ| < |v|) :
    take #[x, y] #[g₁, g₂] μ 1 = ⟨#[1], #[v], 2⟩ := by
  rw [take_pair, hv, Signal.hardThreshold_pair_of_lt hlt]

/-- A step that keeps the support is accepted. -/
lemma GradientStep.backtrack_of_kept {o : Operator ℝ} {x g : Signal ℝ} {k n : ℕ} {s : Array ℕ}
    {μ : ℝ} {t : Thresholded ℝ} (hkept : t.indices = s) :
    backtrack o x g k s (n + 1) μ t = .ok ⟨t, true⟩ := by
  rw [backtrack, if_pos hkept]
  rfl

end

/-! ## Rounds -/

namespace Problem

/-- One of two coordinates is wanted, which the operator multiplies by `d₁` and `d₂`. -/
structure IsPair (p : Problem ℝ) (d₁ d₂ b₁ b₂ : ℝ) : Prop where
  sparsity_eq : p.sparsity = 1
  measurement_eq : p.measurement = #[b₁, b₂]
  apply_eq (x y : ℝ) : p.operator.apply #[x, y] = .ok #[d₁ * x, d₂ * y]
  applyAdjoint_eq (x y : ℝ) : p.operator.applyAdjoint #[x, y] = .ok #[d₁ * x, d₂ * y]

namespace IsPair

variable {p : Problem ℝ} {d₁ d₂ b₁ b₂ x y u v g₁ g₂ r₁ r₂ μ : ℝ} {s : Array ℕ}

/-- The residual of a pair is taken coordinate by coordinate. -/
lemma estimate_eq (h : p.IsPair d₁ d₂ b₁ b₂) (x y : ℝ) (s : Array ℕ) :
    p.estimate #[x, y] s = .ok ⟨#[x, y], s, #[b₁ - d₁ * x, b₂ - d₂ * y]⟩ := by
  have hresidual : p.operator.residual p.measurement #[x, y]
      = .ok #[b₁ - d₁ * x, b₂ - d₂ * y] := by
    rw [Operator.residual_eq_apply, h.apply_eq, h.measurement_eq]
    rfl
  exact estimate_eq_ok.2 ⟨rfl, rfl, hresidual⟩

/-! ### Normalized steps -/

/-- The step is fitted to the part `(u, v)` of the gradient on the support. -/
lemma fittedStep_eq (h : p.IsPair d₁ d₂ b₁ b₂)
    (hpart : Signal.gather #[g₁, g₂] s >>= Signal.embed 2 s = .ok #[u, v]) :
    GradientStep.fittedStep p.operator 2 s #[g₁, g₂]
      = .ok (if d₁ * u * (d₁ * u) + d₂ * v * (d₂ * v) = 0 then 1
        else (u * u + v * v) / (d₁ * u * (d₁ * u) + d₂ * v * (d₂ * v))) := by
  unfold GradientStep.fittedStep
  rw [← bind_assoc, hpart, Except.ok_bind]
  dsimp only
  rw [h.apply_eq, Except.ok_bind, Signal.normSq_pair, Signal.normSq_pair]
  refine congrArg Except.ok (if_congr ?_ rfl rfl)
  simp only [RealLike.isZero, Bool.or_eq_true, beq_iff_eq, or_iff_right_iff_imp]
  intro hzero
  -- nothing is seen of a part that is zero
  have hu : u = 0 := by nlinarith [mul_self_nonneg u, mul_self_nonneg v]
  have hv : v = 0 := by nlinarith [mul_self_nonneg u, mul_self_nonneg v]
  simp [hu, hv]

/-- A step that is fitted to the first coordinate. -/
lemma fittedStep_fst (h : p.IsPair d₁ d₂ b₁ b₂) (hd : d₁ ≠ 0) :
    GradientStep.fittedStep p.operator 2 #[0] #[g₁, g₂]
      = .ok (if g₁ = 0 then 1 else (d₁ * d₁)⁻¹) := by
  rw [h.fittedStep_eq (Signal.part_fst g₁ g₂)]
  by_cases hg : g₁ = 0
  · simp [hg]
  · simp [hg, hd]
    field_simp

/-- A step that is fitted to the second coordinate. -/
lemma fittedStep_snd (h : p.IsPair d₁ d₂ b₁ b₂) (hd : d₂ ≠ 0) :
    GradientStep.fittedStep p.operator 2 #[1] #[g₁, g₂]
      = .ok (if g₂ = 0 then 1 else (d₂ * d₂)⁻¹) := by
  rw [h.fittedStep_eq (Signal.part_snd g₁ g₂)]
  by_cases hg : g₂ = 0
  · simp [hg]
  · simp [hg, hd]
    field_simp

/-- A step that moves to another support is accepted if it is short enough, and halved otherwise.
Where nothing is seen of the move every step is short enough. -/
lemma backtrack_moved (h : p.IsPair d₁ d₂ b₁ b₂) {g : Signal ℝ} {t : Thresholded ℝ} {n : ℕ}
    (hmoved : t.indices ≠ s) (ht : t.toDense = #[u, v]) :
    GradientStep.backtrack p.operator #[x, y] g 1 s (n + 1) μ t
      = if μ * (d₁ * (u - x) * (d₁ * (u - x)) + d₂ * (v - y) * (d₂ * (v - y)))
          ≤ 99 / 100 * ((u - x) * (u - x) + (v - y) * (v - y)) then .ok ⟨t, true⟩
        else GradientStep.backtrack p.operator #[x, y] g 1 s n (μ / 2)
          (GradientStep.take #[x, y] g (μ / 2) 1) := by
  have hmove : Array.zipWith (· - ·) (#[u, v] : Signal ℝ) #[x, y] = #[u - x, v - y] := by simp
  have hshrink : (GradientStep.shrink : ℝ) = 99 / 100 := by
    show (1 : ℝ) - (1 : ℕ) / 10 ^ 2 = 99 / 100
    norm_num
  have hhalf : μ / RealLike.ofNat 2 = μ / 2 := rfl
  rw [GradientStep.backtrack, if_neg hmoved, ht, hmove]
  dsimp only
  rw [h.apply_eq, Except.ok_bind, Signal.normSq_pair, Signal.normSq_pair, hshrink, hhalf]
  have hsize := add_nonneg (mul_self_nonneg (u - x)) (mul_self_nonneg (v - y))
  have hseen := add_nonneg (mul_self_nonneg (d₁ * (u - x))) (mul_self_nonneg (d₂ * (v - y)))
  generalize (u - x) * (u - x) + (v - y) * (v - y) = size at *
  generalize d₁ * (u - x) * (d₁ * (u - x)) + d₂ * (v - y) * (d₂ * (v - y)) = seen at *
  -- the program divides by what is seen of the move, the condition here multiplies by it
  by_cases hzero : seen = 0
  · have hunseen : RealLike.isZero seen = true := decide_eq_true hzero
    rw [if_pos hunseen, hzero, mul_zero, if_pos (by positivity)]
    rfl
  · have hnonzero : ¬ RealLike.isZero seen = true := by simpa [RealLike.isZero] using hzero
    have hpos : 0 < seen := lt_of_le_of_ne hseen (Ne.symm hzero)
    have htest : RealLike.le μ (99 / 100 * size / seen) = true ↔ μ * seen ≤ 99 / 100 * size :=
      decide_eq_true_iff.trans (le_div_iff₀ hpos)
    rw [if_neg hnonzero, if_congr htest rfl rfl]
    rfl

/-- A normalized step backtracks from the fitted one. -/
lemma normalized_eq_backtrack {g : Signal ℝ} {s' : Array ℕ}
    (hs : GradientStep.fittedSupport s g 1 = s')
    (hμ : GradientStep.fittedStep p.operator 2 s' g = .ok μ) :
    GradientStep.normalized p.operator #[x, y] s g 1
      = GradientStep.backtrack p.operator #[x, y] g 1 s' GradientStep.maxHalvings μ
          (GradientStep.take #[x, y] g μ 1) := by
  unfold GradientStep.normalized
  rw [hs]
  show GradientStep.fittedStep p.operator 2 s' g >>= _ = _
  rw [hμ]
  rfl

/-- The fitted step is accepted if it keeps the first coordinate. -/
lemma normalized_of_kept (h : p.IsPair d₁ d₂ b₁ b₂) (hd : d₁ ≠ 0)
    (hs : GradientStep.fittedSupport s #[g₁, g₂] 1 = #[0])
    (hμ : (if g₁ = 0 then 1 else (d₁ * d₁)⁻¹) = μ) (hle : |y + g₂ * μ| ≤ |x + g₁ * μ|) :
    GradientStep.normalized p.operator #[x, y] s #[g₁, g₂] 1
      = .ok ⟨⟨#[0], #[x + g₁ * μ], 2⟩, true⟩ := by
  have hfitted : GradientStep.fittedStep p.operator 2 #[0] #[g₁, g₂] = .ok μ :=
    hμ ▸ h.fittedStep_fst hd
  rw [normalized_eq_backtrack hs hfitted, GradientStep.take_fst rfl hle]
  exact GradientStep.backtrack_of_kept rfl

/-- A round goes where its normalized step does. -/
lemma ihtRound_of_normalized (h : p.IsPair d₁ d₂ b₁ b₂) {t : GradientStep.Backtracked ℝ}
    (ht : GradientStep.normalized p.operator #[x, y] s #[d₁ * r₁, d₂ * r₂] 1 = .ok t)
    (hdense : t.next.toDense = #[u, v]) :
    p.ihtRound .normalized ⟨#[x, y], s, #[r₁, r₂]⟩
      = .ok ⟨#[u, v], t.next.indices, #[b₁ - d₁ * u, b₂ - d₂ * v]⟩ := by
  refine ihtRound_eq_ok.2 ⟨t.next, ?_, ?_⟩
  · unfold gradientStep GradientStep.advance
    dsimp only
    rw [h.applyAdjoint_eq, Except.ok_bind, h.sparsity_eq, ht]
    rfl
  · rw [hdense]
    exact h.estimate_eq _ _ _

/-- A round whose fitted step keeps the first coordinate. -/
lemma ihtRound_of_kept (h : p.IsPair d₁ d₂ b₁ b₂) (hd : d₁ ≠ 0)
    (hs : GradientStep.fittedSupport s #[d₁ * r₁, d₂ * r₂] 1 = #[0])
    (hμ : (if d₁ * r₁ = 0 then 1 else (d₁ * d₁)⁻¹) = μ)
    (hle : |y + d₂ * r₂ * μ| ≤ |x + d₁ * r₁ * μ|) :
    p.ihtRound .normalized ⟨#[x, y], s, #[r₁, r₂]⟩
      = .ok ⟨#[x + d₁ * r₁ * μ, 0], #[0], #[b₁ - d₁ * (x + d₁ * r₁ * μ), b₂ - d₂ * 0]⟩ :=
  h.ihtRound_of_normalized (h.normalized_of_kept hd hs hμ hle) (Thresholded.toDense_fst _)

/-- Backtracking stops at once at a step that keeps the support. -/
lemma backtrackFrom_eq (h : p.IsPair d₁ d₂ b₁ b₂)
    (hs : GradientStep.fittedSupport s #[d₁ * r₁, d₂ * r₂] 1 = #[0])
    (hle : |y + d₂ * r₂ * μ| ≤ |x + d₁ * r₁ * μ|) :
    p.backtrackFrom ⟨#[x, y], s, #[r₁, r₂]⟩ μ = .ok ⟨#[0], #[x + d₁ * r₁ * μ], 2⟩ := by
  have haccept : GradientStep.backtrack p.operator #[x, y] #[d₁ * r₁, d₂ * r₂] 1 #[0]
      GradientStep.maxHalvings μ ⟨#[0], #[x + d₁ * r₁ * μ], 2⟩
      = .ok ⟨⟨#[0], #[x + d₁ * r₁ * μ], 2⟩, true⟩ := GradientStep.backtrack_of_kept rfl
  unfold backtrackFrom
  dsimp only
  rw [h.applyAdjoint_eq, Except.ok_bind, h.sparsity_eq, hs, GradientStep.take_fst rfl hle, haccept]
  rfl

/-- An operator by a multiple multiplies the coordinates by multiples. -/
lemma scaled (h : p.IsPair d₁ d₂ b₁ b₂) (c : ℝ) : (p.scaled c).IsPair (d₁ * c) (d₂ * c) b₁ b₂ where
  sparsity_eq := h.sparsity_eq
  measurement_eq := h.measurement_eq
  apply_eq x y := by
    have happly := Operator.apply_scaled c (h.apply_eq x y)
    simp only [Signal.scale, List.map_toArray, List.map_cons, List.map_nil, mul_right_comm _ x,
      mul_right_comm _ y] at happly
    exact happly
  applyAdjoint_eq x y := by
    have happly := Operator.applyAdjoint_scaled c (h.applyAdjoint_eq x y)
    simp only [Signal.scale, List.map_toArray, List.map_cons, List.map_nil, mul_right_comm _ x,
      mul_right_comm _ y] at happly
    exact happly

end IsPair

end Problem

/-! ## Runs -/

/-- Two iterations at most, of normalized steps, unless the residual is zero or has not dropped. -/
def Options.twoRounds : Options ℝ where
  maxIterations := 2
  tolerance := 0
  stagnation := 0
  step := .normalized
  normIterations := 1

/-- The same for at most `n` iterations. -/
def Options.rounds (n : ℕ) : Options ℝ := { twoRounds with maxIterations := n }

namespace Problem

lemma validate_rounds {n : ℕ} (hn : 0 < n) : (Options.rounds n).validate = .ok () := by
  have hthreshold : Options.isThreshold (0 : ℝ) = true := Options.isThreshold_iff.2 le_rfl
  exact Options.validate_eq_ok.2 ⟨hn, hthreshold, hthreshold, fun _ h => nomatch h⟩

lemma validate_twoRounds : Options.twoRounds.validate = .ok () := validate_rounds two_pos

/-- Rounds that lower the norm, but not to zero, are a run that the cap ends. -/
lemma run_rounds {p : Problem ℝ} {u : ℕ} {e : ℕ → Estimate ℝ} (hstart : e 0 = p.start)
    (hround : ∀ s ≤ u, p.ihtRound .normalized (e s) = .ok (e (s + 1)))
    (hdown : ∀ s < u, (0 : ℝ) < residualNormAt e (s + 1) ∧
      (residualNormAt e (s + 1) : ℝ) < residualNormAt e s) :
    p.Run (.iht .normalized) (Options.rounds (u + 1)).convergence 0 u e fun _ => 0 := by
  refine ⟨⟨hstart, rfl, fun s hs => ?_⟩, fun s hs => ?_, ?_⟩
  · exact Solving.returns_ofExcept.2 ⟨hround s (Nat.le_of_lt_succ hs), rfl⟩
  · obtain ⟨hpos, hlt⟩ := hdown s hs
    have htolerance : RealLike.le (residualNormAt e (s + 1) : ℝ) 0 = false :=
      decide_eq_false (not_le.2 hpos)
    have hstagnation : RealLike.le ((residualNormAt e s : ℝ) - residualNormAt e (s + 1)) 0
        = false := decide_eq_false (not_le.2 (sub_pos.2 hlt))
    have hcap : ¬ u + 1 ≤ s + 1 := by omega
    unfold residualNormAt at htolerance hstagnation
    simp [Method.reasonsAt, Method.reasons, Convergence.check, StopReason.union,
      StopReason.shouldStop, StopReason.isConverged, Options.convergence, Options.rounds,
      Options.twoRounds, Method.stopsOnRepeat, residualNormAt, htolerance, hstagnation, hcap]
  · simp [Method.reasonsAt, Method.reasons, Convergence.check, StopReason.union,
      StopReason.shouldStop, Options.convergence, Options.rounds]

/-- The answer after two rounds of which the first one lowers the residual. -/
lemma pursue_twoRounds {p : Problem ℝ} {e₁ e₂ : Estimate ℝ}
    (h₁ : p.ihtRound .normalized p.start = .ok e₁) (h₂ : p.ihtRound .normalized e₁ = .ok e₂)
    (hpos : (0 : ℝ) < Signal.norm e₁.residual)
    (hlt : (Signal.norm e₁.residual : ℝ) < Signal.norm p.measurement) :
    ∃ r, (p.pursue .iht Options.twoRounds).Returns 0 r 0 ∧
      r.residualNorms = #[Signal.norm e₁.residual, Signal.norm e₂.residual] ∧
      r.support = if (Signal.norm e₂.residual : ℝ) < Signal.norm e₁.residual then e₂.support
        else e₁.support := by
  let e : ℕ → Estimate ℝ := prepend p.start (prepend e₁ fun _ => e₂)
  have hrun : p.Run (.iht .normalized) Options.twoRounds.convergence 0 1 e fun _ => 0 := by
    refine run_rounds rfl (fun s hs => ?_) fun s hs => ?_
    · rcases Nat.le_one_iff_eq_zero_or_eq_one.1 hs with rfl | rfl
      · exact h₁
      · exact h₂
    · obtain rfl : s = 0 := Nat.lt_one_iff.1 hs
      exact ⟨hpos, hlt⟩
  have hm : Algorithm.iht.method p.operator Options.twoRounds = .ok (.iht .normalized) := rfl
  have hreturns := hrun.returns_pursue hm one_lt_two
  have hfirst : RealLike.lt (Signal.norm e₁.residual : ℝ) (Signal.norm p.measurement) = true :=
    decide_eq_true hlt
  refine ⟨_, hreturns, ?_, ?_⟩
  · simp only [Record.finish, norms_recordAt]
    rfl
  · have hbest := (recordAt_best (R := ℝ) hrun.start 2).2.1
    simp only [Record.finish, hbest]
    have hone : bestIndex (residualNormAt (R := ℝ) e) 1 = 1 := if_pos hfirst
    rw [bestIndex, hone]
    show (e (if decide _ = true then 2 else 1)).support = _
    simp only [decide_eq_true_eq]
    split
    · rename_i hbetter
      exact (if_pos hbetter).symm
    · rename_i hworse
      exact (if_neg hworse).symm

/-! ## A pair at two scales -/

/-- A pair whose second coordinate is seen at a quarter of its size. -/
noncomputable def unevenPair : Problem ℝ where
  operator := Diagonal.toOperator ⟨#[1, 1 / (4 : ℕ)]⟩
  measurement := #[(5 : ℕ), (16 : ℕ)]
  sparsity := 1
  backend := .shortest

lemma isPair_unevenPair : unevenPair.IsPair 1 (1 / 4) 5 16 :=
  ⟨rfl, rfl, fun _ _ => rfl, fun _ _ => rfl⟩

lemma isPair_scaled_unevenPair : (unevenPair.scaled 2).IsPair 2 (1 / 2) 5 16 := by
  have hscaled := isPair_unevenPair.scaled 2
  norm_num at hscaled
  exact hscaled

lemma linear_unevenPair : unevenPair.Linear (diagonal (Signal.coords 2 #[1, 1 / 4])) :=
  ⟨(Operator.hasMatrix_diagonal _).hasImages, rfl⟩

lemma lt_norm_measurement_unevenPair : (16 : ℝ) < Signal.norm unevenPair.measurement := by
  rw [unevenPair, Signal.norm_pair]
  exact Real.lt_sqrt_of_sq_lt (by norm_num)

/-- The first coordinate is fitted, and the second one is left. -/
def fstFit (x : ℝ) : Estimate ℝ := ⟨#[x, 0], #[0], #[0, (16 : ℕ)]⟩

/-- The second coordinate, from the fit of the first one. -/
def sndStep : Estimate ℝ := ⟨#[0, (8 : ℕ)], #[1], #[(5 : ℕ), (12 : ℕ)]⟩

/-- The second coordinate, one more step on. -/
def sndFurther : Estimate ℝ := ⟨#[0, (14 : ℕ)], #[1], #[(5 : ℕ), (9 : ℕ)]⟩

lemma norm_fstFit (x : ℝ) : (Signal.norm (fstFit x).residual : ℝ) = 16 := by
  rw [fstFit, Signal.norm_pair, mul_zero, zero_add, Real.sqrt_mul_self (Nat.cast_nonneg _),
    Nat.cast_ofNat]

lemma norm_sndStep : (Signal.norm sndStep.residual : ℝ) = 13 := by
  rw [sndStep, Signal.norm_pair, Nat.cast_ofNat, Nat.cast_ofNat,
    show (5 * 5 + 12 * 12 : ℝ) = 13 * 13 by norm_num, Real.sqrt_mul_self (by norm_num)]

lemma fittedSupport_fst (g : Signal ℝ) : GradientStep.fittedSupport #[0] g 1 = #[0] := rfl

lemma ihtRound_start_unevenPair :
    unevenPair.ihtRound .normalized unevenPair.start = .ok (fstFit 5) := by
  have hs : GradientStep.fittedSupport #[] (#[1 * 5, 1 / 4 * 16] : Signal ℝ) 1 = #[0] :=
    Support.largest_pair_of_le (by norm_num)
  have hround := isPair_unevenPair.ihtRound_of_kept (x := 0) (y := 0) one_ne_zero hs rfl
    (by norm_num)
  norm_num at hround
  exact hround

/-- The second coordinate does not get in. -/
lemma ihtRound_fstFit_unevenPair :
    unevenPair.ihtRound .normalized (fstFit 5) = .ok (fstFit 5) := by
  have hround := isPair_unevenPair.ihtRound_of_kept (x := 5) (y := 0) one_ne_zero
    (fittedSupport_fst #[1 * 0, 1 / 4 * 16]) rfl (by norm_num)
  norm_num at hround
  exact hround

/-- At twice the scale the estimate is half as large. -/
lemma normalized_start_scaled_unevenPair :
    GradientStep.normalized (unevenPair.scaled 2).operator #[0, 0] #[] #[2 * 5, 1 / 2 * 16] 1
      = .ok ⟨⟨#[0], #[5 / 2], 2⟩, true⟩ := by
  have hs : GradientStep.fittedSupport #[] (#[2 * 5, 1 / 2 * 16] : Signal ℝ) 1 = #[0] :=
    Support.largest_pair_of_le (by norm_num)
  have hμ : (if (2 * 5 : ℝ) = 0 then 1 else (2 * 2 : ℝ)⁻¹) = 1 / 4 := by norm_num
  rw [isPair_scaled_unevenPair.normalized_of_kept two_ne_zero hs hμ (by norm_num)]
  norm_num

lemma ihtRound_start_scaled_unevenPair :
    (unevenPair.scaled 2).ihtRound .normalized unevenPair.start = .ok (fstFit (5 / 2)) := by
  have hround := isPair_scaled_unevenPair.ihtRound_of_normalized normalized_start_scaled_unevenPair
    (Thresholded.toDense_fst _)
  norm_num at hround
  exact hround

/-- The gradient is twice as large there. With nothing to fit, a step of one lets the second
coordinate in, and the move is short enough. -/
lemma normalized_fstFit_scaled_unevenPair :
    GradientStep.normalized (unevenPair.scaled 2).operator #[5 / 2, 0] #[0] #[2 * 0, 1 / 2 * 16] 1
      = .ok ⟨⟨#[1], #[8], 2⟩, true⟩ := by
  have hfitted : GradientStep.fittedStep (unevenPair.scaled 2).operator 2 #[0]
      #[2 * 0, 1 / 2 * 16] = .ok (1 : ℝ) := by
    rw [isPair_scaled_unevenPair.fittedStep_fst two_ne_zero, mul_zero, if_pos rfl]
  have htake : GradientStep.take #[5 / 2, 0] (#[2 * 0, 1 / 2 * 16] : Signal ℝ) (1 : ℝ) 1
      = ⟨#[1], #[8], 2⟩ := GradientStep.take_snd (by norm_num) (by norm_num)
  rw [IsPair.normalized_eq_backtrack (fittedSupport_fst _) hfitted, htake,
    GradientStep.maxHalvings, isPair_scaled_unevenPair.backtrack_moved (by decide)
      (Thresholded.toDense_snd 8), if_pos (by norm_num)]

lemma ihtRound_fstFit_scaled_unevenPair :
    (unevenPair.scaled 2).ihtRound .normalized (fstFit (5 / 2)) = .ok sndStep := by
  have hround := isPair_scaled_unevenPair.ihtRound_of_normalized
    normalized_fstFit_scaled_unevenPair (Thresholded.toDense_snd _)
  norm_num at hround
  exact hround

/-- The step fitted to the second coordinate would let the first one in again, and so would half of
it. A quarter of it keeps the second coordinate. -/
lemma normalized_sndStep_scaled_unevenPair :
    GradientStep.normalized (unevenPair.scaled 2).operator #[0, 8] #[1] #[2 * 5, 1 / 2 * 12] 1
      = .ok ⟨⟨#[1], #[14], 2⟩, true⟩ := by
  have hfitted : GradientStep.fittedStep (unevenPair.scaled 2).operator 2 #[1]
      #[2 * 5, 1 / 2 * 12] = .ok (4 : ℝ) := by
    rw [isPair_scaled_unevenPair.fittedStep_snd (by norm_num)]
    norm_num
  have htake : GradientStep.take #[0, 8] (#[2 * 5, 1 / 2 * 12] : Signal ℝ) (4 : ℝ) 1
      = ⟨#[0], #[40], 2⟩ := GradientStep.take_fst (by norm_num) (by norm_num)
  have hhalf : GradientStep.take #[0, 8] (#[2 * 5, 1 / 2 * 12] : Signal ℝ) (4 / 2 : ℝ) 1
      = ⟨#[0], #[20], 2⟩ := GradientStep.take_fst (by norm_num) (by norm_num)
  have hquarter : GradientStep.take #[0, 8] (#[2 * 5, 1 / 2 * 12] : Signal ℝ) (4 / 2 / 2 : ℝ) 1
      = ⟨#[1], #[14], 2⟩ := GradientStep.take_snd (by norm_num) (by norm_num)
  have hs (g : Signal ℝ) : GradientStep.fittedSupport #[1] g 1 = #[1] := rfl
  rw [IsPair.normalized_eq_backtrack (hs _) hfitted, htake, GradientStep.maxHalvings,
    isPair_scaled_unevenPair.backtrack_moved (by decide) (Thresholded.toDense_fst 40),
    if_neg (by norm_num), hhalf,
    isPair_scaled_unevenPair.backtrack_moved (by decide) (Thresholded.toDense_fst 20),
    if_neg (by norm_num), hquarter]
  exact GradientStep.backtrack_of_kept rfl

lemma ihtRound_sndStep_scaled_unevenPair :
    (unevenPair.scaled 2).ihtRound .normalized sndStep = .ok sndFurther := by
  have hround := isPair_scaled_unevenPair.ihtRound_of_normalized
    normalized_sndStep_scaled_unevenPair (Thresholded.toDense_snd _)
  norm_num at hround
  exact hround

end Problem
end CompressedSensing
