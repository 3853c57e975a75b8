import Mathlib
import CompressedSensing.Proofs.Recovery.Isometry
/-!
# The norm estimate is a lower bound that grows

The power iteration repeats one step: a vector is mapped by `B = Aᴴ A` and divided by the length of
its image, and that length is what the estimate is the root of. Two facts on one step give all that
is known of a run, for vectors `u` that are not longer than one:

* the length of the image does not fall, since `‖B u‖² = ⟨u, B B u⟩ ≤ ‖B B u‖`;
* it is at most `C²` for every bound `C` of the operator, since `‖B u‖² = ⟨A u, A B u⟩`.

The early end of the iteration at a length of zero agrees with the steps that it leaves out, because
the next vector would be zero as well.
-/

namespace CompressedSensing

open Matrix Reals
open scoped ExactScalar

variable {T : Type} [Scalar T ℝ] [NormedScalar T] {m n : ℕ}

namespace PowerIteration

variable {M : Matrix (Fin m) (Fin n) T} {u : Fin n → T}

/-! ## One step -/

/-- The vector divided by its length. -/
noncomputable def direction (u : Fin n → T) : Fin n → T :=
  (Scalar.ofReal (1 / Real.sqrt (energy u)) : T) • u

/-- A direction is not longer than one; that of zero is zero. -/
lemma energy_direction_le (u : Fin n → T) : energy (direction u) ≤ 1 := by
  rw [direction, energy_smul, NormedScalar.normSq_ofReal, div_mul_div_comm, one_mul,
    Real.mul_self_sqrt (energy_nonneg u), one_div]
  exact inv_mul_le_one

/-- The length of the image under `Mᴴ M`. -/
noncomputable def gain (M : Matrix (Fin m) (Fin n) T) (u : Fin n → T) : ℝ :=
  Real.sqrt (energy ((Mᴴ * M) *ᵥ u))

/-- The direction of the image. -/
noncomputable def next (M : Matrix (Fin m) (Fin n) T) (u : Fin n → T) : Fin n → T :=
  direction ((Mᴴ * M) *ᵥ u)

lemma gain_nonneg (u : Fin n → T) : 0 ≤ gain M u := Real.sqrt_nonneg _

/-- The squared gain is the energy of the image. -/
lemma gain_mul_gain (u : Fin n → T) : gain M u * gain M u = energy ((Mᴴ * M) *ᵥ u) :=
  Real.mul_self_sqrt (energy_nonneg _)

/-- The gain scales with a factor that is not negative. -/
lemma gain_smul (r : ℝ) (hr : 0 ≤ r) (u : Fin n → T) :
    gain M ((Scalar.ofReal r : T) • u) = r * gain M u := by
  rw [gain, mulVec_smul, energy_smul, NormedScalar.normSq_ofReal,
    Real.sqrt_mul (mul_self_nonneg r), Real.sqrt_mul_self hr]
  rfl

/-- A vector without gain is not seen at all. -/
lemma mulVec_eq_zero_of_gain (h : gain M u = 0) : (Mᴴ * M) *ᵥ u = 0 := by
  apply eq_zero_of_energy
  rw [← gain_mul_gain, h, zero_mul]

lemma gain_zero : gain M 0 = 0 := by
  rw [gain, mulVec_zero, energy_zero, Real.sqrt_zero]

/-- After a vector without gain comes zero. -/
lemma next_eq_zero (h : gain M u = 0) : next M u = 0 := by
  rw [next, direction, mulVec_eq_zero_of_gain h, smul_zero]

/-- The gain of the next vector, undivided. -/
lemma gain_mul_gain_next (u : Fin n → T) :
    gain M u * gain M (next M u) = gain M ((Mᴴ * M) *ᵥ u) := by
  have hnext : gain M (next M u) = 1 / gain M u * gain M ((Mᴴ * M) *ᵥ u) :=
    gain_smul _ (one_div_nonneg.2 (gain_nonneg u)) _
  by_cases hzero : gain M u = 0
  · rw [hzero, zero_mul, mulVec_eq_zero_of_gain hzero, gain_zero]
  · rw [hnext, ← mul_assoc, mul_one_div_cancel hzero, one_mul]

/-- The gain does not fall. -/
lemma gain_le_gain_next (hu : energy u ≤ 1) : gain M u ≤ gain M (next M u) := by
  have hproduct : star u ⬝ᵥ ((Mᴴ * M) *ᵥ ((Mᴴ * M) *ᵥ u))
      = Scalar.ofReal (gain M u * gain M u) := by
    rw [gain_mul_gain, ofReal_energy, Operator.star_mulVec_dotProduct, conjTranspose_mul,
      conjTranspose_conjTranspose]
  have hschwarz := le_sqrt_energy_mul_sqrt_energy hproduct
  have hshort : Real.sqrt (energy u) ≤ 1 := Real.sqrt_le_one.2 hu
  have hbound : gain M u * gain M u ≤ gain M u * gain M (next M u) := by
    rw [gain_mul_gain_next]
    exact hschwarz.trans (mul_le_of_le_one_left (Real.sqrt_nonneg _) hshort)
  by_cases hzero : gain M u = 0
  · rw [hzero]
    exact gain_nonneg _
  · exact le_of_mul_le_mul_left hbound ((gain_nonneg u).lt_of_ne (Ne.symm hzero))

/-- A bound of the operator bounds the root of the gain. -/
lemma sqrt_gain_le (hu : energy u ≤ 1) {C : ℝ} (hC : 0 ≤ C)
    (hbound : ∀ v : Fin n → T, Real.sqrt (energy (M *ᵥ v)) ≤ C * Real.sqrt (energy v)) :
    Real.sqrt (gain M u) ≤ C := by
  have hproduct : star (M *ᵥ u) ⬝ᵥ (M *ᵥ ((Mᴴ * M) *ᵥ u))
      = Scalar.ofReal (gain M u * gain M u) := by
    rw [gain_mul_gain, ofReal_energy, Operator.star_mulVec_dotProduct,
      Operator.star_mulVec_dotProduct, conjTranspose_mul, conjTranspose_conjTranspose,
      mulVec_mulVec, mulVec_mulVec]
  have hschwarz := le_sqrt_energy_mul_sqrt_energy hproduct
  have hfirst : Real.sqrt (energy (M *ᵥ u)) ≤ C :=
    (hbound u).trans (mul_le_of_le_one_right hC (Real.sqrt_le_one.2 hu))
  have hsecond : Real.sqrt (energy (M *ᵥ ((Mᴴ * M) *ᵥ u))) ≤ C * gain M u := hbound _
  have hsquare : gain M u * gain M u ≤ C ^ 2 * gain M u := by
    refine hschwarz.trans ((mul_le_mul hfirst hsecond (Real.sqrt_nonneg _) hC).trans_eq ?_)
    ring
  rw [Real.sqrt_le_left hC]
  by_cases hzero : gain M u = 0
  · rw [hzero]
    positivity
  · exact le_of_mul_le_mul_right hsquare ((gain_nonneg u).lt_of_ne (Ne.symm hzero))

/-! ## A run -/

/-- The iterates of a start not longer than one are not longer than one. -/
lemma energy_iterate_le (hu : energy u ≤ 1) (k : ℕ) : energy ((next M)^[k] u) ≤ 1 := by
  cases k with
  | zero => exact hu
  | succ k =>
    rw [Function.iterate_succ_apply']
    exact energy_direction_le _

/-- The gain does not fall along a run. -/
lemma gain_iterate_le_succ (hu : energy u ≤ 1) (k : ℕ) :
    gain M ((next M)^[k] u) ≤ gain M ((next M)^[k + 1] u) := by
  rw [Function.iterate_succ_apply']
  exact gain_le_gain_next (energy_iterate_le hu k)

/-- A run sees nothing at some step just if it sees nothing of its start. -/
lemma gain_iterate_eq_zero_iff (hu : energy u ≤ 1) (k : ℕ) :
    gain M ((next M)^[k] u) = 0 ↔ gain M u = 0 := by
  induction k with
  | zero => rfl
  | succ k ih =>
    rw [← ih]
    constructor
    · intro h
      exact le_antisymm ((gain_iterate_le_succ hu k).trans_eq h) (gain_nonneg _)
    · intro h
      rw [Function.iterate_succ_apply', next_eq_zero h, gain_zero]

end PowerIteration

namespace Operator

open PowerIteration

variable {a : Operator T} {M : Matrix (Fin m) (Fin n) T}

/-- A step ends the iteration where there is no gain, and goes on in the direction of the image
otherwise. -/
lemma HasImages.powerIteration_succ (h : a.HasImages M) (steps : ℕ) (u : Fin n → T) (last : ℝ) :
    a.powerIteration (steps + 1) (Array.ofFn u) last
      = if gain M u = 0 then .ok 0
        else a.powerIteration steps (Array.ofFn (next M u)) (gain M u) := by
  have hlength : (Signal.norm (Array.ofFn ((Mᴴ * M) *ᵥ u)) : ℝ) = gain M u := by
    rw [Signal.norm_eq_sqrt_energy Array.size_ofFn, Signal.coords_ofFn, gain]
  rw [powerIteration, ← bind_assoc, h.apply_bind_applyAdjoint Array.size_ofFn, Except.ok_bind,
    Signal.coords_ofFn]
  dsimp only
  rw [hlength, Signal.scale_ofFn]
  by_cases hzero : gain M u = 0
  · rw [if_pos hzero, if_pos (by simp [RealLike.isZero, hzero])]
    rfl
  · have hgoes : ¬ (RealLike.isZero (gain M u) || !RealLike.isFinite (gain M u)) = true := by
      have hfinite : RealLike.isFinite (gain M u) = true := rfl
      simp [RealLike.isZero, hfinite, hzero]
    rw [if_neg hzero, if_neg hgoes]
    rfl

/-- The iteration ends with the root of the last gain, also if it ends early. -/
lemma HasImages.powerIteration_eq (h : a.HasImages M) (steps : ℕ) (u : Fin n → T) (last : ℝ) :
    a.powerIteration (steps + 1) (Array.ofFn u) last
      = .ok (Real.sqrt (gain M ((next M)^[steps] u))) := by
  induction steps generalizing u last with
  | zero =>
    rw [h.powerIteration_succ]
    split
    · rename_i hzero
      rw [Function.iterate_zero_apply, hzero, Real.sqrt_zero]
    · rfl
  | succ steps ih =>
    rw [h.powerIteration_succ, Function.iterate_succ_apply]
    split
    · rename_i hzero
      -- all vectors that were left out are zero
      rw [next_eq_zero hzero, (gain_iterate_eq_zero_iff (by simp) steps).2 gain_zero,
        Real.sqrt_zero]
    · exact ih _ _

/-- The values that the estimate takes for the numbers `0, 1, 2, …` of steps, from any start. -/
lemma HasImages.normEstimateFrom_eq (h : a.HasImages M) {start : Signal T} (hstart : start.size = n)
    (steps : ℕ) : (a.normEstimateFrom start steps : Except Error ℝ)
      = .ok (Real.sqrt (gain M ((next M)^[steps - 1] (direction (Signal.coords n start))))) := by
  have hdirection : Signal.scale (Scalar.ofReal (RealLike.recip (Signal.norm start : ℝ))) start
      = Array.ofFn (direction (Signal.coords n start)) := by
    rw [← Signal.ofFn_coords start hstart, Signal.scale_ofFn,
      Signal.norm_eq_sqrt_energy Array.size_ofFn, Signal.coords_ofFn]
    rfl
  have hsteps : max steps 1 = steps - 1 + 1 := by omega
  rw [normEstimateFrom, hdirection, hsteps, h.powerIteration_eq]

/-! ## Lower bounds -/

/-- The numbers never fall, none of them exceeds a bound of the operator, and if one of them is zero
then all are. -/
structure GrowingLowerBounds (a : Operator T) (σ : ℕ → ℝ) : Prop where
  nonneg (t : ℕ) : 0 ≤ σ t
  le_succ (t : ℕ) : σ t ≤ σ (t + 1)
  le_of_bound (C : ℝ) : 0 ≤ C →
    (∀ v av : Signal T, v.size = a.cols → a.apply v = .ok av →
      (Signal.norm av : ℝ) ≤ C * Signal.norm v) → ∀ t, σ t ≤ C
  eq_zero (s t : ℕ) : σ s = 0 → σ t = 0

/-- A bound on the lengths of images is one for the matrix. -/
lemma HasImages.sqrt_energy_mulVec_le {M : Matrix (Fin a.rows) (Fin a.cols) T} (h : a.HasImages M)
    {C : ℝ} (hbound : ∀ v av : Signal T, v.size = a.cols → a.apply v = .ok av →
      (Signal.norm av : ℝ) ≤ C * Signal.norm v) (v : Fin a.cols → T) :
    Real.sqrt (energy (M *ᵥ v)) ≤ C * Real.sqrt (energy v) := by
  have hv := hbound (Array.ofFn v) _ Array.size_ofFn (h.apply_eq _ Array.size_ofFn)
  rwa [Signal.norm_eq_sqrt_energy Array.size_ofFn, Signal.norm_eq_sqrt_energy Array.size_ofFn,
    Signal.coords_ofFn, Signal.coords_ofFn] at hv

/-- The roots of the gains along a run are growing lower bounds of the norm. -/
lemma HasImages.growingLowerBounds {M : Matrix (Fin a.rows) (Fin a.cols) T} (h : a.HasImages M)
    {u : Fin a.cols → T} (hu : energy u ≤ 1) :
    a.GrowingLowerBounds fun t => Real.sqrt (gain M ((next M)^[t - 1] u)) where
  nonneg _ := Real.sqrt_nonneg _
  le_succ t := by
    refine Real.sqrt_le_sqrt ?_
    cases t with
    | zero => exact le_rfl
    | succ t => exact gain_iterate_le_succ hu t
  le_of_bound C hC hbound t :=
    sqrt_gain_le (energy_iterate_le hu _) hC (h.sqrt_energy_mulVec_le hbound)
  eq_zero s t hs := by
    rw [Real.sqrt_eq_zero (gain_nonneg _), gain_iterate_eq_zero_iff hu] at hs ⊢
    exact hs

/-- If the two maps of an operator are adjoint, the estimates of its norm exist, from any start and
from the one that is drawn: with more steps they do not fall, they stay below every bound of the
operator, and they are zero for all numbers of steps or for none. -/
theorem Adjunction.normEstimate_growing (h : a.Adjunction) :
    (∀ start : Signal T, start.size = a.cols → ∃ σ : ℕ → ℝ,
      (∀ t, a.normEstimateFrom start t = .ok (σ t)) ∧ a.GrowingLowerBounds σ) ∧
    ∃ σ : ℕ → ℝ, (∀ t, a.normEstimate t = .ok (σ t)) ∧ a.GrowingLowerBounds σ := by
  obtain ⟨M, hM⟩ := h.exists_hasImages
  have hfrom (start : Signal T) (hstart : start.size = a.cols) : ∃ σ : ℕ → ℝ,
      (∀ t, a.normEstimateFrom start t = .ok (σ t)) ∧ a.GrowingLowerBounds σ :=
    ⟨_, hM.normEstimateFrom_eq hstart, hM.growingLowerBounds (energy_direction_le _)⟩
  refine ⟨hfrom, ?_⟩
  by_cases hcols : a.cols = 0
  · refine ⟨fun _ => 0, fun t => ?_, ?_⟩
    · rw [hM.normEstimate_eq, if_pos hcols]
    · exact ⟨fun _ => le_rfl, fun _ => le_rfl, fun _ hC _ _ => hC, fun _ _ _ => rfl⟩
  · obtain ⟨σ, hσ, hgrows⟩ := hfrom (normStart a.cols) (Normal.size_drawSignal _ _)
    refine ⟨σ, fun t => ?_, hgrows⟩
    rw [hM.normEstimate_eq, if_neg hcols, hσ]

/-- The weights three and four, started from equal entries. The bound four is not exceeded. -/
theorem normEstimate_growing_diagonal :
    let a : Operator ℝ := Diagonal.toOperator ⟨#[3, 4]⟩
    a.Adjunction ∧ (#[1, 1] : Signal ℝ).size = a.cols ∧
    (∀ v av : Signal ℝ, v.size = a.cols → a.apply v = .ok av →
      (Signal.norm av : ℝ) ≤ 4 * Signal.norm v) ∧
    (∃ σ : ℕ → ℝ, (∀ t, a.normEstimateFrom #[1, 1] t = .ok (σ t)) ∧ a.GrowingLowerBounds σ ∧
      ∀ t, σ t ≤ 4) ∧
    ∃ σ : ℕ → ℝ, (∀ t, a.normEstimate t = .ok (σ t)) ∧ ∀ t, σ t ≤ 4 := by
  intro a
  have hM := (hasMatrix_diagonal (⟨#[3, 4]⟩ : Diagonal ℝ)).hasImages
  have hbound (v av : Signal ℝ) (hv : v.size = a.cols) (hav : a.apply v = .ok av) :
      (Signal.norm av : ℝ) ≤ 4 * Signal.norm v := by
    rw [hM.apply_eq v hv] at hav
    obtain rfl := Except.ok.inj hav
    rw [Signal.norm_eq_sqrt_energy Array.size_ofFn, Signal.norm_eq_sqrt_energy hv,
      Signal.coords_ofFn, Real.sqrt_le_left (by positivity), mul_pow,
      Real.sq_sqrt (energy_nonneg _), energy, energy, Finset.mul_sum]
    refine Finset.sum_le_sum fun i _ => ?_
    rw [mulVec_diagonal, NormedScalar.normSq_mul]
    refine mul_le_mul_of_nonneg_right ?_ (mul_self_nonneg _)
    fin_cases i
    · show (3 : ℝ) * 3 ≤ 4 ^ 2
      norm_num
    · show (4 : ℝ) * 4 ≤ 4 ^ 2
      norm_num
  obtain ⟨hfrom, σ, hσ, hgrows⟩ := hM.adjunction.normEstimate_growing
  obtain ⟨τ, hτ, hgrowsτ⟩ := hfrom #[1, 1] rfl
  exact ⟨hM.adjunction, rfl, hbound,
    ⟨τ, hτ, hgrowsτ, hgrowsτ.le_of_bound 4 (by norm_num) hbound⟩,
    σ, hσ, hgrows.le_of_bound 4 (by norm_num) hbound⟩

end Operator
end CompressedSensing
