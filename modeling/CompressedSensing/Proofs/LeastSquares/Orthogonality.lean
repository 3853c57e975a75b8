import Mathlib
import CompressedSensing.Proofs.LeastSquares.Shortest
import CompressedSensing.Proofs.Signal.LineSearch
/-!
# Least squares by orthogonality

A vector leaves least just if what it leaves is orthogonal to the columns of the matrix, since a
step along the gradient would leave less. Of the vectors that leave least, which differ by what the
matrix does not see, the shortest is the one that is orthogonal to all of that. The vectors in the
range of the adjoint are.
-/

namespace CompressedSensing

open Matrix Reals
open scoped ExactScalar

variable {T : Type} [Scalar T ℝ] [NormedScalar T] {m n : ℕ} {M : Matrix (Fin m) (Fin n) T}
  {b : Fin m → T} {z : Fin n → T}

/-- What is left is split at a residual that is orthogonal to the columns. -/
lemma energy_sub_mulVec_eq (hresidual : Mᴴ *ᵥ (b - M *ᵥ z) = 0) (y : Fin n → T) :
    energy (b - M *ᵥ y) = energy (b - M *ᵥ z) + energy (M *ᵥ (z - y)) := by
  have horthogonal : star (b - M *ᵥ z) ⬝ᵥ (M *ᵥ (z - y)) = 0 := by
    rw [star_dotProduct, Operator.star_mulVec_dotProduct, hresidual, dotProduct_zero, star_zero]
  rw [← energy_add_of_orthogonal horthogonal, mulVec_sub]
  congr 1
  abel

/-- The vectors that leave least are the solutions of the normal equations. -/
theorem forall_energy_le_iff :
    (∀ w : Fin n → T, energy (b - M *ᵥ z) ≤ energy (b - M *ᵥ w)) ↔
      Mᴴ *ᵥ (b - M *ᵥ z) = 0 := by
  constructor
  · intro hleast
    by_contra hne
    -- a step along the gradient leaves less
    have hstep := (partOf_self (Mᴴ *ᵥ (b - M *ᵥ z))).energy_step_lt hne
    rw [sub_sub, ← mulVec_add] at hstep
    exact hstep.not_ge (hleast _)
  · intro hresidual w
    rw [energy_sub_mulVec_eq hresidual w]
    exact le_add_of_nonneg_right (energy_nonneg _)

namespace ShortestFit

/-- The part along a vector that the matrix does not see could be left out. -/
lemma orthogonal (h : ShortestFit M b z) {w : Fin n → T} (hw : M *ᵥ w = 0) : star w ⬝ᵥ z = 0 := by
  by_cases hzero : w = 0
  · rw [hzero, star_zero, zero_dotProduct]
  · have hsize : (Scalar.ofReal (energy w) : T) ≠ 0 :=
      NormedScalar.ofReal_ne_zero (energy_pos hzero).ne'
    let c := (star w ⬝ᵥ z) / Scalar.ofReal (energy w)
    have horthogonal : star w ⬝ᵥ (z - c • w) = 0 := by
      rw [dotProduct_sub, dotProduct_smul, ← ofReal_energy, smul_eq_mul,
        NormedScalar.div_mul_cancel _ _ hsize, sub_self]
    have himage : M *ᵥ (z - c • w) = M *ᵥ z := by
      rw [mulVec_sub, mulVec_smul, hw, smul_zero, sub_zero]
    have hshort := h.shortest (z - c • w) (by rw [himage])
    have hsplit := energy_add_of_orthogonal (u := c • w) (v := z - c • w) (by
      rw [star_smul, smul_dotProduct, horthogonal, smul_zero])
    rw [add_sub_cancel] at hsplit
    have hpart : c • w = 0 := eq_zero_of_energy (by linarith [energy_nonneg (c • w)])
    rwa [hpart, sub_zero] at horthogonal

end ShortestFit

/-- Shortest least-squares solutions are known by two orthogonality relations. -/
theorem shortestFit_iff :
    ShortestFit M b z ↔
      Mᴴ *ᵥ (b - M *ᵥ z) = 0 ∧ ∀ w : Fin n → T, M *ᵥ w = 0 → star w ⬝ᵥ z = 0 := by
  constructor
  · intro h
    exact ⟨forall_energy_le_iff.1 h.fits, fun w hw => h.orthogonal hw⟩
  · rintro ⟨hresidual, horthogonal⟩
    refine ⟨forall_energy_le_iff.2 hresidual, fun y hy => ?_⟩
    -- what `y` has more than `z` is not seen
    have hunseen : M *ᵥ (y - z) = 0 := by
      have hgap : energy (M *ᵥ (z - y)) = 0 :=
        le_antisymm (by linarith [energy_sub_mulVec_eq hresidual y]) (energy_nonneg _)
      rw [← neg_sub, mulVec_neg, eq_zero_of_energy hgap, neg_zero]
    have hlong := energy_add_of_orthogonal (horthogonal _ hunseen)
    rw [sub_add_cancel] at hlong
    linarith [energy_nonneg (y - z)]

/-- A vector in the range of the adjoint whose residual the adjoint annihilates is the shortest
least-squares solution. -/
lemma ShortestFit.of_adjoint {w : Fin m → T} (hresidual : Mᴴ *ᵥ (b - M *ᵥ z) = 0)
    (hrange : z = Mᴴ *ᵥ w) : ShortestFit M b z := by
  refine shortestFit_iff.2 ⟨hresidual, fun y hy => ?_⟩
  rw [hrange, ← Operator.star_mulVec_dotProduct, hy, star_zero, zero_dotProduct]

end CompressedSensing
