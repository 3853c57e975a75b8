import Mathlib
import CompressedSensing.Proofs.Operator.AdjointLaw
import CompressedSensing.Proofs.Scalar.Normed
/-!
# Energies

The energy of a vector is its squared norm. Energies of orthogonal vectors add up, so a matrix `M`
with orthonormal columns has one least-squares solution, which is `Mᴴ b`.
-/

namespace CompressedSensing

open Matrix Reals
open scoped ExactScalar

variable {T : Type} [Scalar T ℝ] [EuclideanScalar T] {m n : ℕ}

/-- The squared norm `‖v‖²`. -/
def energy (v : Fin n → T) : ℝ := ∑ i, Scalar.normSq (v i)

lemma energy_nonneg (v : Fin n → T) : 0 ≤ energy v :=
  Finset.sum_nonneg fun i _ => EuclideanScalar.normSq_nonneg (v i)

/-- The energy is the product of a vector with itself. -/
lemma ofReal_energy (v : Fin n → T) : Scalar.ofReal (energy v) = star v ⬝ᵥ v := by
  have hsum := map_sum (AddMonoidHom.mk' (Scalar.ofReal : ℝ → T) EuclideanScalar.ofReal_add)
    (fun i => Scalar.normSq (v i)) Finset.univ
  refine hsum.trans (Finset.sum_congr rfl fun i _ => ?_)
  exact (EuclideanScalar.conj_mul_self (v i)).symm

lemma eq_zero_of_energy {v : Fin n → T} (h : energy v = 0) : v = 0 := by
  funext i
  refine EuclideanScalar.eq_zero_of_normSq (v i) ?_
  exact (Finset.sum_eq_zero_iff_of_nonneg fun i _ => EuclideanScalar.normSq_nonneg (v i)).1 h i
    (Finset.mem_univ i)

lemma energy_pos {v : Fin n → T} (hv : v ≠ 0) : 0 < energy v := by
  apply (energy_nonneg v).lt_of_ne
  intro hzero
  exact hv (eq_zero_of_energy hzero.symm)

lemma ofReal_energy_sub (u v : Fin n → T) :
    (Scalar.ofReal (energy (u - v)) : T)
      = Scalar.ofReal (energy u) - (star u ⬝ᵥ v + star v ⬝ᵥ u) + Scalar.ofReal (energy v) := by
  rw [ofReal_energy, ofReal_energy, ofReal_energy, star_sub, sub_dotProduct, dotProduct_sub,
    dotProduct_sub]
  ring

/-- The parallelogram law. -/
lemma energy_add_add_energy_sub (u v : Fin n → T) :
    energy (u + v) + energy (u - v) = energy u + energy u + (energy v + energy v) := by
  refine EuclideanScalar.ofReal_injective (T := T) ?_
  simp only [EuclideanScalar.ofReal_add, ofReal_energy, star_sub, star_add, sub_dotProduct,
    dotProduct_sub, add_dotProduct, dotProduct_add]
  ring

lemma energy_smul {T : Type} [Scalar T ℝ] [NormedScalar T] (c : T) (v : Fin n → T) :
    energy (c • v) = Scalar.normSq c * energy v := by
  unfold energy
  rw [Finset.mul_sum]
  exact Finset.sum_congr rfl fun i _ => NormedScalar.normSq_mul c (v i)

@[simp] lemma energy_zero {T : Type} [Scalar T ℝ] [NormedScalar T] :
    energy (0 : Fin n → T) = 0 :=
  Finset.sum_eq_zero fun _ _ => NormedScalar.normSq_zero

/-- Energies of orthogonal vectors add up. -/
lemma energy_add_of_orthogonal {u v : Fin n → T} (h : star u ⬝ᵥ v = 0) :
    energy (u + v) = energy u + energy v := by
  have h' : star v ⬝ᵥ u = 0 := by
    rw [star_dotProduct, h, star_zero]
  refine EuclideanScalar.ofReal_injective (T := T) ?_
  rw [EuclideanScalar.ofReal_add, ofReal_energy, ofReal_energy, ofReal_energy, star_add,
    add_dotProduct, dotProduct_add, dotProduct_add, h, h', add_zero, zero_add]

section

variable {T : Type} [Scalar T ℝ] [NormedScalar T] {u v : Fin n → T} {c : ℝ}

/-- What a step of `t` along `v` leaves of `u`, if their product is real. -/
lemma energy_sub_ofReal_smul (h : star u ⬝ᵥ v = Scalar.ofReal c) (t : ℝ) :
    energy (u - (Scalar.ofReal t : T) • v) = energy u - 2 * (t * c) + t * t * energy v := by
  have h' : star v ⬝ᵥ u = Scalar.ofReal c := by
    rw [star_dotProduct, h, ExactScalar.star_ofReal]
  have hsplit := ofReal_energy_sub u ((Scalar.ofReal t : T) • v)
  rw [energy_smul, NormedScalar.normSq_ofReal, star_smul, ExactScalar.star_ofReal, smul_dotProduct,
    dotProduct_smul, h, h', smul_eq_mul, ← NormedScalar.ofReal_mul] at hsplit
  have hsum : energy (u - (Scalar.ofReal t : T) • v) + 2 * (t * c)
      = energy u + t * t * energy v := by
    apply EuclideanScalar.ofReal_injective (T := T)
    rw [two_mul]
    simp only [EuclideanScalar.ofReal_add]
    rw [hsplit]
    ring
  linarith

/-- The inequality of Cauchy and Schwarz, for a real product: no step leaves less than nothing. -/
lemma sq_le_energy_mul_energy (h : star u ⬝ᵥ v = Scalar.ofReal c) :
    c * c ≤ energy u * energy v := by
  have hleft (t : ℝ) : 0 ≤ energy v * (t * t) + -(2 * c) * t + energy u := by
    have hnonneg := energy_nonneg (u - (Scalar.ofReal t : T) • v)
    rw [energy_sub_ofReal_smul h] at hnonneg
    linarith
  have hdiscrim := discrim_le_zero hleft
  rw [discrim] at hdiscrim
  linarith

lemma le_sqrt_energy_mul_sqrt_energy (h : star u ⬝ᵥ v = Scalar.ofReal c) :
    c ≤ Real.sqrt (energy u) * Real.sqrt (energy v) := by
  rw [← Real.sqrt_mul (energy_nonneg u)]
  refine Real.le_sqrt_of_sq_le ?_
  rw [sq]
  exact sq_le_energy_mul_energy h

end

omit [EuclideanScalar T] in
/-- The squared norm of a signal is the energy of its coordinates. -/
lemma Signal.normSq_eq_energy {x : Signal T} (hx : x.size = n) :
    (Signal.normSq x : ℝ) = energy (Signal.coords n x) := by
  have hmap : x.map (Scalar.normSq : T → ℝ)
      = Array.ofFn fun i => Scalar.normSq (Signal.coords n x i) := by
    conv_lhs => rw [← Signal.ofFn_coords x hx, Array.map_ofFn]
    rfl
  unfold Signal.normSq
  rw [hmap]
  exact Signal.sum_ofFn _

omit [EuclideanScalar T] in
lemma Signal.norm_eq_sqrt_energy {x : Signal T} (hx : x.size = n) :
    (Signal.norm x : ℝ) = Real.sqrt (energy (Signal.coords n x)) :=
  congrArg Real.sqrt (Signal.normSq_eq_energy hx)

/-! ## Orthonormal columns -/

variable {M : Matrix (Fin m) (Fin n) T}

/-- Orthonormal columns keep energies. -/
lemma energy_mulVec (hM : Mᴴ * M = 1) (v : Fin n → T) : energy (M *ᵥ v) = energy v := by
  refine EuclideanScalar.ofReal_injective (T := T) ?_
  rw [ofReal_energy, ofReal_energy, Operator.star_mulVec_dotProduct, mulVec_mulVec, hM,
    one_mulVec]

/-- What is orthogonal to the columns that `u` combines adds to the energy of `u`. -/
lemma energy_add_mulVec (hM : Mᴴ * M = 1) {r : Fin m → T} {u : Fin n → T}
    (h : star u ⬝ᵥ (Mᴴ *ᵥ r) = 0) : energy (r + M *ᵥ u) = energy r + energy u := by
  rw [← Operator.star_mulVec_dotProduct] at h
  rw [add_comm, energy_add_of_orthogonal h, energy_mulVec hM, add_comm]

/-- No vector comes closer to `b` than `Mᴴ b`, and no other one comes as close. -/
theorem eq_of_energy_le (hM : Mᴴ * M = 1) {b : Fin m → T} {z : Fin n → T}
    (h : energy (b - M *ᵥ z) ≤ energy (b - M *ᵥ (Mᴴ *ᵥ b))) : z = Mᴴ *ᵥ b := by
  have hresidual : Mᴴ *ᵥ (b - M *ᵥ (Mᴴ *ᵥ b)) = 0 := by
    rw [mulVec_sub, mulVec_mulVec, hM, one_mulVec, sub_self]
  have hsplit : b - M *ᵥ z = (b - M *ᵥ (Mᴴ *ᵥ b)) + M *ᵥ (Mᴴ *ᵥ b - z) := by
    rw [mulVec_sub]
    abel
  have hpythagoras := energy_add_mulVec hM (u := Mᴴ *ᵥ b - z)
    (r := b - M *ᵥ (Mᴴ *ᵥ b)) (by rw [hresidual, dotProduct_zero])
  rw [hsplit, hpythagoras] at h
  have hzero : energy (Mᴴ *ᵥ b - z) = 0 := by
    have hnonneg := energy_nonneg (Mᴴ *ᵥ b - z)
    linarith
  exact (sub_eq_zero.1 (eq_zero_of_energy hzero)).symm

end CompressedSensing
