import Mathlib
import CompressedSensing.Proofs.Signal.Energy
import CompressedSensing.Proofs.Signal.Restriction
/-!
# Steps along a part of the gradient

Let `g = Mᴴ r` be the gradient of a residual `r`. A part `d` of the gradient, which agrees with it
on a support and vanishes elsewhere, has the same product with the gradient as with itself. So a
step of `μ` along it leaves

  `‖r - μ M d‖² = ‖r‖² - 2 μ ‖d‖² + μ² ‖M d‖²`,

and the step `‖d‖² / ‖M d‖²` leaves strictly less than `r`, unless the part is zero. A part that is
not seen by `M` is zero.
-/

namespace CompressedSensing

open Matrix Reals
open scoped ExactScalar

variable {T : Type} [Scalar T ℝ] [NormedScalar T] {m n : ℕ}

/-- The vector has the same product with `g` as with itself. -/
def PartOf (g d : Fin n → T) : Prop := star d ⬝ᵥ g = Scalar.ofReal (energy d)

/-- A vector is a part of itself. -/
lemma partOf_self (g : Fin n → T) : PartOf g g := (ofReal_energy g).symm

/-- The restriction of a signal is a part of it. -/
lemma partOf_restrict {x : Signal T} {s : Array ℕ} (hs : Support.Valid n s) (hx : x.size = n) :
    PartOf (Signal.coords n x) (Signal.coords n (x.restrict s)) := by
  unfold PartOf
  rw [ofReal_energy]
  refine Finset.sum_congr rfl fun l _ => ?_
  rw [Pi.star_apply, Signal.coords_restrict hs hx]
  split
  · rfl
  · rw [star_zero, zero_mul, zero_mul]

namespace PartOf

variable {M : Matrix (Fin m) (Fin n) T} {r : Fin m → T} {d : Fin n → T}
  (hd : PartOf (Mᴴ *ᵥ r) d)
include hd

/-- The images of a part have the product with the residual that the part has with itself. -/
lemma star_mulVec_dotProduct : star (M *ᵥ d) ⬝ᵥ r = Scalar.ofReal (energy d) := by
  rw [Operator.star_mulVec_dotProduct]
  exact hd

/-- A part that is not seen is orthogonal to the gradient, so it is zero. -/
lemma eq_zero (hunseen : M *ᵥ d = 0) : d = 0 := by
  have hproduct := hd.star_mulVec_dotProduct
  rw [hunseen, star_zero, zero_dotProduct] at hproduct
  apply eq_zero_of_energy
  apply EuclideanScalar.ofReal_injective (T := T)
  rw [← hproduct, NormedScalar.ofReal_zero]

lemma energy_mulVec_pos (hne : d ≠ 0) : 0 < energy (M *ᵥ d) := by
  apply energy_pos
  intro hunseen
  exact hne (hd.eq_zero hunseen)

/-- What a step along a part leaves. -/
lemma energy_sub_smul (μ : ℝ) :
    energy (r - M *ᵥ ((Scalar.ofReal μ : T) • d))
      = energy r - 2 * (μ * energy d) + μ * μ * energy (M *ᵥ d) := by
  have hproduct : star r ⬝ᵥ (M *ᵥ d) = Scalar.ofReal (energy d) := by
    rw [star_dotProduct, hd.star_mulVec_dotProduct, ExactScalar.star_ofReal]
  rw [mulVec_smul, energy_sub_ofReal_smul hproduct]

/-- The best step along a part leaves strictly less, unless there is nothing to step along. -/
theorem energy_step_lt (hne : d ≠ 0) :
    energy (r - M *ᵥ ((Scalar.ofReal (energy d / energy (M *ᵥ d)) : T) • d)) < energy r := by
  have hsize := energy_pos hne
  have hseen := hd.energy_mulVec_pos hne
  have hgain : 0 < energy d / energy (M *ᵥ d) * energy d := by positivity
  have hbest : energy d / energy (M *ᵥ d) * (energy d / energy (M *ᵥ d)) * energy (M *ᵥ d)
      = energy d / energy (M *ᵥ d) * energy d := by
    field_simp
  rw [hd.energy_sub_smul, hbest]
  linarith

end PartOf

section

variable {M : Matrix (Fin m) (Fin n) T} {r : Fin m → T} {x : Signal T} {s : Array ℕ}
  (hs : Support.Valid n s)
include hs

/-- A gradient restricted to a support is a part of the gradient. -/
lemma partOf_restrict_gradient (hx : x = Array.ofFn (Mᴴ *ᵥ r)) :
    PartOf (Mᴴ *ᵥ r) (Signal.coords n (x.restrict s)) := by
  have hpart := partOf_restrict hs (show x.size = n by rw [hx, Array.size_ofFn])
  rwa [hx, Signal.coords_ofFn, ← hx] at hpart

/-- What is not seen of a part of a gradient is zero. -/
lemma coords_restrict_eq_zero (hx : x = Array.ofFn (Mᴴ *ᵥ r))
    (hunseen : M *ᵥ Signal.coords n (x.restrict s) = 0) : Signal.coords n (x.restrict s) = 0 :=
  (partOf_restrict_gradient hs hx).eq_zero hunseen

/-- If the gradient does not vanish on a support, then something on the support leaves less. -/
theorem exists_energy_lt {l : Fin n} (hl : l.val ∈ s) (hne : (Mᴴ *ᵥ r) l ≠ 0) :
    ∃ v : Fin n → T, (∀ c : Fin n, c.val ∉ s → v c = 0) ∧ energy (r - M *ᵥ v) < energy r := by
  let g : Signal T := Array.ofFn (Mᴴ *ᵥ r)
  have hpart := partOf_restrict_gradient hs (x := g) rfl
  have hentry := Signal.coords_restrict hs (show g.size = n from Array.size_ofFn)
  refine ⟨_, fun c hc => ?_, hpart.energy_step_lt fun hzero => ?_⟩
  · rw [Pi.smul_apply, hentry, if_neg hc, smul_zero]
  · have hvanish := congrFun hzero l
    rw [hentry, if_pos hl, Signal.coords_ofFn] at hvanish
    exact hne hvanish

end

end CompressedSensing
