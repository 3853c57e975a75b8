import Mathlib
import CompressedSensing.Proofs.Operator.Agreement
/-!
# Operators that act linearly

What an estimate leaves and what is fitted on a support depend on the images `A x` alone, so for
these it is enough that `A` is linear, whatever the other map of the operator does. A linear map has
a matrix, whose columns are the images of the unit vectors.
-/

namespace CompressedSensing
namespace Operator

open Matrix
open scoped ExactScalar

variable {T R : Type} [Scalar T R] [ExactScalar T] {a : Operator T}

/-- The images of vectors of the right length exist, and those of `u + c v` are `A u + c A v`. -/
structure ActsLinearly (a : Operator T) : Prop where
  apply_ok (u : Signal T) : u.size = a.cols → ∃ au, a.apply u = .ok au
  apply_add_mul (c : T) (u v au av : Signal T) : u.size = a.cols → v.size = a.cols →
    a.apply u = .ok au → a.apply v = .ok av →
    a.apply (Array.zipWith (fun x y => x + c * y) u v)
      = .ok (Array.zipWith (fun x y => x + c * y) au av)

/-- The images are those of the matrix. Nothing is said of the other map. -/
def MapsBy (a : Operator T) (M : Matrix (Fin a.rows) (Fin a.cols) T) : Prop :=
  ∀ x : Signal T, x.size = a.cols → a.apply x = .ok (Array.ofFn (M *ᵥ Signal.coords a.cols x))

/-- Whatever has the images of a matrix acts linearly. -/
lemma MapsBy.actsLinearly {M : Matrix (Fin a.rows) (Fin a.cols) T} (h : a.MapsBy M) :
    a.ActsLinearly where
  apply_ok u hu := ⟨_, h u hu⟩
  apply_add_mul c u v au av hu hv hau hav := by
    rw [h u hu] at hau
    rw [h v hv] at hav
    cases hau
    cases hav
    have hsum : Signal.coords a.cols (Array.zipWith (fun x y => x + c * y) u v)
        = Signal.coords a.cols u + c • Signal.coords a.cols v := by
      rw [Signal.zipWith_eq_ofFn _ _ _ hu hv, Signal.coords_ofFn]
      rfl
    rw [h _ (by rw [Array.size_zipWith, hu, hv, min_self]), hsum, mulVec_add, mulVec_smul,
      Signal.zipWith_eq_ofFn _ _ _ Array.size_ofFn Array.size_ofFn, Signal.coords_ofFn,
      Signal.coords_ofFn]
    rfl

/-- The matrix of a linear map. -/
theorem ActsLinearly.exists_mapsBy (h : a.ActsLinearly) :
    ∃ M : Matrix (Fin a.rows) (Fin a.cols) T, a.MapsBy M := by
  choose image himage using fun v : Fin a.cols → T => h.apply_ok (Array.ofFn v) Array.size_ofFn
  let f (v : Fin a.cols → T) : Fin a.rows → T := Signal.coords a.rows (image v)
  have hadd (c : T) (u v : Fin a.cols → T) : f (u + c • v) = f u + c • f v := by
    have hsum := h.apply_add_mul c _ _ _ _ Array.size_ofFn Array.size_ofFn (himage u) (himage v)
    rw [Signal.zipWith_eq_ofFn _ _ _ Array.size_ofFn Array.size_ofFn,
      Signal.zipWith_eq_ofFn _ _ _ (size_apply (himage u)) (size_apply (himage v)),
      Signal.coords_ofFn, Signal.coords_ofFn] at hsum
    have himages := Except.ok.inj ((himage (u + c • v)).symm.trans hsum)
    show Signal.coords a.rows (image (u + c • v)) = _
    rw [himages, Signal.coords_ofFn]
    rfl
  -- additivity alone makes the image of zero its own double
  have hzero : f 0 = 0 := by
    have hdouble := hadd 1 0 0
    rw [one_smul, one_smul, add_zero] at hdouble
    exact left_eq_add.1 hdouble
  let g : (Fin a.cols → T) →ₗ[T] (Fin a.rows → T) :=
    { toFun := f
      map_add' := fun u v => by
        have hone := hadd 1 u v
        rwa [one_smul, one_smul] at hone
      map_smul' := fun c v => by
        have hscale := hadd c 0 v
        rwa [zero_add, hzero, zero_add] at hscale }
  -- a signal of the right length is the vector of its coordinates
  refine ⟨LinearMap.toMatrix' g, fun x hx => ?_⟩
  have hx' := himage (Signal.coords a.cols x)
  rw [Signal.ofFn_coords x hx] at hx'
  rw [LinearMap.toMatrix'_mulVec, hx']
  exact congrArg Except.ok (Signal.ofFn_coords _ (size_apply hx')).symm

end Operator
end CompressedSensing
