import Mathlib
import CompressedSensing.Proofs.Operator.MatrixForm
import CompressedSensing.Proofs.Scalar.Euclidean
/-!
# Operators with a unitary matrix

An operator whose matrix satisfies `Mᴴ M = 1` is undone by its adjoint, whatever the buffers held,
and keeps squared norms. For the norms it is enough that squared moduli are products with the
conjugate and that sums of them are exact, as `HermitianScalar T` says.
-/

namespace CompressedSensing

open Matrix
open scoped ExactScalar

variable {T R : Type} [Scalar T R] {m n : ℕ}

namespace Signal

/-- A sum of reals, taken as a sum of entries. -/
lemma ofReal_sum [RealLike R] [HermitianScalar T] (x : Array R) :
    (Scalar.ofReal (sum x) : T) = sum (x.map Scalar.ofReal) := by
  rw [sum, sum, Array.foldl_map, ← HermitianScalar.ofReal_zero]
  exact (Array.foldl_hom Scalar.ofReal fun a b => (HermitianScalar.ofReal_add a b).symm).symm

/-- The squared norm is the product of a signal with itself. -/
lemma ofReal_normSq [RealLike R] [HermitianScalar T] {x : Signal T} (hx : x.size = n) :
    (Scalar.ofReal (normSq x : R) : T) = star (coords n x) ⬝ᵥ coords n x := by
  have hmap : (x.map (Scalar.normSq : T → R)).map (Scalar.ofReal : R → T)
      = Array.ofFn fun i => star (coords n x i) * coords n x i := by
    conv_lhs => rw [← ofFn_coords x hx, Array.map_map, Array.map_ofFn]
    exact congrArg Array.ofFn (funext fun i => (HermitianScalar.conj_mul_self _).symm)
  rw [normSq, ofReal_sum, hmap, sum_ofFn]
  rfl

/-- A unitary matrix keeps squared norms. -/
lemma normSq_ofFn_mulVec [RealLike R] [HermitianScalar T] {N : Matrix (Fin m) (Fin n) T}
    (hN : Nᴴ * N = 1) {x : Signal T} (hx : x.size = n) :
    (normSq (Array.ofFn (N *ᵥ coords n x)) : R) = normSq x := by
  refine HermitianScalar.ofReal_injective (T := T) ?_
  rw [ofReal_normSq Array.size_ofFn, ofReal_normSq hx, coords_ofFn, star_mulVec,
    ← dotProduct_mulVec, mulVec_mulVec, hN, one_mulVec]

omit [Scalar T R] in
lemma ofFn_coords_eq_mk [Zero T] {x : Signal T} (hx : x.size = n) :
    Vector.ofFn (coords n x) = ⟨x, hx⟩ := by
  apply Vector.toArray_inj.1
  rw [Vector.toArray_ofFn, ofFn_coords x hx]

end Signal

namespace Operator

variable [ExactScalar T] {a : Operator T} {M : Matrix (Fin m) (Fin n) T}

/-- The adjoint undoes the operator. -/
lemma HasMatrix.times_trans (h : a.HasMatrix M) (hM : Mᴴ * M = 1) {x : Signal T} (hx : x.size = n)
    (y : Vector T m) (z : Vector T n) :
    ∃ v : Vector T m, a.times x y = .ok v ∧ a.trans v.toArray z = .ok ⟨x, hx⟩ := by
  refine ⟨_, h.times_eq x y hx, ?_⟩
  rw [h.trans_eq _ z (Vector.size_toArray _), Signal.coords_toArray_ofFn, mulVec_mulVec, hM,
    one_mulVec, Signal.ofFn_coords_eq_mk hx]

/-- The operator undoes its adjoint. -/
lemma HasMatrix.trans_times (h : a.HasMatrix M) (hM : M * Mᴴ = 1) {y : Signal T} (hy : y.size = m)
    (x : Vector T n) (z : Vector T m) :
    ∃ v : Vector T n, a.trans y x = .ok v ∧ a.times v.toArray z = .ok ⟨y, hy⟩ := by
  refine h.adjoint.times_trans ?_ hy x z
  rwa [conjTranspose_conjTranspose]

end Operator

/-- What the operator leaves in the buffer has the squared norm of the vector. -/
lemma Operator.HasMatrix.normSq_times [RealLike R] [HermitianScalar T] {a : Operator T}
    {M : Matrix (Fin m) (Fin n) T} (h : a.HasMatrix M) (hM : Mᴴ * M = 1) {x : Signal T}
    (hx : x.size = n) {y v : Vector T m} (hv : a.times x y = .ok v) :
    (Signal.normSq v.toArray : R) = Signal.normSq x := by
  rw [h.times_eq x y hx] at hv
  obtain rfl := Except.ok.inj hv
  rw [Vector.toArray_ofFn, Signal.normSq_ofFn_mulVec hM hx]

end CompressedSensing
