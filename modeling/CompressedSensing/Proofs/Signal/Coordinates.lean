import Mathlib
import CompressedSensing.Matrix.Basic
import CompressedSensing.Proofs.Scalar.Exact
/-!
# Signals as coordinate vectors

A signal of length `n` is the function `coords n x` on `Fin n`. Over exact scalars the sums that
run from index zero upwards are finite sums, so the inner product of two signals is the inner
product of their coordinate vectors.
-/

namespace CompressedSensing
namespace Signal

section

variable {T : Type} [Zero T] {n : ℕ}

/-- The entries of a signal, zero behind its end. -/
def coords (n : ℕ) (x : Signal T) (i : Fin n) : T := x.getD i 0

theorem coords_eq_getElem (x : Signal T) (i : Fin n) (h : i.val < x.size) :
    coords n x i = x[i.val] := by
  simp [coords, h]

@[simp] theorem coords_ofFn (f : Fin n → T) : coords n (Array.ofFn f) = f := by
  funext i
  rw [coords_eq_getElem _ i (by simp), Array.getElem_ofFn]

@[simp] theorem coords_toArray_ofFn (f : Fin n → T) :
    coords n (Vector.ofFn f).toArray = f := by
  rw [Vector.toArray_ofFn, coords_ofFn]

/-- A signal is made of its coordinates. -/
theorem ofFn_coords (x : Signal T) (h : x.size = n) : Array.ofFn (coords n x) = x := by
  subst h
  refine Array.ext (by simp) fun i hi _ => ?_
  rw [Array.getElem_ofFn, coords_eq_getElem]

theorem zipWith_eq_ofFn {α : Type} (f : T → T → α) (x y : Signal T) (hx : x.size = n)
    (hy : y.size = n) :
    Array.zipWith f x y = Array.ofFn fun i => f (coords n x i) (coords n y i) := by
  refine Array.ext (by simp [hx, hy]) fun i hi hi' => ?_
  have hn : i < n := by simpa using hi'
  rw [Array.getElem_zipWith, Array.getElem_ofFn, coords_eq_getElem _ ⟨i, hn⟩ (by omega),
    coords_eq_getElem _ ⟨i, hn⟩ (by omega)]

theorem mapIdx_eq_ofFn {α : Type} (f : ℕ → T → α) (x : Signal T) (hx : x.size = n) :
    x.mapIdx f = Array.ofFn fun i : Fin n => f i (coords n x i) := by
  refine Array.ext (by simp [hx]) fun i hi hi' => ?_
  have hn : i < n := by simpa using hi'
  rw [Array.getElem_mapIdx, Array.getElem_ofFn, coords_eq_getElem _ ⟨i, hn⟩ (by omega)]

end

/-! ## Sums -/

theorem sum_ofFn {α : Type} [AddCommMonoid α] {n : ℕ} (f : Fin n → α) :
    sum (Array.ofFn f) = ∑ i, f i := by
  rw [sum, ← Array.foldl_toList, Array.toList_ofFn, ← List.sum_eq_foldl, List.sum_ofFn]

end Signal

open scoped ExactScalar

variable {T R : Type} [Scalar T R] [ExactScalar T]

theorem DenseMatrix.sumFin_eq_sum {n : ℕ} (f : Fin n → T) : sumFin n f = ∑ j, f j := by
  rw [sumFin, Fin.foldl_eq_foldl_finRange, ← List.foldl_map, ← List.sum_eq_foldl,
    ← List.ofFn_eq_map, List.sum_ofFn]

namespace Signal

open Matrix

/-- The inner product is conjugate linear in its first argument. -/
theorem dot_eq {n : ℕ} {x y : Signal T} (hx : x.size = n) (hy : y.size = n) :
    dot x y = .ok (star (coords n x) ⬝ᵥ coords n y) := by
  rw [dot, if_pos (hx.trans hy.symm), zipWith_eq_ofFn _ x y hx hy, sum_ofFn]
  rfl

end Signal
end CompressedSensing
