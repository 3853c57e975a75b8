import Mathlib
import CompressedSensing.Proofs.LeastSquares.Minimizer
import CompressedSensing.Proofs.Recovery.Representation
import CompressedSensing.Proofs.Signal.Restriction
/-!
# Estimates over exact scalars

If the images of the operator are those of a matrix `M`, the residual of every estimate of a run is
`b - M x`, and its gradient is `Mᴴ (b - M x)`. What a backend for least squares fits on a support
leaves no more than any other signal on that support.
-/

namespace CompressedSensing

open Matrix Reals
open scoped ExactScalar

variable {T : Type} [Scalar T ℝ] {n : ℕ} {s : Array ℕ}

namespace Signal

section

variable [ExactScalar T] {x z : Signal T}

/-- In coordinates an embedding is the product with the transposed selection matrix. -/
lemma coords_embed (hs : Support.Valid n s) (h : embed n s z = .ok x) :
    coords n x = (Support.selection T s n)ᴴ *ᵥ coords s.size z := by
  unfold embed at h
  split at h
  · rename_i hsize
    cases h
    rw [Support.scatter_eq_selection hs z hsize.1.symm, coords_toArray_ofFn]
  · cases h

/-- What vanishes outside a support is written back from what is read there. -/
lemma selection_mulVec_selection (hs : Support.Valid n s) {v : Fin n → T}
    (hv : ∀ i : Fin n, i.val ∉ s → v i = 0) :
    (Support.selection T s n)ᴴ *ᵥ (Support.selection T s n *ᵥ v) = v := by
  have hsize : (Array.ofFn v).size = n := Array.size_ofFn
  have hembed := embed_valuesAt (x := Array.ofFn v) (s := s) (by rwa [hsize])
  rw [hsize] at hembed
  have hcoords := coords_embed hs hembed
  rw [coords_valuesAt hs hsize, coords_ofFn] at hcoords
  rw [← hcoords]
  funext i
  rw [coords_restrict hs hsize, coords_ofFn]
  split
  · rfl
  · rename_i hi
    exact (hv i hi).symm

end

end Signal

namespace Problem

variable {p : Problem T} {e e' : Estimate T} {i j : ℕ}

/-- The measurement as a vector. -/
def target (p : Problem T) : Fin p.operator.rows → T :=
  Signal.coords p.operator.rows p.measurement

/-- A least-squares solution has one coefficient per column. -/
lemma size_of_minimizing_fit {z : Signal T}
    (hs : p.backend.Minimizing) (hz : (p.fit s).Returns i z j) : z.size = s.size := by
  obtain ⟨hb, -, hsolve⟩ := Operator.solveOn_returns.1 hz
  split at hsolve
  · rename_i hempty
    rw [hsolve.1, Array.isEmpty_iff.1 hempty]
    rfl
  · obtain ⟨columns, -, hanswer, -⟩ := hsolve
    exact (hs i columns p.measurement z hb hanswer).1

variable [EuclideanScalar T] {M : Matrix (Fin p.operator.rows) (Fin p.operator.cols) T}

/-- The operator maps like `M`, and the measurement has the right length. -/
structure Linear (p : Problem T)
    (M : Matrix (Fin p.operator.rows) (Fin p.operator.cols) T) : Prop where
  images : p.operator.HasImages M
  size_eq : p.measurement.size = p.operator.rows

/-- What a signal leaves of the measurement. -/
def misfit (p : Problem T) (M : Matrix (Fin p.operator.rows) (Fin p.operator.cols) T)
    (x : Signal T) : Fin p.operator.rows → T :=
  p.target - M *ᵥ Signal.coords p.operator.cols x

/-- The residual of an estimate is what its signal leaves. -/
structure Consistent (p : Problem T)
    (M : Matrix (Fin p.operator.rows) (Fin p.operator.cols) T) (e : Estimate T) : Prop where
  size_eq : e.x.size = p.operator.cols
  residual_eq : e.residual = Array.ofFn (p.misfit M e.x)

lemma Consistent.size_residual (h : p.Consistent M e) : e.residual.size = p.operator.rows := by
  rw [h.residual_eq, Array.size_ofFn]

namespace Linear

variable (h : p.Linear M)
include h

/-- The residual of a signal is its misfit. -/
lemma residual_eq {x : Signal T} (hx : x.size = p.operator.cols) :
    p.operator.residual p.measurement x = .ok (Array.ofFn (p.misfit M x)) :=
  h.images.residual_eq h.size_eq hx

lemma start_consistent : p.Consistent M p.start where
  size_eq := p.start_supportedOn.size_eq
  residual_eq := by
    have hzero : Signal.coords p.operator.cols (p.start.x) = 0 := by
      funext l
      simp [Signal.coords, start, Signal.zeros]
    rw [misfit, hzero, mulVec_zero, sub_zero]
    exact (Signal.ofFn_coords _ h.size_eq).symm

/-- An estimate is consistent as it is made. -/
lemma estimate_consistent {x : Signal T} (hx : x.size = p.operator.cols)
    (he : p.estimate x s = .ok e') : p.Consistent M e' := by
  obtain ⟨rfl, -, hr⟩ := estimate_eq_ok.1 he
  rw [h.residual_eq hx] at hr
  exact ⟨hx, (Except.ok.inj hr).symm⟩

/-- Every estimate of a trajectory is consistent. -/
lemma trajectory_consistent {m : Method ℝ} {t : ℕ} {e : ℕ → Estimate T} {q : ℕ → ℕ}
    (htraj : p.Trajectory m i t e q) {l : ℕ} (hl : l ≤ t) : p.Consistent M (e l) := by
  rcases l with _ | l
  · rw [htraj.start]
    exact h.start_consistent
  · have hsize := (htraj.sizes h.size_eq hl).1
    exact h.estimate_consistent hsize (round_returns_estimate (htraj.step l hl))

/-- The gradient at an estimate. -/
lemma applyAdjoint_eq (he : p.Consistent M e) :
    p.operator.applyAdjoint e.residual = .ok (Array.ofFn (Mᴴ *ᵥ p.misfit M e.x)) := by
  rw [h.images.applyAdjoint_eq _ he.size_residual, he.residual_eq, Signal.coords_ofFn]

end Linear

/-- The residual norm of a consistent estimate is the length of its misfit. -/
lemma Consistent.norm_eq (he : p.Consistent M e) :
    (Signal.norm e.residual : ℝ) = Real.sqrt (energy (p.misfit M e.x)) := by
  rw [he.residual_eq, Signal.norm_eq_sqrt_energy Array.size_ofFn, Signal.coords_ofFn]

/-- A fit on a support leaves no more than any other signal there. -/
theorem Linear.energy_fit_le (h : p.Linear M) (hbackend : p.backend.Minimizing)
    (hs : Support.Valid p.operator.cols s) {z x : Signal T} (hz : (p.fit s).Returns i z j)
    (hx : Signal.embed p.operator.cols s z = .ok x) {v : Fin p.operator.cols → T}
    (hv : ∀ l : Fin p.operator.cols, l.val ∉ s → v l = 0) :
    energy (p.misfit M x) ≤ energy (p.target - M *ᵥ v) := by
  rw [misfit, Signal.coords_embed hs hx, ← Signal.selection_mulVec_selection hs hv]
  obtain ⟨-, -, hsolve⟩ := Operator.solveOn_returns.1 hz
  split at hsolve
  · -- there is only one vector of no coefficients
    rename_i hempty
    have hzero : s.size = 0 := by simpa using hempty
    have hsame : Signal.coords s.size z = Support.selection T s p.operator.cols *ᵥ v := by
      funext l
      exact absurd l.isLt (by omega)
    rw [hsame]
  · obtain ⟨columns, hcolumns, hsolve, -⟩ := hsolve
    rw [h.images.restrictedMatrix_eq hs] at hcolumns
    cases hcolumns
    rw [mulVec_mulVec, mulVec_mulVec]
    exact hbackend.energy_le h.size_eq hsolve _

end Problem
end CompressedSensing
