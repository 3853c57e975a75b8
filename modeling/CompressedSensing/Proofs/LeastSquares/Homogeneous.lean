import Mathlib
import CompressedSensing.Proofs.LeastSquares.Shortest
/-!
# Homogeneous backends

Least squares is homogeneous: the solution for a multiple of the right-hand side is the multiple of
the solution, and the solution for a multiple of the matrix is the quotient. Whether a backend
answers like that is a law of the backend. One whose answers are the shortest least-squares
solutions obeys both laws for every factor but zero.
-/

namespace CompressedSensing

open Matrix Reals
open scoped ExactScalar

variable {T : Type} [Scalar T ℝ] [NormedScalar T] {c : T} {m n : ℕ}

/-- A nonzero factor and its inverse cancel. -/
lemma NormedScalar.one_div_mul_cancel (hc : c ≠ 0) : 1 / c * c = 1 :=
  NormedScalar.div_mul_cancel 1 c hc

/-- The inverse of a nonzero factor is nonzero. -/
lemma NormedScalar.one_div_ne_zero (hc : c ≠ 0) : 1 / c ≠ 0 := by
  intro h
  have hone := NormedScalar.one_div_mul_cancel hc
  rw [h, zero_mul] at hone
  exact hc (by rw [← one_mul c, ← hone, zero_mul])

/-- Quotients are multiples. -/
lemma Signal.scale_one_div (hc : c ≠ 0) (x : Signal T) : scale (1 / c) x = x.map (· / c) := by
  have hquotient (u : T) : u * (1 / c) = u / c := by
    have hcancel := NormedScalar.div_mul_cancel u c hc
    have hunit := NormedScalar.one_div_mul_cancel hc
    linear_combination (u / c) * hunit - (1 / c) * hcancel
  unfold scale
  simp only [hquotient]

namespace DenseMatrix

/-- The multiple of a matrix. -/
def scaled {T R : Type} [Scalar T R] (c : T) (a : DenseMatrix T m n) : DenseMatrix T m n :=
  ofFn fun i j => c * a.entry i j

omit [NormedScalar T] in
lemma scaled_ofFn (c : T) (A : Matrix (Fin m) (Fin n) T) :
    (ofFn A).scaled c = ofFn (c • A) := by
  apply congrArg ofFn
  funext i j
  exact congrArg (c * ·) (entry_ofFn A i j)

/-- A factor and its inverse cancel. -/
lemma scaled_scaled_one_div (hc : c ≠ 0) (a : DenseMatrix T m n) :
    (a.scaled (1 / c)).scaled c = a := by
  have hmatrix : ofFn (of a.entry) = a := ofFn_entry a
  rw [← hmatrix, scaled_ofFn, scaled_ofFn, smul_smul, mul_comm, NormedScalar.one_div_mul_cancel hc,
    one_smul]

end DenseMatrix

/-- Coefficients for a multiple of the right-hand side are multiples. -/
lemma ShortestFit.smul_right {M : Matrix (Fin m) (Fin n) T} {b : Fin m → T} {z : Fin n → T}
    (h : ShortestFit M b z) {d : T} (hdc : d * c = 1) : ShortestFit M (c • b) (c • z) := by
  -- every vector is the multiple of another one, which leaves a multiple of the residual
  have hcancel (w : Fin n → T) : c • d • w = w := by
    rw [smul_smul, mul_comm, hdc, one_smul]
  have hleaves (w : Fin n → T) :
      energy (c • b - M *ᵥ (c • w)) = Scalar.normSq c * energy (b - M *ᵥ w) := by
    rw [mulVec_smul, ← smul_sub, energy_smul]
  have hc : 0 < (Scalar.normSq c : ℝ) := by
    apply NormedScalar.normSq_pos
    intro hzero
    rw [hzero, mul_zero] at hdc
    exact NormedScalar.one_ne_zero hdc.symm
  constructor
  · intro w
    rw [← hcancel w, hleaves, hleaves]
    exact mul_le_mul_of_nonneg_left (h.fits _) hc.le
  · intro w hw
    rw [← hcancel w, hleaves, hleaves] at hw
    rw [← hcancel w, energy_smul, energy_smul]
    exact mul_le_mul_of_nonneg_left (h.shortest _ (le_of_mul_le_mul_left hw hc)) hc.le

namespace Backend

/-- The answer for `c` times the right-hand side is `c` times the answer. -/
def Homogeneous (s : Backend T) (c : T) : Prop :=
  ∀ (i : ℕ) {m n : ℕ} (a : DenseMatrix T m n) (b : Signal T), b.size = m →
    s.solve i a (Signal.scale c b) = (s.solve i a b).map (Signal.scale c)

/-- The answer for `c` times the matrix is the answer divided by `c`. -/
def InverselyHomogeneous (s : Backend T) (c : T) : Prop :=
  ∀ (i : ℕ) {m n : ℕ} (a : DenseMatrix T m n) (b : Signal T), b.size = m →
    s.solve i (a.scaled c) b = (s.solve i a b).map (Array.map (· / c))

variable {s : Backend T}

/-- A backend that is homogeneous for a factor is so for its inverse. -/
lemma Homogeneous.inv (hs : s.Homogeneous c) (hc : c ≠ 0) : s.Homogeneous (1 / c) := by
  have hinv := NormedScalar.one_div_mul_cancel hc
  intro i m n a b hb
  have hlaw := hs i a (Signal.scale (1 / c) b) ((Signal.size_scale _ b).trans hb)
  rw [Signal.scale_scale, hinv, Signal.scale_one] at hlaw
  rw [hlaw]
  cases s.solve i a (Signal.scale (1 / c) b) with
  | error e => rfl
  | ok z =>
    show Except.ok z = .ok (Signal.scale (1 / c) (Signal.scale c z))
    rw [Signal.scale_scale, mul_comm c, hinv, Signal.scale_one]

/-- A backend that is inversely homogeneous for a factor is so for its inverse. -/
lemma InverselyHomogeneous.inv (hs : s.InverselyHomogeneous c) (hc : c ≠ 0) :
    s.InverselyHomogeneous (1 / c) := by
  have hinv := NormedScalar.one_div_mul_cancel hc
  intro i m n a b hb
  have hlaw := hs i (a.scaled (1 / c)) b hb
  rw [DenseMatrix.scaled_scaled_one_div hc] at hlaw
  rw [hlaw]
  cases s.solve i (a.scaled (1 / c)) b with
  | error e => rfl
  | ok z =>
    show Except.ok z = .ok ((z.map (· / c)).map (· / (1 / c)))
    rw [← Signal.scale_one_div hc, ← Signal.scale_one_div (NormedScalar.one_div_ne_zero hc),
      Signal.scale_scale, mul_comm,
      NormedScalar.one_div_mul_cancel (NormedScalar.one_div_ne_zero hc), Signal.scale_one]

/-- Shortest solutions scale with the right-hand side. -/
lemma Shortest.homogeneous (hs : s.Shortest) (hc : c ≠ 0) : s.Homogeneous c := by
  intro i m n a b hb
  rw [← DenseMatrix.ofFn_entry a]
  obtain ⟨z, hz, hshort⟩ := hs i (DenseMatrix.ofFn a.entry) b hb
  obtain ⟨hsize, hfit⟩ := (DenseMatrix.shortest_ofFn_iff hb).1 hshort
  have hscaled := hfit.smul_right (NormedScalar.one_div_mul_cancel hc)
  rw [← Signal.coords_scale] at hscaled
  rw [hz, hs.solve_eq i ((Signal.size_scale c b).trans hb) hscaled, ← Signal.scale_ofFn,
    Signal.ofFn_coords z hsize]
  rfl

/-- Shortest solutions are divided by the factor of the matrix. -/
lemma Shortest.inverselyHomogeneous (hs : s.Shortest) (hc : c ≠ 0) :
    s.InverselyHomogeneous c := by
  intro i m n a b hb
  have hmatrix : DenseMatrix.ofFn (of a.entry) = a := DenseMatrix.ofFn_entry a
  rw [← hmatrix, DenseMatrix.scaled_ofFn]
  obtain ⟨z, hz, -⟩ := hs i (DenseMatrix.ofFn (of a.entry)) b hb
  rw [hs.solve_smul i i hb hz (NormedScalar.one_div_mul_cancel hc), hz, Signal.scale_one_div hc]
  rfl

end Backend
end CompressedSensing
