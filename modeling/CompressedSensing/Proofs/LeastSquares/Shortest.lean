import Mathlib
import CompressedSensing.Proofs.LeastSquares.Minimizer
import CompressedSensing.Proofs.Signal.Scaling
/-!
# Shortest least-squares solutions

Among the vectors that leave a residual of least norm, one has the least norm itself. There is no
other one: half-way between two of them there would be a shorter vector, by the parallelogram law,
that leaves no more. So the answer of a backend for these solutions is known from the request, and
it is divided by `c` when the matrix is multiplied by `c`. Over the real numbers there is such a
backend for all requests.
-/

namespace CompressedSensing

open Matrix Reals
open scoped ExactScalar

variable {T : Type} [Scalar T ℝ] [NormedScalar T] {m n : ℕ}

/-! ## Vectors -/

/-- No vector leaves less of `b` than `z`, and none that leaves as little is shorter. -/
structure ShortestFit (M : Matrix (Fin m) (Fin n) T) (b : Fin m → T) (z : Fin n → T) : Prop where
  fits (w : Fin n → T) : energy (b - M *ᵥ z) ≤ energy (b - M *ᵥ w)
  shortest (w : Fin n → T) : energy (b - M *ᵥ w) ≤ energy (b - M *ᵥ z) → energy z ≤ energy w

/-- What two vectors have on average, as their sum with half the weight. -/
lemma energy_average (u v : Fin n → T) :
    4 * energy ((Scalar.ofReal (1 / 2 : ℝ) : T) • (u + v)) + energy (u - v)
      = 2 * energy u + 2 * energy v := by
  have hparallelogram := energy_add_add_energy_sub u v
  rw [energy_smul, NormedScalar.normSq_ofReal]
  linarith

lemma ofReal_half_smul_add (v : Fin n → T) : (Scalar.ofReal (1 / 2 : ℝ) : T) • (v + v) = v := by
  have hone : (Scalar.ofReal (1 / 2 : ℝ) : T) + Scalar.ofReal (1 / 2 : ℝ) = 1 := by
    rw [← EuclideanScalar.ofReal_add, add_halves, EuclideanScalar.ofReal_one]
  rw [smul_add, ← add_smul, hone, one_smul]

namespace ShortestFit

variable {M : Matrix (Fin m) (Fin n) T} {b : Fin m → T} {z z' : Fin n → T}

/-- There is only one. -/
theorem eq (h : ShortestFit M b z) (h' : ShortestFit M b z') : z = z' := by
  have henergy : energy z = energy z' :=
    le_antisymm (h.shortest z' (h'.fits z)) (h'.shortest z (h.fits z'))
  have hresidual : b - M *ᵥ ((Scalar.ofReal (1 / 2 : ℝ) : T) • (z + z'))
      = (Scalar.ofReal (1 / 2 : ℝ) : T) • ((b - M *ᵥ z) + (b - M *ᵥ z')) := by
    conv_lhs => rw [← ofReal_half_smul_add b]
    rw [mulVec_smul, mulVec_add, ← smul_sub]
    congr 1
    abel
  -- the vector half-way leaves no more, so it is not shorter either
  have haverage := energy_average (b - M *ᵥ z) (b - M *ᵥ z')
  have hgap := energy_nonneg ((b - M *ᵥ z) - (b - M *ᵥ z'))
  have hfit := h'.fits z
  rw [← hresidual] at haverage
  have hshort := h.shortest ((Scalar.ofReal (1 / 2 : ℝ) : T) • (z + z')) (by linarith)
  have hmiddle := energy_average z z'
  have hdistance := energy_nonneg (z - z')
  exact sub_eq_zero.1 (eq_zero_of_energy (by linarith))

/-- Coefficients for larger columns are smaller. -/
lemma smul (h : ShortestFit M b z) {c d : T} (hcd : d * c = 1) :
    ShortestFit (c • M) b (d • z) := by
  have hscaled (w : Fin n → T) : (c • M) *ᵥ w = M *ᵥ (c • w) := by
    rw [smul_mulVec, mulVec_smul]
  have hcancel : c • d • z = z := by
    rw [smul_smul, mul_comm, hcd, one_smul]
  refine ⟨fun w => ?_, fun w hw => ?_⟩
  · rw [hscaled, hscaled, hcancel]
    exact h.fits _
  · rw [hscaled, hscaled, hcancel] at hw
    have hlong : energy (d • z) ≤ energy (d • c • w) := by
      rw [energy_smul, energy_smul d]
      exact mul_le_mul_of_nonneg_left (h.shortest _ hw) (EuclideanScalar.normSq_nonneg d)
    rwa [smul_smul, hcd, one_smul] at hlong

end ShortestFit

/-! ## Answers of backends -/

/-- The signal `z` minimizes the residual, and no minimizer is shorter. -/
def DenseMatrix.Shortest (a : DenseMatrix T m n) (b z : Signal T) : Prop :=
  a.Minimizes b z ∧ ∀ w : Signal T, a.Minimizes b w → (Signal.norm z : ℝ) ≤ Signal.norm w

/-- Being shortest is a matter of the coordinates. -/
lemma DenseMatrix.shortest_ofFn_iff {M : Matrix (Fin m) (Fin n) T} {b z : Signal T}
    (hb : b.size = m) :
    (ofFn M).Shortest b z ↔
      z.size = n ∧ ShortestFit M (Signal.coords m b) (Signal.coords n z) := by
  have hnorm {x y : Signal T} (hx : x.size = n) (hy : y.size = n) :
      (Signal.norm x : ℝ) ≤ Signal.norm y ↔
        energy (Signal.coords n x) ≤ energy (Signal.coords n y) := by
    rw [Signal.norm_eq_sqrt_energy hx, Signal.norm_eq_sqrt_energy hy,
      Real.sqrt_le_sqrt_iff (energy_nonneg _)]
  unfold Shortest
  rw [minimizes_ofFn_iff hb]
  refine ⟨fun h => ⟨h.1.1, h.1.2, fun w hw => ?_⟩, fun h => ⟨⟨h.1, h.2.fits⟩, fun w hw => ?_⟩⟩
  · have hmin : (ofFn M).Minimizes b (Array.ofFn w) := by
      refine (minimizes_ofFn_iff hb).2 ⟨Array.size_ofFn, fun v => ?_⟩
      rw [Signal.coords_ofFn]
      exact hw.trans (h.1.2 v)
    have hle := (hnorm h.1.1 Array.size_ofFn).1 (h.2 _ hmin)
    rwa [Signal.coords_ofFn] at hle
  · obtain ⟨hsize, hmin⟩ := (minimizes_ofFn_iff hb).1 hw
    exact (hnorm h.1 hsize).2 (h.2.shortest _ (hmin _))

namespace Backend

variable {s : Backend T}

/-- The answers are least-squares solutions of least norm. -/
def Shortest (s : Backend T) : Prop :=
  ∀ (i : ℕ) {m n : ℕ} (a : DenseMatrix T m n) (b : Signal T), b.size = m →
    ∃ z, s.solve i a b = .ok z ∧ a.Shortest b z

omit [NormedScalar T] in
/-- A backend of shortest solutions is a least-squares backend. -/
lemma Shortest.leastSquares (hs : s.Shortest) : s.LeastSquares := by
  intro i m n a b hb
  obtain ⟨z, hz, hmin, -⟩ := hs i a b hb
  exact ⟨z, hz, hmin⟩

/-- The answer is known from its properties. -/
lemma Shortest.solve_eq (hs : s.Shortest) (i : ℕ) {M : Matrix (Fin m) (Fin n) T} {b : Signal T}
    (hb : b.size = m) {z : Fin n → T} (hz : ShortestFit M (Signal.coords m b) z) :
    s.solve i (DenseMatrix.ofFn M) b = .ok (Array.ofFn z) := by
  obtain ⟨y, hy, hshort⟩ := hs i (DenseMatrix.ofFn M) b hb
  obtain ⟨hsize, hfit⟩ := (DenseMatrix.shortest_ofFn_iff hb).1 hshort
  rw [hy, ← Signal.ofFn_coords y hsize, hfit.eq hz]

/-- The answer for a multiple of a matrix is a multiple of the answer. -/
lemma Shortest.solve_smul (hs : s.Shortest) (i j : ℕ) {M : Matrix (Fin m) (Fin n) T}
    {b z : Signal T} (hb : b.size = m) (hz : s.solve i (DenseMatrix.ofFn M) b = .ok z) {c d : T}
    (hcd : d * c = 1) :
    s.solve j (DenseMatrix.ofFn (c • M)) b = .ok (Signal.scale d z) := by
  obtain ⟨y, hy, hshort⟩ := hs i (DenseMatrix.ofFn M) b hb
  rw [hz] at hy
  cases hy
  obtain ⟨hsize, hfit⟩ := (DenseMatrix.shortest_ofFn_iff hb).1 hshort
  rw [hs.solve_eq j hb (hfit.smul hcd), ← Signal.scale_ofFn, Signal.ofFn_coords z hsize]

/-! ## Shortest solutions over the real numbers -/

/-- Least-squares solutions form a closed set, which has a point next to the origin. -/
lemma exists_shortestFit (A : Matrix (Fin m) (Fin n) ℝ) (b : Fin m → ℝ) :
    ∃ z, ShortestFit A b z := by
  have henergy {k : ℕ} (v : Fin k → ℝ) : energy v = ‖WithLp.toLp 2 v‖ ^ 2 := by
    rw [EuclideanSpace.real_norm_sq_eq]
    exact Finset.sum_congr rfl fun i _ => (pow_two (v i)).symm
  have hle {k l : ℕ} (u : Fin k → ℝ) (v : Fin l → ℝ) :
      energy u ≤ energy v ↔ ‖WithLp.toLp 2 u‖ ≤ ‖WithLp.toLp 2 v‖ := by
    rw [henergy, henergy]
    exact pow_le_pow_iff_left₀ (norm_nonneg _) (norm_nonneg _) two_ne_zero
  obtain ⟨y, hy⟩ := exists_nearest A b
  have hnearest (w : Fin n → ℝ) : energy (b - A *ᵥ y) ≤ energy (b - A *ᵥ w) := by
    have h := hy w
    simp only [pow_two] at h
    exact h
  -- not the minimizers of the residual but all that are no worse than `y`, a closed condition
  let minimizers : Set (EuclideanSpace ℝ (Fin n)) :=
    {v | ‖WithLp.toLp 2 (b - A *ᵥ v.ofLp)‖ ≤ ‖WithLp.toLp 2 (b - A *ᵥ y)‖}
  have hclosed : IsClosed minimizers := by
    have hmap := (toEuclideanLin A).continuous_of_finiteDimensional
    exact isClosed_le (continuous_const.sub hmap).norm continuous_const
  have hmem (w : Fin n → ℝ) (hw : energy (b - A *ᵥ w) ≤ energy (b - A *ᵥ y)) :
      WithLp.toLp 2 w ∈ minimizers := (hle _ _).1 hw
  obtain ⟨z, hz, hmin⟩ := hclosed.exists_infDist_eq_dist ⟨_, hmem y le_rfl⟩ 0
  have hz' : energy (b - A *ᵥ z.ofLp) ≤ energy (b - A *ᵥ y) := (hle _ _).2 hz
  refine ⟨z.ofLp, fun w => hz'.trans (hnearest w), fun w hw => ?_⟩
  have hfar := Metric.infDist_le_dist_of_mem (hmem w (hw.trans hz')) (x := 0)
  rw [hmin, dist_zero_left, dist_zero_left] at hfar
  exact (hle _ _).2 hfar

/-- Picks the shortest least-squares solution. -/
noncomputable def shortest : Backend ℝ :=
  .ofSolver "shortest" fun a b => Classical.epsilon (a.Shortest b)

/-- The backend that picks a shortest solution answers every request of fitting length with one.
-/
theorem shortest_shortest : shortest.Shortest := by
  intro i m n a b hb
  obtain ⟨z, hz⟩ := exists_shortestFit (of a.entry) (Signal.coords m b)
  have hexists : ∃ z, a.Shortest b z := by
    rw [← DenseMatrix.ofFn_entry a]
    refine ⟨Array.ofFn z, (DenseMatrix.shortest_ofFn_iff hb).2 ⟨Array.size_ofFn, ?_⟩⟩
    rw [Signal.coords_ofFn]
    exact hz
  exact ⟨_, if_pos hb, Classical.epsilon_spec hexists⟩

end Backend
end CompressedSensing
