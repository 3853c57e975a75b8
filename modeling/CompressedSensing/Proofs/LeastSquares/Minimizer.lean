import Mathlib
import CompressedSensing.Proofs.Operator.Adjunction
/-!
# Backends that minimize

`LeastSquares s` says that a backend answers every request of fitting length with a vector that
leaves a residual of least norm, and `Minimizing s` that it does so as far as it answers. Over the
real numbers there is such a backend, because a residual of least norm exists for every matrix: it
is the distance from the range. On orthonormal columns there is only one answer, `Mᴴ b`.
-/

namespace CompressedSensing

open Matrix Reals

variable {T : Type} [Scalar T ℝ]

/-- No vector leaves a smaller residual than `z`. -/
def DenseMatrix.Minimizes {m n : ℕ} (a : DenseMatrix T m n) (b z : Signal T) : Prop :=
  z.size = n ∧ ∀ w r r' : Signal T, w.size = n → (Operator.dense a).residual b z = .ok r →
    (Operator.dense a).residual b w = .ok r' → (Signal.norm r : ℝ) ≤ Signal.norm r'

omit [Scalar T ℝ] in
lemma DenseMatrix.ofFn_entry {m n : ℕ} (a : DenseMatrix T m n) : ofFn a.entry = a := by
  rcases a with ⟨columns⟩
  simp [ofFn, entry]

open scoped ExactScalar in
/-- Minimizing is a matter of energies. -/
lemma DenseMatrix.minimizes_ofFn_iff [EuclideanScalar T] {m n : ℕ}
    {M : Matrix (Fin m) (Fin n) T} {b z : Signal T} (hb : b.size = m) :
    (ofFn M).Minimizes b z ↔ z.size = n ∧ ∀ w : Fin n → T,
      energy (Signal.coords m b - M *ᵥ Signal.coords n z)
        ≤ energy (Signal.coords m b - M *ᵥ w) := by
  have himages := (Operator.hasMatrix_dense_ofFn M).hasImages
  have hnorm (v : Fin m → T) : (Signal.norm (Array.ofFn v) : ℝ) = Real.sqrt (energy v) := by
    rw [Signal.norm_eq_sqrt_energy Array.size_ofFn, Signal.coords_ofFn]
  refine and_congr_right fun hz => ⟨fun h w => ?_, fun h w r r' hw hr hr' => ?_⟩
  · have hle := h (Array.ofFn w) _ _ Array.size_ofFn (himages.residual_eq hb hz)
      (himages.residual_eq hb Array.size_ofFn)
    rwa [hnorm, hnorm, Real.sqrt_le_sqrt_iff (energy_nonneg _), Signal.coords_ofFn] at hle
  · rw [himages.residual_eq hb hz] at hr
    rw [himages.residual_eq hb hw] at hr'
    cases hr
    cases hr'
    rw [hnorm, hnorm]
    exact Real.sqrt_le_sqrt (h _)

namespace Backend

/-- The answers are least-squares solutions. -/
def LeastSquares (s : Backend T) : Prop :=
  ∀ (i : ℕ) {m n : ℕ} (a : DenseMatrix T m n) (b : Signal T), b.size = m →
    ∃ z, s.solve i a b = .ok z ∧ a.Minimizes b z

/-- Whatever is answered to a request of fitting length is a least-squares solution. Requests may be
refused. -/
def Minimizing (s : Backend T) : Prop :=
  ∀ (i : ℕ) {m n : ℕ} (a : DenseMatrix T m n) (b z : Signal T), b.size = m →
    s.solve i a b = .ok z → a.Minimizes b z

/-- A backend that always answers with a minimizer is minimizing. -/
lemma LeastSquares.minimizing {s : Backend T} (hs : s.LeastSquares) : s.Minimizing := by
  intro i m n a b z hb hz
  obtain ⟨z', hz', hmin⟩ := hs i a b hb
  rw [hz] at hz'
  cases hz'
  exact hmin

open scoped ExactScalar

variable [EuclideanScalar T] {s : Backend T} {m n : ℕ}

/-- An answer has the least energy. -/
lemma Minimizing.energy_le (hs : s.Minimizing) {i : ℕ} {M : Matrix (Fin m) (Fin n) T}
    {b z : Signal T} (hb : b.size = m) (hz : s.solve i (DenseMatrix.ofFn M) b = .ok z)
    (w : Fin n → T) : energy (Signal.coords m b - M *ᵥ Signal.coords n z)
      ≤ energy (Signal.coords m b - M *ᵥ w) :=
  ((DenseMatrix.minimizes_ofFn_iff hb).1 (hs i _ b z hb hz)).2 w

/-- The answer has the least energy. -/
lemma LeastSquares.exists_energy_le (hs : s.LeastSquares) (i : ℕ) (M : Matrix (Fin m) (Fin n) T)
    {b : Signal T} (hb : b.size = m) :
    ∃ z, s.solve i (DenseMatrix.ofFn M) b = .ok z ∧ z.size = n ∧ ∀ w : Fin n → T,
      energy (Signal.coords m b - M *ᵥ Signal.coords n z)
        ≤ energy (Signal.coords m b - M *ᵥ w) := by
  obtain ⟨z, hz, hmin⟩ := hs i (DenseMatrix.ofFn M) b hb
  exact ⟨z, hz, (DenseMatrix.minimizes_ofFn_iff hb).1 hmin⟩

/-- On orthonormal columns the answer is unique. -/
theorem LeastSquares.solve_eq (hs : s.LeastSquares) (i : ℕ) {M : Matrix (Fin m) (Fin n) T}
    (hM : Mᴴ * M = 1) {b : Signal T} (hb : b.size = m) :
    s.solve i (DenseMatrix.ofFn M) b = .ok (Array.ofFn (Mᴴ *ᵥ Signal.coords m b)) := by
  obtain ⟨z, hz, hsize, hmin⟩ := hs.exists_energy_le i M hb
  rw [hz, ← Signal.ofFn_coords z hsize, eq_of_energy_le hM (hmin _)]

end Backend

/-! ## Least squares over the real numbers -/

namespace Backend

/-- The range of a matrix has a point that is nearest to `b`. -/
lemma exists_nearest {m n : ℕ} (A : Matrix (Fin m) (Fin n) ℝ) (b : Fin m → ℝ) :
    ∃ z : Fin n → ℝ, ∀ w, ∑ i, (b i - (A *ᵥ z) i) ^ 2 ≤ ∑ i, (b i - (A *ᵥ w) i) ^ 2 := by
  have hnorm (v : Fin n → ℝ) : ‖WithLp.toLp 2 b - toEuclideanLin A (WithLp.toLp 2 v)‖ ^ 2
      = ∑ i, (b i - (A *ᵥ v) i) ^ 2 := by
    rw [EuclideanSpace.real_norm_sq_eq]
    rfl
  obtain ⟨_, ⟨z, rfl⟩, hz⟩ := Submodule.exists_norm_eq_iInf_of_complete_subspace
    (LinearMap.range (toEuclideanLin A)) (Submodule.complete_of_finiteDimensional _)
    (WithLp.toLp 2 b)
  refine ⟨z.ofLp, fun w => ?_⟩
  rw [← hnorm, ← hnorm]
  refine pow_le_pow_left₀ (norm_nonneg _) ?_ 2
  rw [WithLp.toLp_ofLp, hz]
  refine ciInf_le ⟨0, ?_⟩ (⟨_, LinearMap.mem_range_self _ (WithLp.toLp 2 w)⟩ :
    LinearMap.range (toEuclideanLin A))
  rintro _ ⟨y, rfl⟩
  exact norm_nonneg _

/-- A residual of least norm exists for every matrix. -/
lemma exists_minimizes {m n : ℕ} (a : DenseMatrix ℝ m n) {b : Signal ℝ} (hb : b.size = m) :
    ∃ z, a.Minimizes b z := by
  obtain ⟨z, hz⟩ := exists_nearest (of a.entry) (Signal.coords m b)
  rw [← DenseMatrix.ofFn_entry a]
  refine ⟨Array.ofFn z, (DenseMatrix.minimizes_ofFn_iff hb).2 ⟨Array.size_ofFn, fun w => ?_⟩⟩
  have hle := hz w
  simp only [pow_two] at hle
  rw [Signal.coords_ofFn]
  exact hle

instance : Nonempty (Signal T) := ⟨#[]⟩

/-- Picks a least-squares solution. -/
noncomputable def leastSquares : Backend ℝ :=
  .ofSolver "least-squares" fun a b => Classical.epsilon (a.Minimizes b)

/-- The backend that picks a minimizer answers every request of fitting length. -/
theorem leastSquares_leastSquares : leastSquares.LeastSquares := fun _ _ _ a _ hb =>
  ⟨_, if_pos hb, Classical.epsilon_spec (exists_minimizes a hb)⟩

end Backend
end CompressedSensing
