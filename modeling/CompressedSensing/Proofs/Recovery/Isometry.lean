import Mathlib
import CompressedSensing.Proofs.Operator.Unitary
import CompressedSensing.Proofs.Recovery.Equivariance
/-!
# Measurements mapped by an isometry

An operator that its adjoint undoes keeps products of vectors. If the operator and the measurement
of a problem are mapped by it, the Gram matrix stays, so gradients, the lengths of images and the
estimate of the norm are the same, and so are the shortest least-squares solutions on any support.
Residuals are mapped and keep their norms. No method looks at a residual in another way, so both
problems have the same answer.
-/

namespace CompressedSensing

open Matrix Reals
open scoped ExactScalar

variable {T : Type} [Scalar T ℝ] [NormedScalar T] {l m n : ℕ} {N : Matrix (Fin l) (Fin m) T}

/-! ## The norm of an operator -/

namespace Operator

variable {a a' : Operator T} {M : Matrix (Fin m) (Fin n) T} {M' : Matrix (Fin l) (Fin n) T}

/-- Where nothing is seen, the power iteration ends at its first step. -/
lemma HasImages.powerIteration_eq_zero (h : a.HasImages M) (hM : Mᴴ * M = 0) (steps : ℕ)
    {v : Signal T} (hv : v.size = n) (last : ℝ) :
    a.powerIteration (steps + 1) v last = .ok 0 := by
  have hstep := h.apply_bind_applyAdjoint hv
  rw [hM, zero_mulVec] at hstep
  have hzero : (Signal.norm (Array.ofFn (0 : Fin n → T)) : ℝ) = 0 := by
    rw [Signal.norm_eq_sqrt_energy Array.size_ofFn, Signal.coords_ofFn]
    simp [energy, NormedScalar.normSq_zero]
  unfold powerIteration
  rw [← bind_assoc, hstep, Except.ok_bind]
  dsimp only
  rw [hzero]
  exact if_pos (by simp [RealLike.isZero])

/-- An operator without rows is no exception to the power iteration. -/
lemma HasImages.normEstimate_eq (h : a.HasImages M) (steps : ℕ) :
    (a.normEstimate steps : Except Error ℝ)
      = if a.cols = 0 then .ok 0 else a.normEstimateFrom (normStart a.cols) steps := by
  unfold normEstimate
  by_cases hcols : a.cols = 0
  · rw [if_pos (.inl hcols), if_pos hcols]
  · rw [if_neg hcols]
    by_cases hrows : a.rows = 0
    · have hM : Mᴴ * M = 0 := by
        ext i j
        rw [mul_apply]
        exact Finset.sum_eq_zero fun k _ => absurd k.isLt (by have := h.rows_eq; omega)
      obtain ⟨k, hk⟩ : ∃ k, max steps 1 = k + 1 := ⟨max steps 1 - 1, by omega⟩
      rw [if_pos (.inr hrows)]
      unfold normEstimateFrom
      rw [hk, h.powerIteration_eq_zero hM]
      rw [← h.cols_eq]
      exact size_scale_normStart _ _
    · rw [if_neg (by simp [hcols, hrows])]

/-- The estimate of the norm is known from the Gram matrix. -/
theorem HasImages.normEstimate_congr (h : a.HasImages M) (h' : a'.HasImages M')
    (hgram : M'ᴴ * M' = Mᴴ * M) (steps : ℕ) :
    (a'.normEstimate steps : Except Error ℝ) = a.normEstimate steps := by
  have hcols : a'.cols = a.cols := h'.cols_eq.trans h.cols_eq.symm
  have hstep (v : Signal T) (hv : v.size = a.cols) :
      a'.apply v >>= a'.applyAdjoint = a.apply v >>= a.applyAdjoint := by
    have hsize := hv.trans h.cols_eq
    rw [h.apply_bind_applyAdjoint hsize, h'.apply_bind_applyAdjoint hsize, hgram]
  rw [h.normEstimate_eq, h'.normEstimate_eq, hcols, normEstimateFrom_congr hstep]

end Operator

/-! ## Shortest solutions -/

/-- What coefficients leave keeps its energy. -/
lemma ShortestFit.isometry {M : Matrix (Fin m) (Fin n) T} {b : Fin m → T} {z : Fin n → T}
    (h : ShortestFit M b z) (hN : Nᴴ * N = 1) : ShortestFit (N * M) (N *ᵥ b) z := by
  have hleaves (w : Fin n → T) :
      energy (N *ᵥ b - (N * M) *ᵥ w) = energy (b - M *ᵥ w) := by
    rw [← mulVec_mulVec, ← mulVec_sub, energy_mulVec hN]
  constructor
  · intro w
    rw [hleaves, hleaves]
    exact h.fits w
  · intro w hw
    rw [hleaves, hleaves] at hw
    exact h.shortest w hw

/-- A shortest solution stays one when an isometry maps both the matrix and the measurement. -/
lemma Backend.Shortest.solve_isometry {s : Backend T} (hs : s.Shortest) (i : ℕ)
    {M : Matrix (Fin m) (Fin n) T} {b z : Signal T} (hb : b.size = m) (hN : Nᴴ * N = 1)
    (hz : s.solve i (DenseMatrix.ofFn M) b = .ok z) :
    s.solve i (DenseMatrix.ofFn (N * M)) (Array.ofFn (N *ᵥ Signal.coords m b)) = .ok z := by
  obtain ⟨y, hy, hshort⟩ := hs i (DenseMatrix.ofFn M) b hb
  rw [hz] at hy
  cases hy
  obtain ⟨hsize, hfit⟩ := (DenseMatrix.shortest_ofFn_iff hb).1 hshort
  have hmapped := hfit.isometry hN
  rw [← Signal.coords_ofFn (N *ᵥ Signal.coords m b)] at hmapped
  rw [hs.solve_eq i Array.size_ofFn hmapped, Signal.ofFn_coords z hsize]

/-! ## Changes of scale -/

namespace Rescaling

/-- An isometry maps residuals and leaves everything else as it is. -/
noncomputable def ofIsometry (N : Matrix (Fin l) (Fin m) T) : Rescaling T where
  signal := 1
  step := 1
  norm := 1
  residual r := Array.ofFn (N *ᵥ Signal.coords m r)
  signal_ne := NormedScalar.one_ne_zero
  step_pos := Real.zero_lt_one
  norm_pos := Real.zero_lt_one

/-- An isometry keeps the gradient. -/
lemma gradient_ofIsometry (N : Matrix (Fin l) (Fin m) T) : (ofIsometry N).gradient = 1 := by
  unfold gradient ofIsometry
  rw [inv_one, EuclideanScalar.ofReal_one, mul_one]

/-- An isometry keeps the answer. -/
lemma answer_ofIsometry (N : Matrix (Fin l) (Fin m) T) (r : Recovered T ℝ) :
    (ofIsometry N).answer r = r := by
  unfold answer ofIsometry
  simp only [Signal.scale_one, one_mul, Array.map_id_fun', id_eq]

end Rescaling

namespace Problem

/-- The same signals measured through another operator. -/
def through (p : Problem T) (q : Operator T) (b : Signal T) : Problem T :=
  { p with operator := Operator.product q p.operator, measurement := b }

variable {p : Problem T} {M : Matrix (Fin p.operator.rows) (Fin p.operator.cols) T} {q : Operator T}
  {N : Matrix (Fin q.rows) (Fin p.operator.rows) T}

namespace Linear

variable (h : p.Linear M) (hq : q.HasImages N) (hN : Nᴴ * N = 1) (hs : p.backend.Shortest)
include h hq hN hs

/-- Inner products are all that the two problems look at. -/
theorem rescaled_through :
    p.Rescaled (p.through q (Array.ofFn (N *ᵥ p.target))) (Rescaling.ofIsometry N) where
  cols_eq := rfl
  sparsity_eq := rfl
  size_eq := Array.size_ofFn
  measurement_eq := rfl
  residual_eq x r hx hr := by
    rw [h.residual_eq hx] at hr
    cases hr
    have hmapped := (hq.product h.images).residual_eq (b := Array.ofFn (N *ᵥ p.target))
      Array.size_ofFn hx
    have hone : Signal.scale (Rescaling.ofIsometry N).signal x = x := Signal.scale_one x
    rw [hone]
    refine hmapped.trans (congrArg (Except.ok ∘ Array.ofFn) ?_)
    rw [Signal.coords_ofFn, Signal.coords_ofFn, misfit, mulVec_sub, mulVec_mulVec]
  gradient_eq r g hr hg := by
    have hback : q.applyAdjoint (Array.ofFn (N *ᵥ Signal.coords p.operator.rows r)) = .ok r := by
      rw [hq.applyAdjoint_eq _ Array.size_ofFn, Signal.coords_ofFn, mulVec_mulVec, hN, one_mulVec,
        Signal.ofFn_coords r hr]
    -- the gradient passes through `q` first, which undoes the map of the residual
    show (Operator.product q p.operator).applyAdjoint (Array.ofFn _) = _
    rw [Operator.applyAdjoint_product, hback, Except.ok_bind, Rescaling.gradient_ofIsometry,
      Signal.scale_one, hg]
  norm_eq r hr := by
    have hnorm := Signal.normSq_ofFn_mulVec hN hr
    rw [Rescaling.ofIsometry, one_mul]
    exact congrArg Real.sqrt hnorm
  images d x y hx hy := by
    have himage := h.images.apply_scale d hx hy
    have hsize := Operator.size_apply himage
    refine ⟨Array.ofFn (N *ᵥ Signal.coords p.operator.rows (Signal.scale d y)), ?_, ?_⟩
    · show (Operator.product q p.operator).apply _ = _
      rw [Operator.apply_product, himage, Except.ok_bind, hq.apply_eq _ hsize]
    · rw [Signal.normSq_ofFn_mulVec hN hsize, Signal.normSq_scale]
      exact one_mul _
  fit_returns s i j z hz := by
    refine fit_returns_of_solve hz Array.size_ofFn rfl ?_
    intro s i z columns hvalid hcolumns hanswer
    rw [h.images.restrictedMatrix_eq hvalid] at hcolumns
    cases hcolumns
    -- the request has both the columns and the measurement mapped, so the answer is the same
    have hmapped := hs.solve_isometry i h.size_eq hN hanswer
    rw [← Matrix.mul_assoc] at hmapped
    refine ⟨_, (hq.product h.images).restrictedMatrix_eq hvalid, hmapped.trans ?_⟩
    exact congrArg Except.ok (Signal.scale_one z).symm
  size_fit i j z _ hz := by
    rw [size_of_minimizing_fit hs.leastSquares.minimizing hz, Array.size_range]

/-- The recoveries cannot be told apart, whether they succeed or not. -/
theorem recover_through [DecimalText ℝ] (alg : Algorithm) (o : Options ℝ) :
    (p.through q (Array.ofFn (N *ᵥ p.target))).recover alg o = p.recover alg o := by
  have hrescaled := h.rescaled_through hq hN hs
  cases hcheck : p.check o with
  | error e =>
    -- the entry checks come first and see the same
    unfold recover
    rw [hrescaled.check_eq h.size_eq, hcheck]
    exact Solving.bind_congr fun i u j hu => absurd hu Solving.not_returns_throw
  | ok =>
    apply Solving.ext_of_returns
    intro i
    obtain ⟨r, j, hr⟩ := h.recover_returns hs.leastSquares alg hcheck i
    obtain ⟨m, hm⟩ := h.exists_method alg o
    have hm' := alg.method_congr_operator
      (h.images.normEstimate_congr (hq.product h.images) (gram_mul hN M) o.normIterations)
    rw [hm] at hm'
    have hr' := hrescaled.recover_returns_of_step (.inl rfl) (fun _ => rfl) hm hm' hr
    rw [Rescaling.answer_ofIsometry] at hr'
    exact ⟨r, j, hr', hr⟩

end Linear

/-- Let the adjoint of `q` undo it on vectors of the length that the operator gives. Then the
product with `q` exists, and with a backend for shortest least-squares solutions every recovery
from it and the image of the measurement is the recovery from the operator and the measurement
itself, with the whole answer, for every sparsity, algorithm and options. -/
theorem recover_compose_isometry [DecimalText ℝ] {a q : Operator T} {b : Signal T} {s : Backend T}
    (ha : a.Adjunction) (hq : q.Adjunction) (hcols : q.cols = a.rows)
    (hinv : ∀ y : Signal T, y.size = a.rows → q.apply y >>= q.applyAdjoint = .ok y)
    (hs : s.Shortest) (hb : b.size = a.rows) :
    ∃ qa qb, q.compose? a = .ok qa ∧ q.apply b = .ok qb ∧
      ∀ (k : ℕ) (alg : Algorithm) (o : Options ℝ),
        (⟨qa, qb, k, s⟩ : Problem T).recover alg o = (⟨a, b, k, s⟩ : Problem T).recover alg o := by
  obtain ⟨M, hM⟩ := ha.exists_hasImages
  have hisometry : ∃ N : Matrix (Fin q.rows) (Fin a.rows) T, q.HasImages N ∧ Nᴴ * N = 1 := by
    obtain ⟨N, hN⟩ := hq.exists_hasImages
    rw [← hcols] at hinv ⊢
    exact ⟨N, hN, hN.orthonormal hinv⟩
  obtain ⟨N, hN, hunit⟩ := hisometry
  refine ⟨Operator.product q a, _, if_pos hcols, hN.apply_eq b hb, ?_⟩
  intro k alg o
  have h : (⟨a, b, k, s⟩ : Problem T).Linear M := ⟨hM, hb⟩
  exact h.recover_through hN hunit hs alg o

/-- Two orthonormal vectors of three entries. -/
noncomputable def planeColumns : Matrix (Fin 3) (Fin 2) ℝ :=
  !![(3 : ℕ) / (5 : ℕ), 0; (4 : ℕ) / (5 : ℕ), 0; 0, 1]

lemma orthonormal_planeColumns : planeColumnsᴴ * planeColumns = 1 := by
  ext i j
  fin_cases i <;> fin_cases j <;>
    norm_num [planeColumns, mul_apply, Fin.sum_univ_succ]

/-- Maps the plane into space. -/
noncomputable def intoSpace : Operator ℝ := .dense (.ofFn planeColumns)

lemma hasImages_intoSpace : intoSpace.HasImages planeColumns :=
  (Operator.hasMatrix_dense_ofFn planeColumns).hasImages

/-- Three measurements in the place of two. -/
theorem recover_compose_isometry_unevenPair :
    ∃ qa qb, intoSpace.compose? unevenPair.operator = .ok qa ∧
      intoSpace.apply unevenPair.measurement = .ok qb ∧
      (⟨qa, qb, 1, .shortest⟩ : Problem ℝ).recover .cosamp Options.standard
        = unevenPair.recover .cosamp Options.standard := by
  have hinv (y : Signal ℝ) (hy : y.size = 2) :
      intoSpace.apply y >>= intoSpace.applyAdjoint = .ok y := by
    rw [hasImages_intoSpace.apply_bind_applyAdjoint hy, orthonormal_planeColumns, one_mulVec,
      Signal.ofFn_coords y hy]
  obtain ⟨qa, qb, hqa, hqb, hsame⟩ := recover_compose_isometry linear_unevenPair.images.adjunction
    hasImages_intoSpace.adjunction rfl hinv Backend.shortest_shortest
    (b := unevenPair.measurement) rfl
  exact ⟨qa, qb, hqa, hqb, hsame 1 .cosamp Options.standard⟩

end Problem
end CompressedSensing
