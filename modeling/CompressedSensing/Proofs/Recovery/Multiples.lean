import Mathlib
import CompressedSensing.Proofs.LeastSquares.Homogeneous
import CompressedSensing.Proofs.Recovery.Linear
import CompressedSensing.Proofs.Recovery.Lockstep
/-!
# Multiples of measurements and of operators

Multiplying the measurement by `c` is a change of scale: signals, residuals and gradients are
multiplied by `c`, and steps stay. Multiplying the operator by `c` is another one: signals are
divided by `c`, residuals stay, and steps are divided by `|c|²`. In either case the backend has to
answer accordingly, and where the fit on all columns is the answer, with one coefficient per column.
-/

namespace CompressedSensing

open Matrix Reals
open scoped ExactScalar

variable {T : Type} [Scalar T ℝ] [NormedScalar T] {c : T}

/-! ## Changes of scale -/

/-- The change of scale that a factor of the measurement makes. -/
noncomputable def Rescaling.ofMeasurement (hc : c ≠ 0) : Rescaling T where
  signal := c
  step := 1
  norm := Scalar.modulus c
  residual := Signal.scale c
  signal_ne := hc
  step_pos := one_pos
  norm_pos := NormedScalar.modulus_pos hc

lemma Rescaling.gradient_ofMeasurement (hc : c ≠ 0) : (ofMeasurement hc).gradient = c := by
  unfold gradient ofMeasurement
  rw [inv_one, EuclideanScalar.ofReal_one, mul_one]

/-- The change of scale that undoes a factor of the operator. -/
noncomputable def Rescaling.ofFactor (hc : c ≠ 0) : Rescaling T where
  signal := 1 / c
  step := (Scalar.normSq c)⁻¹
  norm := 1
  residual := id
  signal_ne := NormedScalar.one_div_ne_zero hc
  step_pos := inv_pos.2 (NormedScalar.normSq_pos hc)
  norm_pos := one_pos

lemma Rescaling.gradient_ofFactor (hc : c ≠ 0) : (ofFactor hc).gradient = star c := by
  have hone := NormedScalar.one_div_mul_cancel hc
  have hnorm : star c * c = Scalar.ofReal (Scalar.normSq c) := EuclideanScalar.conj_mul_self c
  unfold gradient ofFactor
  rw [inv_inv, ← hnorm]
  linear_combination star c * hone

namespace Operator

variable {a : Operator T} {m n : ℕ} {M : Matrix (Fin m) (Fin n) T} {x y : Signal T}

omit [NormedScalar T] in
lemma apply_scaled (c : T) (h : a.apply x = .ok y) :
    (Scaled.toOperator ⟨a, c⟩).apply x = .ok (Signal.scale c y) := by
  unfold apply at h ⊢
  obtain ⟨v, hv, h⟩ := Except.bind_eq_ok.1 h
  cases h
  show (a.image x >>= fun z => pure (z.map (· * c))) >>= (fun z => pure z.toArray) = _
  rw [hv]
  exact congrArg Except.ok (Vector.toArray_map ..)

omit [NormedScalar T] in
lemma applyAdjoint_scaled (c : T) (h : a.applyAdjoint y = .ok x) :
    (Scaled.toOperator ⟨a, c⟩).applyAdjoint y = .ok (Signal.scale (Scalar.conj c) x) := by
  unfold applyAdjoint at h ⊢
  obtain ⟨v, hv, h⟩ := Except.bind_eq_ok.1 h
  cases h
  show (a.adjointImage y >>= fun z => pure (z.map (· * Scalar.conj c))) >>=
    (fun z => pure z.toArray) = _
  rw [hv]
  exact congrArg Except.ok (Vector.toArray_map ..)

namespace HasImages

variable (h : a.HasImages M)
include h

lemma scaled (c : T) : (Scaled.toOperator ⟨a, c⟩).HasImages (c • M) where
  rows_eq := h.rows_eq
  cols_eq := h.cols_eq
  apply_eq x hx := by
    rw [apply_scaled c (h.apply_eq x hx), Signal.scale_ofFn, smul_mulVec]
  applyAdjoint_eq y hy := by
    rw [applyAdjoint_scaled c (h.applyAdjoint_eq y hy), Signal.scale_ofFn, conjTranspose_smul,
      smul_mulVec]
    rfl

/-- Images are homogeneous. -/
lemma apply_scale (d : T) (hx : x.size = n) (hy : a.apply x = .ok y) :
    a.apply (Signal.scale d x) = .ok (Signal.scale d y) := by
  rw [h.apply_eq x hx] at hy
  cases hy
  rw [h.apply_eq _ ((Signal.size_scale d x).trans hx), Signal.coords_scale, mulVec_smul,
    Signal.scale_ofFn]

lemma applyAdjoint_scale (d : T) (hy : y.size = m) (hx : a.applyAdjoint y = .ok x) :
    a.applyAdjoint (Signal.scale d y) = .ok (Signal.scale d x) := by
  rw [h.applyAdjoint_eq y hy] at hx
  cases hx
  rw [h.applyAdjoint_eq _ ((Signal.size_scale d y).trans hy), Signal.coords_scale, mulVec_smul,
    Signal.scale_ofFn]

/-- Residuals are homogeneous in the measurement and the signal together. -/
lemma residual_scale (d : T) {b r : Signal T} (hb : b.size = m) (hx : x.size = n)
    (hr : a.residual b x = .ok r) :
    a.residual (Signal.scale d b) (Signal.scale d x) = .ok (Signal.scale d r) := by
  rw [h.residual_eq hb hx] at hr
  cases hr
  rw [h.residual_eq ((Signal.size_scale d b).trans hb) ((Signal.size_scale d x).trans hx),
    Signal.coords_scale, Signal.coords_scale, mulVec_smul, ← smul_sub, Signal.scale_ofFn]

end HasImages

end Operator

namespace Signal

/-- The norm scales with the modulus of the factor. -/
lemma norm_scale (d : T) (x : Signal T) :
    (norm (scale d x) : ℝ) = Scalar.modulus d * norm x := by
  unfold norm
  rw [normSq_scale, NormedScalar.modulus_eq_sqrt]
  exact Real.sqrt_mul (EuclideanScalar.normSq_nonneg d) _

end Signal

namespace Problem

variable {p : Problem T} {M : Matrix (Fin p.operator.rows) (Fin p.operator.cols) T}

/-- The same problem with a multiple of the operator. -/
def scaled (p : Problem T) (c : T) : Problem T :=
  p.withOperator (Scaled.toOperator ⟨p.operator, c⟩)

lemma Linear.scaled (h : p.Linear M) (c : T) : (p.scaled c).Linear (c • M) :=
  ⟨h.images.scaled c, h.size_eq⟩

/-- Dividing signals by the factor makes up for it, if the backend does so with its answers. -/
theorem Linear.rescaled_of_inverselyHomogeneous (h : p.Linear M) (hc : c ≠ 0)
    (hs : p.backend.InverselyHomogeneous c)
    (hsize : p.sparsity = p.operator.cols → ∀ (i j : ℕ) (z : Signal T),
      (p.fit (Array.range p.operator.cols)).Returns i z j → z.size = p.operator.cols) :
    p.Rescaled (p.scaled c) (Rescaling.ofFactor hc) where
  cols_eq := rfl
  sparsity_eq := rfl
  size_eq := h.size_eq
  measurement_eq := rfl
  residual_eq x r hx hr := by
    rw [Operator.residual_eq_apply] at hr
    obtain ⟨y, hy, hr⟩ := Except.bind_eq_ok.1 hr
    -- the image is not changed, since the two factors cancel
    have hundone : ((p.scaled c).operator).apply (Signal.scale (1 / c) x) = .ok y := by
      have hscaled := Operator.apply_scaled c (h.images.apply_scale (1 / c) hx hy)
      rwa [Signal.scale_scale, NormedScalar.one_div_mul_cancel hc, Signal.scale_one] at hscaled
    show (p.scaled c).operator.residual p.measurement (Signal.scale (1 / c) x) = .ok r
    rw [Operator.residual_eq_apply, hundone]
    exact hr
  gradient_eq r g _ hg := by
    rw [Rescaling.gradient_ofFactor]
    exact Operator.applyAdjoint_scaled c hg
  norm_eq r _ := (one_mul _).symm
  images d x y hx hy := by
    refine ⟨_, Operator.apply_scaled c (h.images.apply_scale d hx hy), ?_⟩
    have hpos := NormedScalar.normSq_pos hc
    rw [Signal.normSq_scale, Signal.normSq_scale]
    exact inv_mul_cancel_left₀ hpos.ne' _
  fit_returns s i j z hz := by
    refine fit_returns_of_solve hz (h.scaled c).size_eq rfl ?_
    intro s i z columns hvalid hcolumns hanswer
    rw [h.images.restrictedMatrix_eq hvalid] at hcolumns
    cases hcolumns
    refine ⟨_, (h.scaled c).images.restrictedMatrix_eq hvalid, ?_⟩
    -- the restricted matrix is the multiple of the one before
    have hanswer' := hs i (DenseMatrix.ofFn (M * (Support.selection T s p.operator.cols)ᴴ))
      p.measurement h.size_eq
    rw [DenseMatrix.scaled_ofFn, ← Matrix.smul_mul] at hanswer'
    refine hanswer'.trans ?_
    rw [hanswer]
    exact congrArg Except.ok (Signal.scale_one_div hc z).symm
  size_fit i j z hall := hsize hall i j z

/-- A problem and the one with `c` times the operator are rescalings of each other. -/
theorem Linear.rescaled (h : p.Linear M) (hs : p.backend.Shortest) (hc : c ≠ 0) :
    p.Rescaled (p.scaled c) (Rescaling.ofFactor hc) := by
  refine h.rescaled_of_inverselyHomogeneous hc (hs.inverselyHomogeneous hc) fun _ i j z hz => ?_
  rw [size_of_minimizing_fit hs.leastSquares.minimizing hz, Array.size_range]

/-- The same problem with a multiple of the measurement. -/
def measured (p : Problem T) (c : T) : Problem T :=
  { p with measurement := Signal.scale c p.measurement }

/-- A factor of the measurement is a factor of the signal, if the backend answers like that. -/
theorem Linear.remeasured (h : p.Linear M) (hc : c ≠ 0) (hs : p.backend.Homogeneous c)
    (hsize : p.sparsity = p.operator.cols → ∀ (i j : ℕ) (z : Signal T),
      (p.fit (Array.range p.operator.cols)).Returns i z j → z.size = p.operator.cols) :
    p.Rescaled (p.measured c) (Rescaling.ofMeasurement hc) where
  cols_eq := rfl
  sparsity_eq := rfl
  size_eq := (Signal.size_scale c _).trans h.size_eq
  measurement_eq := rfl
  residual_eq x r hx hr := h.images.residual_scale c h.size_eq hx hr
  gradient_eq r g hr hg := by
    rw [Rescaling.gradient_ofMeasurement]
    exact h.images.applyAdjoint_scale c hr hg
  norm_eq r _ := Signal.norm_scale c r
  images d x y hx hy := by
    refine ⟨_, h.images.apply_scale d hx hy, ?_⟩
    rw [Signal.normSq_scale]
    exact one_mul _
  fit_returns s i j z hz := by
    refine fit_returns_of_solve hz ((Signal.size_scale c _).trans h.size_eq) rfl ?_
    intro s i z columns _ hcolumns hanswer
    refine ⟨columns, hcolumns, (hs i columns p.measurement h.size_eq).trans ?_⟩
    rw [hanswer]
    rfl
  size_fit i j z hall := hsize hall i j z

end Problem
end CompressedSensing
