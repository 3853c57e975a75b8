import Mathlib
import CompressedSensing.Proofs.Operator.Total
/-!
# Operators that agree

Two operators agree if they have one shape and give the same images of vectors of the right
lengths. What is computed from such vectors is then the same for both: residuals, matrices,
restricted solves and the estimate of the norm.

`HasImages a M` says that these images are products with a matrix `M`. This is all that recovery
sees of an operator: operators with one matrix agree, and unit vectors read the matrix and its
columns at a support off.
-/

namespace CompressedSensing

variable {T R : Type} [Scalar T R]

namespace Operator

/-- The two operators cannot be told apart by their images of vectors of the right lengths. -/
structure Agrees (a a' : Operator T) : Prop where
  rows_eq : a'.rows = a.rows
  cols_eq : a'.cols = a.cols
  apply_eq (x : Signal T) : x.size = a.cols → a'.apply x = a.apply x
  applyAdjoint_eq (y : Signal T) : y.size = a.rows → a'.applyAdjoint y = a.applyAdjoint y

/-- The residual is the measurement less the image, entry by entry. -/
lemma residual_eq_apply (a : Operator T) (b x : Signal T) :
    a.residual b x = a.apply x >>= fun ax => .ok (ax.mapIdx fun i v => match b[i]? with
      | some bi => bi - v
      | none => v) := by
  unfold residual apply
  cases a.image x with
  | ok v => exact congrArg Except.ok Vector.toArray_mapIdx
  | error e => rfl

/-- A column subset embeds its signal and applies the operator. -/
lemma apply_columnSubset (a : Operator T) (s : Array ℕ) (z : Signal T) :
    (ColumnSubset.toOperator ⟨a, s⟩).apply z = Signal.embed a.cols s z >>= a.apply := by
  show (Signal.embed a.cols s z >>= a.image) >>= _ = _
  cases Signal.embed a.cols s z with
  | ok x => rfl
  | error e => rfl

/-- A product applies its right factor first. -/
lemma apply_product (a b : Operator T) (x : Signal T) :
    (product a b).apply x = b.apply x >>= a.apply := by
  show (b.apply x >>= a.image) >>= _ = _
  cases b.apply x with
  | ok y => rfl
  | error e => rfl

/-- The adjoint of a product applies the adjoint of its left factor first. -/
lemma applyAdjoint_product (a b : Operator T) (y : Signal T) :
    (product a b).applyAdjoint y = a.applyAdjoint y >>= b.applyAdjoint := by
  show (a.applyAdjoint y >>= b.adjointImage) >>= _ = _
  cases a.applyAdjoint y with
  | ok x => rfl
  | error e => rfl

/-- Images are known by their entries. -/
lemma eq_of_toArray_eq {k : ℕ} {v v' : Except Error (Vector T k)}
    (h : (v >>= fun v => pure v.toArray) = v' >>= fun v => pure v.toArray) : v = v' := by
  cases v with
  | ok v =>
    cases v' with
    | ok v' => exact congrArg Except.ok (Vector.toArray_inj.1 (Except.ok.inj h))
    | error e' => cases h
  | error e =>
    cases v' with
    | ok v' => cases h
    | error e' => exact congrArg Except.error (Except.error.inj h)

/-- The power iteration knows an operator by what the two maps do one after the other. -/
lemma powerIteration_congr [RealLike R] {a a' : Operator T}
    (h : ∀ v : Signal T, v.size = a.cols →
      a'.apply v >>= a'.applyAdjoint = a.apply v >>= a.applyAdjoint)
    (steps : ℕ) {v : Signal T} (hv : v.size = a.cols) (last : R) :
    a'.powerIteration steps v last = a.powerIteration steps v last := by
  induction steps generalizing v last with
  | zero => rfl
  | succ steps ih =>
    have hstep := h v hv
    unfold powerIteration
    rw [← bind_assoc, hstep, ← bind_assoc]
    refine Except.bind_congr fun w hw => ?_
    obtain ⟨y, -, hw⟩ := Except.bind_eq_ok.1 hw
    have hnext (c : T) : (Signal.scale c w).size = a.cols := by
      rw [Signal.scale, Array.size_map, size_applyAdjoint hw]
    dsimp only
    rw [ih (hnext _)]

/-- The norm estimate depends on the composed map `x ↦ Aᴴ (A x)` only. -/
lemma normEstimateFrom_congr [RealLike R] {a a' : Operator T}
    (h : ∀ v : Signal T, v.size = a.cols →
      a'.apply v >>= a'.applyAdjoint = a.apply v >>= a.applyAdjoint) (steps : ℕ) :
    (a'.normEstimateFrom (normStart a.cols) steps : Except Error R)
      = a.normEstimateFrom (normStart a.cols) steps :=
  powerIteration_congr h _ (size_scale_normStart _ _) _

namespace Agrees

variable {a a' : Operator T}

/-- Operators that agree leave the same residual. -/
lemma residual_eq (h : a.Agrees a') (b : Signal T) {x : Signal T} (hx : x.size = a.cols) :
    a'.residual b x = a.residual b x := by
  rw [residual_eq_apply, residual_eq_apply, h.apply_eq x hx]

/-- What is computed from the matrix of either operator is the same. -/
lemma toMatrix_bind_eq {α : Type} (h : a.Agrees a')
    (f : (m n : ℕ) → DenseMatrix T m n → Solving α) :
    (Solving.ofExcept a'.toMatrix >>= f a'.rows a'.cols)
      = (Solving.ofExcept a.toMatrix >>= f a.rows a.cols) := by
  obtain ⟨rows, cols, times, trans⟩ := a
  obtain ⟨rows', cols', times', trans'⟩ := a'
  obtain rfl : rows' = rows := h.rows_eq
  obtain rfl : cols' = cols := h.cols_eq
  have hcolumn (j : Fin cols') :
      image ⟨rows', cols', times', trans'⟩ (Signal.unit cols' j)
        = image ⟨rows', cols', times, trans⟩ (Signal.unit cols' j) :=
    eq_of_toArray_eq (h.apply_eq _ (Signal.size_unit _ _))
  unfold toMatrix
  rw [funext hcolumn]

/-- On any support, valid or not. -/
lemma columnSubset (h : a.Agrees a') (s : Array ℕ) :
    (ColumnSubset.toOperator ⟨a, s⟩).Agrees (ColumnSubset.toOperator ⟨a', s⟩) where
  rows_eq := h.rows_eq
  cols_eq := rfl
  apply_eq z _ := by
    rw [apply_columnSubset, apply_columnSubset, h.cols_eq]
    exact Except.bind_congr fun x hx => h.apply_eq x (Signal.size_embed hx)
  applyAdjoint_eq y hy := by
    show (a'.applyAdjoint y >>= _) >>= _ = (a.applyAdjoint y >>= _) >>= _
    rw [h.applyAdjoint_eq y hy]
    rfl

/-- Restricted solves make the same requests. -/
lemma solveOn_eq (h : a.Agrees a') (b : Signal T) (s : Array ℕ) (backend : Backend T) :
    a'.solveOn b s backend = a.solveOn b s backend := by
  have hrequest : (Solving.ofExcept (a'.restrictedMatrix s) >>= fun columns =>
      request backend columns b)
      = Solving.ofExcept (a.restrictedMatrix s) >>= fun columns => request backend columns b :=
    (h.columnSubset s).toMatrix_bind_eq fun _ _ columns => request backend columns b
  unfold solveOn
  dsimp only
  rw [hrequest, h.cols_eq, h.rows_eq]

/-- Operators that agree have the same composed map `x ↦ Aᴴ (A x)`. -/
lemma apply_bind_applyAdjoint_eq (h : a.Agrees a') {v : Signal T} (hv : v.size = a.cols) :
    a'.apply v >>= a'.applyAdjoint = a.apply v >>= a.applyAdjoint := by
  rw [h.apply_eq v hv]
  exact Except.bind_congr fun y hy => h.applyAdjoint_eq y (size_apply hy)

/-- Operators that agree have the same norm estimate. -/
lemma normEstimate_eq [RealLike R] (h : a.Agrees a') (steps : ℕ) :
    (a'.normEstimate steps : Except Error R) = a.normEstimate steps := by
  unfold normEstimate
  rw [h.rows_eq, h.cols_eq, normEstimateFrom_congr fun v hv => h.apply_bind_applyAdjoint_eq hv]

end Agrees

/-! ## Images by a matrix -/

open Matrix
open scoped ExactScalar

variable [ExactScalar T] {m n : ℕ}

/-- The images of vectors of the right lengths are those of `M`. The maps themselves may do
anything with buffers that are not zero. -/
structure HasImages (a : Operator T) (M : Matrix (Fin m) (Fin n) T) : Prop where
  rows_eq : a.rows = m
  cols_eq : a.cols = n
  apply_eq (x : Signal T) : x.size = n →
    a.apply x = .ok (Array.ofFn (M *ᵥ Signal.coords n x))
  applyAdjoint_eq (y : Signal T) : y.size = m →
    a.applyAdjoint y = .ok (Array.ofFn (Mᴴ *ᵥ Signal.coords m y))

lemma HasMatrix.hasImages {a : Operator T} {M : Matrix (Fin m) (Fin n) T} (h : a.HasMatrix M) :
    a.HasImages M := ⟨h.rows_eq, h.cols_eq, h.apply_eq, h.applyAdjoint_eq⟩

omit [ExactScalar T] in
/-- A unit signal has the coordinates of a unit vector. -/
lemma coords_unit (j : Fin n) : Signal.coords n (Signal.unit n j : Signal T) = Pi.single j 1 := by
  rw [Signal.unit, Signal.coords_ofFn]
  funext i
  by_cases h : i = j
  · rw [h, Pi.single_eq_same, if_pos rfl]
  · rw [Pi.single_eq_of_ne h, if_neg (Fin.val_ne_of_ne h)]

/-- The matrix is read off the images of the unit signals. -/
lemma toMatrix_eq_of_apply {a : Operator T} {M : Matrix (Fin a.rows) (Fin a.cols) T}
    (h : ∀ x : Signal T, x.size = a.cols →
      a.apply x = .ok (Array.ofFn (M *ᵥ Signal.coords a.cols x))) :
    a.toMatrix = .ok (DenseMatrix.ofFn M) := by
  refine toMatrix_eq_of_image fun j => ?_
  have hj := h _ (Signal.size_unit a.cols j)
  rw [coords_unit, mulVec_single_one, ← Vector.toArray_ofFn] at hj
  exact eq_of_toArray_eq hj

/-- The residual is what the product with the matrix leaves of the measurement. -/
lemma residual_eq_of_apply {a : Operator T} {M : Matrix (Fin a.rows) (Fin a.cols) T}
    (h : ∀ x : Signal T, x.size = a.cols →
      a.apply x = .ok (Array.ofFn (M *ᵥ Signal.coords a.cols x)))
    {b x : Signal T} (hb : b.size = a.rows) (hx : x.size = a.cols) :
    a.residual b x
      = .ok (Array.ofFn (Signal.coords a.rows b - M *ᵥ Signal.coords a.cols x)) := by
  rw [residual_eq_apply, h x hx, Except.ok_bind, Signal.mapIdx_eq_ofFn _ _ Array.size_ofFn,
    Signal.coords_ofFn]
  congr 2
  funext i
  have hi : i.val < b.size := i.isLt.trans_eq hb.symm
  rw [Array.getElem?_eq_getElem hi, Pi.sub_apply, Signal.coords_eq_getElem b i hi]

/-- The columns at a support are read off the matrix. -/
lemma restrictedMatrix_eq_of_apply {a : Operator T} {M : Matrix (Fin a.rows) (Fin a.cols) T}
    (h : ∀ x : Signal T, x.size = a.cols →
      a.apply x = .ok (Array.ofFn (M *ᵥ Signal.coords a.cols x)))
    {s : Array ℕ} (hs : Support.Valid a.cols s) :
    a.restrictedMatrix s
      = .ok (DenseMatrix.ofFn (M * (Support.selection T s a.cols)ᴴ)) := by
  refine toMatrix_eq_of_apply (a := ColumnSubset.toOperator ⟨a, s⟩) fun z hz => ?_
  rw [apply_columnSubset, Signal.embed, if_pos ⟨hz.symm, hs.inBounds⟩, Except.ok_bind,
    h _ (Vector.size_toArray _), Support.scatter_eq_selection hs z hz,
    Signal.coords_toArray_ofFn, mulVec_mulVec]
  rfl

namespace HasImages

variable {a a' : Operator T} {M : Matrix (Fin m) (Fin n) T}

/-- Operators with the images of one matrix agree. -/
lemma agrees (h : a.HasImages M) (h' : a'.HasImages M) : a.Agrees a' where
  rows_eq := h'.rows_eq.trans h.rows_eq.symm
  cols_eq := h'.cols_eq.trans h.cols_eq.symm
  apply_eq x hx := by
    have hn := hx.trans h.cols_eq
    rw [h.apply_eq x hn, h'.apply_eq x hn]
  applyAdjoint_eq y hy := by
    have hm := hy.trans h.rows_eq
    rw [h.applyAdjoint_eq y hm, h'.applyAdjoint_eq y hm]

/-- The residual is `b - M x` in coordinates. -/
lemma residual_eq (h : a.HasImages M) {b x : Signal T} (hb : b.size = m) (hx : x.size = n) :
    a.residual b x = .ok (Array.ofFn (Signal.coords m b - M *ᵥ Signal.coords n x)) := by
  obtain ⟨rfl, rfl, happly, -⟩ := h
  exact residual_eq_of_apply happly hb hx

/-- A product of operators has the images of the product of their matrices. -/
lemma product {l : ℕ} {b : Operator T} {N : Matrix (Fin l) (Fin m) T} (ha : a.HasImages N)
    (hb : b.HasImages M) : (Operator.product a b).HasImages (N * M) where
  rows_eq := ha.rows_eq
  cols_eq := hb.cols_eq
  apply_eq x hx := by
    rw [apply_product, hb.apply_eq x hx, Except.ok_bind, ha.apply_eq _ Array.size_ofFn,
      Signal.coords_ofFn, mulVec_mulVec]
  applyAdjoint_eq y hy := by
    rw [applyAdjoint_product, ha.applyAdjoint_eq y hy, Except.ok_bind,
      hb.applyAdjoint_eq _ Array.size_ofFn, Signal.coords_ofFn, mulVec_mulVec, conjTranspose_mul]

/-- The operator followed by its adjoint is the Gram matrix. -/
lemma apply_bind_applyAdjoint (h : a.HasImages M) {x : Signal T} (hx : x.size = n) :
    a.apply x >>= a.applyAdjoint = .ok (Array.ofFn ((Mᴴ * M) *ᵥ Signal.coords n x)) := by
  rw [h.apply_eq x hx, Except.ok_bind, h.applyAdjoint_eq _ Array.size_ofFn, Signal.coords_ofFn,
    mulVec_mulVec]

/-- The restricted matrix holds the columns on the support. -/
lemma restrictedMatrix_eq {M : Matrix (Fin a.rows) (Fin a.cols) T} (h : a.HasImages M)
    {s : Array ℕ} (hs : Support.Valid a.cols s) :
    a.restrictedMatrix s
      = .ok (DenseMatrix.ofFn (M * (Support.selection T s a.cols)ᴴ)) :=
  restrictedMatrix_eq_of_apply h.apply_eq hs

end HasImages

end Operator
end CompressedSensing
