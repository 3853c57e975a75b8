import Mathlib
import CompressedSensing.Operator.Diagnostics
import CompressedSensing.Proofs.Operator.AdjointLaw
import CompressedSensing.Proofs.Recovery.Solving
import CompressedSensing.Support.Restricted
/-!
# Operators that accept what fits

`Total a` says that the maps of an operator succeed on vectors and buffers of the right lengths.
Whatever is computed with an operator from vectors of the right lengths then succeeds as well:
images, residuals, the matrix, restrictions to columns and the estimate of the norm. Scalars
obey no law here.
-/

namespace CompressedSensing

variable {T R : Type} [Scalar T R] {n : ℕ}

/-! ## Reading and writing at a support -/

namespace Signal

/-- Gathering on a valid support succeeds, with one value per index. -/
lemma gather_ok {x : Signal T} {s : Array ℕ} (hs : Support.Valid x.size s) :
    ∃ v, x.gather s = .ok v ∧ v.size = s.size := by
  unfold gather
  rw [if_pos hs.inBounds]
  exact ⟨_, rfl, Array.size_map⟩

/-- Embedding as many values as a valid support has indices succeeds. -/
lemma embed_ok {s : Array ℕ} {v : Signal T} (hs : Support.Valid n s) (hv : v.size = s.size) :
    ∃ x, embed n s v = .ok x ∧ x.size = n := by
  unfold embed
  rw [if_pos ⟨hv.symm, hs.inBounds⟩]
  exact ⟨_, rfl, Vector.size_toArray _⟩

/-- An embedded signal has the length that was asked for. -/
lemma size_embed {s : Array ℕ} {v x : Signal T} (h : embed n s v = .ok x) : x.size = n := by
  unfold embed at h
  split at h
  · cases h
    exact Vector.size_toArray _
  · cases h

lemma size_unit (n j : ℕ) : (unit n j : Signal T).size = n := Array.size_ofFn

end Signal

namespace Operator

/-! ## The length of images -/

lemma size_apply {a : Operator T} {x y : Signal T} (h : a.apply x = .ok y) : y.size = a.rows := by
  unfold apply at h
  rcases Except.bind_eq_ok.1 h with ⟨v, -, h⟩
  cases h
  exact v.size_toArray

lemma size_applyAdjoint {a : Operator T} {y z : Signal T} (h : a.applyAdjoint y = .ok z) :
    z.size = a.cols := by
  unfold applyAdjoint at h
  rcases Except.bind_eq_ok.1 h with ⟨v, -, h⟩
  cases h
  exact v.size_toArray

lemma size_residual {a : Operator T} {b x r : Signal T} (h : a.residual b x = .ok r) :
    r.size = a.rows := by
  unfold residual at h
  rcases Except.bind_eq_ok.1 h with ⟨v, -, h⟩
  cases h
  exact Vector.size_toArray _

/-- The multiples of the start vector of the power iteration have one entry per column. -/
lemma size_scale_normStart [RealLike R] (n : ℕ) (c : T) :
    (Signal.scale c (normStart n : Signal T)).size = n := by
  rw [Signal.scale, Array.size_map]
  exact Normal.size_drawSignal _ _

/-- Unit vectors read the matrix off the images. -/
lemma toMatrix_eq_of_image {a : Operator T} {column : Fin a.cols → Vector T a.rows}
    (h : ∀ j : Fin a.cols, a.image (Signal.unit a.cols j) = .ok (column j)) :
    a.toMatrix = .ok ⟨Vector.ofFn column⟩ := by
  unfold toMatrix
  rw [funext h]
  show Vector.ofFnM (fun j => pure (column j)) >>= _ = _
  rw [Vector.ofFnM_pure]
  rfl

/-- The restricted matrix is read off the images of the unit signals of the column subset. -/
lemma restrictedMatrix_eq_of_image {a : Operator T} {s : Array ℕ}
    {column : Fin s.size → Vector T a.rows}
    (h : ∀ j : Fin s.size, (ColumnSubset.toOperator ⟨a, s⟩).image (Signal.unit s.size j)
      = .ok (column j)) :
    a.restrictedMatrix s = .ok ⟨Vector.ofFn column⟩ := toMatrix_eq_of_image h

/-! ## Maps that succeed -/

/-- The maps succeed on vectors and buffers of the right lengths. -/
structure Total (a : Operator T) : Prop where
  times_ok (x : Signal T) (y : Vector T a.rows) : x.size = a.cols → ∃ v, a.times x y = .ok v
  trans_ok (y : Signal T) (x : Vector T a.cols) : y.size = a.rows → ∃ v, a.trans y x = .ok v

/-- Maps that are those of a matrix succeed. -/
lemma HasMatrix.total [ExactScalar T] {a : Operator T} {M : Matrix (Fin a.rows) (Fin a.cols) T}
    (h : a.HasMatrix M) : a.Total where
  times_ok x y hx := ⟨_, h.times_eq x y hx⟩
  trans_ok y x hy := ⟨_, h.trans_eq y x hy⟩

lemma identity_total (n : ℕ) : (identity n : Operator T).Total where
  times_ok _ _ hx := ⟨_, dif_pos hx⟩
  trans_ok _ _ hy := ⟨_, dif_pos hy⟩

namespace Total

variable {a : Operator T}

/-- A total operator has an image of every signal of the column count. -/
lemma apply_ok (h : a.Total) {x : Signal T} (hx : x.size = a.cols) :
    ∃ y, a.apply x = .ok y ∧ y.size = a.rows := by
  obtain ⟨v, hv⟩ := h.times_ok x (Vector.replicate a.rows 0) hx
  refine ⟨v.toArray, ?_, v.size_toArray⟩
  unfold apply image
  rw [hv]
  rfl

/-- A total operator has an adjoint image of every signal of the row count. -/
lemma applyAdjoint_ok (h : a.Total) {y : Signal T} (hy : y.size = a.rows) :
    ∃ x, a.applyAdjoint y = .ok x ∧ x.size = a.cols := by
  obtain ⟨v, hv⟩ := h.trans_ok y (Vector.replicate a.cols 0) hy
  refine ⟨v.toArray, ?_, v.size_toArray⟩
  unfold applyAdjoint adjointImage
  rw [hv]
  rfl

/-- The residual of a signal of the column count exists. -/
lemma residual_ok (h : a.Total) (b : Signal T) {x : Signal T} (hx : x.size = a.cols) :
    ∃ r, a.residual b x = .ok r ∧ r.size = a.rows := by
  obtain ⟨v, hv⟩ := h.times_ok x (Vector.replicate a.rows 0) hx
  unfold residual image
  rw [hv]
  exact ⟨_, rfl, Vector.size_toArray _⟩

/-- Every column is the image of a unit vector. -/
lemma toMatrix_ok (h : a.Total) : ∃ M, a.toMatrix = .ok M := by
  have hcolumn (j : Fin a.cols) : ∃ v, a.image (Signal.unit a.cols j) = .ok v :=
    h.times_ok _ _ (Signal.size_unit _ _)
  choose column hcolumn using hcolumn
  exact ⟨_, toMatrix_eq_of_image hcolumn⟩

/-- The columns of a total operator on a valid support form a total operator. -/
lemma columnSubset (h : a.Total) {s : Array ℕ} (hs : Support.Valid a.cols s) :
    (ColumnSubset.toOperator ⟨a, s⟩).Total where
  times_ok z y hz := by
    obtain ⟨x, hx, hsize⟩ := Signal.embed_ok hs hz
    obtain ⟨v, hv⟩ := h.times_ok x y hsize
    refine ⟨v, ?_⟩
    show Signal.embed a.cols s z >>= _ = _
    rw [hx]
    exact hv
  trans_ok y z hy := by
    obtain ⟨full, hfull, hsize⟩ := h.applyAdjoint_ok hy
    show ∃ v, a.applyAdjoint y >>= _ = Except.ok v
    rw [hfull, Except.ok_bind]
    exact ⟨_, if_pos (hsize ▸ hs.inBounds_take _)⟩

/-- The restricted matrix of a total operator exists on every valid support. -/
lemma restrictedMatrix_ok (h : a.Total) {s : Array ℕ} (hs : Support.Valid a.cols s) :
    ∃ columns, a.restrictedMatrix s = .ok columns :=
  (h.columnSubset hs).toMatrix_ok

/-! ## The norm estimate -/

variable [RealLike R]

/-- The power iteration of a total operator ends with a number. -/
lemma powerIteration_ok (h : a.Total) (steps : ℕ) {v : Signal T} (hv : v.size = a.cols)
    (last : R) : ∃ size : R, a.powerIteration steps v last = .ok size := by
  induction steps generalizing v last with
  | zero => exact ⟨_, rfl⟩
  | succ steps ih =>
    obtain ⟨y, hy, hysize⟩ := h.apply_ok hv
    obtain ⟨w, hw, hwsize⟩ := h.applyAdjoint_ok hysize
    unfold powerIteration
    rw [hy, Except.ok_bind, hw, Except.ok_bind]
    dsimp only
    split
    · exact ⟨0, rfl⟩
    · exact ih (by rw [Signal.scale, Array.size_map, hwsize]) _

/-- The norm estimate of a total operator exists. -/
lemma normEstimate_ok (h : a.Total) (steps : ℕ) : ∃ size : R, a.normEstimate steps = .ok size := by
  unfold normEstimate
  split
  · exact ⟨0, rfl⟩
  · refine h.powerIteration_ok _ ?_ _
    exact size_scale_normStart _ _

end Total
end Operator
end CompressedSensing
