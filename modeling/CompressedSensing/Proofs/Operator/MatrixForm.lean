import Mathlib
import CompressedSensing.Operator.Algebra
import CompressedSensing.Operator.Elementary
import CompressedSensing.Proofs.Signal.Coordinates
import CompressedSensing.Proofs.Signal.Scatter
/-!
# Operators with a matrix

`HasMatrix a M` says that the maps of an operator are those of a matrix: on vectors and buffers
of the right length `times` writes `M x` and `trans` writes `Mᴴ y`, whatever the buffer held.
One matrix for both maps is what makes them adjoint.

Each way of building an operator turns matrices of its parts into a matrix of the whole: products
into products, sums into sums, multiples into multiples, adjoints into conjugate transposes, and
the restriction to columns into a product with the matrix that embeds the coordinates.
-/

namespace CompressedSensing

open Matrix
open scoped ExactScalar

variable {T R : Type} [Scalar T R] [ExactScalar T] {l m n : ℕ}

namespace Operator

/-- The maps of `a` are those of `M`. -/
structure HasMatrix (a : Operator T) (M : Matrix (Fin m) (Fin n) T) : Prop where
  rows_eq : a.rows = m
  cols_eq : a.cols = n
  times_eq (x : Signal T) (y : Vector T m) : x.size = n →
    a.times x y = .ok (Vector.ofFn (M *ᵥ Signal.coords n x))
  trans_eq (y : Signal T) (x : Vector T n) : y.size = m →
    a.trans y x = .ok (Vector.ofFn (Mᴴ *ᵥ Signal.coords m y))

namespace HasMatrix

variable {a b : Operator T} {M : Matrix (Fin m) (Fin n) T}

/-- A signal of the column count is mapped to the matrix times its coordinates. -/
lemma apply_eq (h : a.HasMatrix M) (x : Signal T) (hx : x.size = n) :
    a.apply x = .ok (Array.ofFn (M *ᵥ Signal.coords n x)) := by
  obtain ⟨rfl, -, htimes, -⟩ := h
  rw [apply, image, htimes x _ hx, ← Vector.toArray_ofFn]
  rfl

/-- A signal of the row count is mapped by the adjoint to the conjugate transpose times its
coordinates. -/
lemma applyAdjoint_eq (h : a.HasMatrix M) (y : Signal T) (hy : y.size = m) :
    a.applyAdjoint y = .ok (Array.ofFn (Mᴴ *ᵥ Signal.coords m y)) := by
  obtain ⟨-, rfl, -, htrans⟩ := h
  rw [applyAdjoint, adjointImage, htrans y _ hy, ← Vector.toArray_ofFn]
  rfl

/-! ## Products, sums, multiples, adjoints -/

/-- A product of operators has the product of their matrices. -/
lemma product {N : Matrix (Fin l) (Fin m) T} (ha : a.HasMatrix N) (hb : b.HasMatrix M) :
    (Operator.product a b).HasMatrix (N * M) where
  rows_eq := ha.rows_eq
  cols_eq := hb.cols_eq
  times_eq x y hx := by
    show (b.apply x >>= fun z => a.times z y) = _
    rw [hb.apply_eq x hx]
    show a.times _ y = _
    rw [ha.times_eq _ y (by simp), Signal.coords_ofFn, mulVec_mulVec]
  trans_eq y x hy := by
    show (a.applyAdjoint y >>= fun z => b.trans z x) = _
    rw [ha.applyAdjoint_eq y hy]
    show b.trans _ x = _
    rw [hb.trans_eq _ x (by simp), Signal.coords_ofFn, mulVec_mulVec, conjTranspose_mul]

omit [ExactScalar T] in
/-- Overlaying with a sum adds the two families of coordinates. -/
lemma overlay_add_ofFn {k : ℕ} (f g : Fin k → T) :
    Signal.overlay (· + ·) (Vector.ofFn f) (Array.ofFn g) = Vector.ofFn (f + g) := by
  ext i hi
  simp [Signal.overlay, hi]

/-- A sum of operators has the sum of their matrices. -/
lemma plus {N : Matrix (Fin m) (Fin n) T} (ha : a.HasMatrix M) (hb : b.HasMatrix N) :
    (Operator.plus a b).HasMatrix (M + N) where
  rows_eq := ha.rows_eq
  cols_eq := ha.cols_eq
  times_eq x y hx := by
    show (a.times x y >>= fun left => b.apply x >>= fun right =>
      pure (Signal.overlay (· + ·) left right)) = _
    rw [ha.times_eq x y hx, hb.apply_eq x hx, add_mulVec, ← overlay_add_ofFn]
    rfl
  trans_eq y x hy := by
    show (a.trans y x >>= fun left => b.applyAdjoint y >>= fun right =>
      pure (Signal.overlay (· + ·) left right)) = _
    rw [ha.trans_eq y x hy, hb.applyAdjoint_eq y hy, conjTranspose_add, add_mulVec,
      ← overlay_add_ofFn]
    rfl

/-- Multiplying every entry by `c` scales the family of coordinates. -/
lemma map_mul_ofFn {k : ℕ} (c : T) (f : Fin k → T) :
    (Vector.ofFn f).map (· * c) = Vector.ofFn (c • f) := by
  ext i hi
  simp [mul_comm]

/-- An operator scaled by `c` has its matrix scaled by `c`. -/
lemma scaled (ha : a.HasMatrix M) (c : T) :
    (Scaled.toOperator ⟨a, c⟩).HasMatrix (c • M) where
  rows_eq := ha.rows_eq
  cols_eq := ha.cols_eq
  times_eq x y hx := by
    show (a.times x y >>= fun z => pure (z.map (· * c))) = _
    rw [ha.times_eq x y hx, smul_mulVec, ← map_mul_ofFn]
    rfl
  trans_eq y x hy := by
    show (a.trans y x >>= fun z => pure (z.map (· * Scalar.conj c))) = _
    rw [ha.trans_eq y x hy, conjTranspose_smul, smul_mulVec, ← map_mul_ofFn]
    rfl

/-- The adjoint operator has the conjugate transpose of the matrix. -/
lemma adjoint (ha : a.HasMatrix M) : (Adjoint.toOperator ⟨a⟩).HasMatrix Mᴴ where
  rows_eq := ha.cols_eq
  cols_eq := ha.rows_eq
  times_eq := ha.trans_eq
  trans_eq y x hy := by
    rw [conjTranspose_conjTranspose]
    exact ha.times_eq y x hy

end HasMatrix

/-! ## Dense operators and the identity -/

/-- A dense operator has the matrix of its entries. -/
lemma hasMatrix_dense (a : DenseMatrix T m n) : (dense a).HasMatrix (of a.entry) where
  rows_eq := rfl
  cols_eq := rfl
  times_eq x y hx := by
    refine (dif_pos ⟨rfl, hx⟩).trans (congrArg _ (congrArg _ (funext fun i => ?_)))
    rw [DenseMatrix.sumFin_eq_sum]
    refine Finset.sum_congr rfl fun j _ => ?_
    rw [Signal.coords_eq_getElem _ j (by omega)]
    rfl
  trans_eq y x hy := by
    refine (dif_pos ⟨rfl, hy⟩).trans (congrArg _ (congrArg _ (funext fun i => ?_)))
    rw [DenseMatrix.sumFin_eq_sum]
    refine Finset.sum_congr rfl fun j _ => ?_
    rw [Signal.coords_eq_getElem _ j (by omega)]
    rfl

/-- The dense operator built from a matrix has that matrix. -/
lemma hasMatrix_dense_ofFn (M : Matrix (Fin m) (Fin n) T) :
    (dense (DenseMatrix.ofFn M)).HasMatrix M := by
  have hM : of (DenseMatrix.ofFn M).entry = M := by
    ext i j
    exact DenseMatrix.entry_ofFn M i j
  have hdense := hasMatrix_dense (DenseMatrix.ofFn M)
  rwa [hM] at hdense

omit [ExactScalar T] in
/-- The buffer receives the coordinates of the vector. -/
lemma copyInto_eq (x : Signal T) (y : Vector T n) (hx : x.size = n) :
    copyInto x y = .ok (Vector.ofFn (Signal.coords n x)) := by
  rw [copyInto, dif_pos hx]
  congr 1
  apply Vector.toArray_inj.1
  rw [Vector.toArray_ofFn, Signal.ofFn_coords x hx]

/-- The identity operator has the identity matrix. -/
lemma hasMatrix_identity (n : ℕ) :
    (identity n : Operator T).HasMatrix (1 : Matrix (Fin n) (Fin n) T) where
  rows_eq := rfl
  cols_eq := rfl
  times_eq x y hx := by rw [one_mulVec]; exact copyInto_eq x y hx
  trans_eq y x hy := by rw [conjTranspose_one, one_mulVec]; exact copyInto_eq y x hy

/-- Weighing the entries of a signal is the product with the diagonal matrix of the weights. -/
lemma weigh_eq (w : T → T) (d x : Signal T) (y : Vector T n) (hd : d.size = n)
    (hx : x.size = n) :
    Diagonal.weigh w d x y
      = Vector.ofFn (diagonal (fun i => w (Signal.coords n d i)) *ᵥ Signal.coords n x) := by
  ext i hi
  have hdi : i < d.size := by omega
  have hxi : i < x.size := by omega
  rw [Vector.getElem_ofFn, mulVec_diagonal, Signal.coords_eq_getElem d ⟨i, hi⟩ hdi,
    Signal.coords_eq_getElem x ⟨i, hi⟩ hxi]
  simp [Diagonal.weigh, hdi, hxi]

/-- A diagonal operator has the diagonal matrix of its entries. -/
lemma hasMatrix_diagonal (d : Diagonal T) :
    d.toOperator.HasMatrix (diagonal (Signal.coords d.entries.size d.entries)) where
  rows_eq := rfl
  cols_eq := rfl
  times_eq x y hx := congrArg _ (weigh_eq id _ x y rfl hx)
  trans_eq y x hy := by
    rw [diagonal_conjTranspose]
    exact congrArg _ (weigh_eq Scalar.conj _ y x rfl hy)

end Operator

/-! ## Selections of rows and restrictions to columns -/

namespace Support

/-- The matrix that reads the entries at `support`; its transpose writes them back. -/
def selection (T : Type) {R : Type} [Scalar T R] (support : Array ℕ) (n : ℕ) :
    Matrix (Fin support.size) (Fin n) T :=
  of fun i j => if support[i.val] = j.val then 1 else 0

variable {support : Array ℕ}

/-- The indices of a valid support are in range. -/
lemma Valid.getElem_lt (h : Valid n support) {i : ℕ} (hi : i < support.size) :
    support[i] < n :=
  h.lt _ (by simp)

/-- A valid support repeats no index. -/
lemma Valid.eq_of_getElem_eq (h : Valid n support) {i j : ℕ} (hi : i < support.size)
    (hj : j < support.size) (e : support[i] = support[j]) : i = j := by
  have hinj := h.nodup.injective_get
  exact Fin.mk.inj (@hinj ⟨i, by simpa using hi⟩ ⟨j, by simpa using hj⟩ (by simpa using e))

lemma Valid.inBounds_take (h : Valid n support) (k : ℕ) :
    Signal.inBounds (support.take k) n = true := by
  rw [Signal.inBounds, Array.all_eq_true]
  intro i hi
  simpa using h.getElem_lt (i := i) (by simp at hi; omega)

lemma Valid.inBounds (h : Valid n support) : Signal.inBounds support n = true := by
  simpa using h.inBounds_take support.size

/-- Reading is the product with the selection. -/
lemma selection_mulVec (h : Valid n support) (x : Fin n → T) (i : Fin support.size) :
    (selection T support n *ᵥ x) i = x ⟨support[i.val], h.getElem_lt i.isLt⟩ := by
  rw [mulVec, dotProduct, Finset.sum_eq_single ⟨support[i.val], h.getElem_lt i.isLt⟩]
  · simp [selection]
  · intro j _ hj
    have hne : support[i.val] ≠ j.val := fun e => hj (Fin.ext e.symm)
    simp only [selection, of_apply, if_neg hne, zero_mul]
  · simp

/-- Writing among zeros is the product with the adjoint of the selection. -/
lemma scatter_eq_selection (h : Valid n support) (v : Signal T) (hv : v.size = support.size) :
    Signal.scatter (Vector.replicate n 0) support v
      = Vector.ofFn ((selection T support n)ᴴ *ᵥ Signal.coords support.size v) := by
  ext j hj
  rw [Vector.getElem_ofFn, mulVec, dotProduct]
  have hterm (i : Fin support.size) :
      (selection T support n)ᴴ ⟨j, hj⟩ i * Signal.coords support.size v i
        = if support[i.val] = j then Signal.coords support.size v i else 0 := by
    by_cases hi : support[i.val] = j
    · simp [selection, hi]
    · simp [selection, hi]
  -- an entry at the support is written once, so one term is left of its sum, and else none
  rw [Finset.sum_congr rfl fun i _ => hterm i]
  by_cases hmem : j ∈ support
  · obtain ⟨i, hi, rfl⟩ := Array.mem_iff_getElem.1 hmem
    rw [Signal.getElem_scatter _ _ _ h.nodup hv.symm hi, Finset.sum_eq_single ⟨i, hi⟩]
    · rw [if_pos rfl, Signal.coords_eq_getElem _ _ (by simpa [hv] using hi)]
    · intro i' _ hne
      exact if_neg fun e => hne (Fin.ext (h.eq_of_getElem_eq i'.isLt hi e))
    · simp
  · rw [Signal.getElem_scatter_of_notMem _ _ _ hj hmem, Vector.getElem_replicate]
    refine (Finset.sum_eq_zero fun i _ => if_neg fun e => hmem ?_).symm
    exact e ▸ Array.getElem_mem i.isLt

end Support

namespace Operator

/-- Reading a signal along a valid support, as the fast operators do, is the product with the
selection matrix. -/
lemma getD_read (x : Signal T) {support : Array ℕ} (h : Support.Valid n support)
    (y : Vector T support.size) :
    (y.mapIdx fun i old => match support[i]? with
      | some r => x.getD r 0
      | none => old)
      = Vector.ofFn (Support.selection T support n *ᵥ Signal.coords n x) := by
  ext i hi
  rw [Vector.getElem_ofFn, Support.selection_mulVec h]
  simp [hi, Signal.coords]

/-- A row selection has the selection matrix of its rows. -/
lemma hasMatrix_rowSelection (s : RowSelection) :
    (s.toOperator : Operator T).HasMatrix (Support.selection T s.rows s.length) where
  rows_eq := rfl
  cols_eq := rfl
  times_eq x y hx := by
    rw [← getD_read x s.valid y]
    exact if_pos (hx ▸ s.valid.inBounds_take _)
  trans_eq y x hy := by
    rw [← Support.scatter_eq_selection s.valid y hy]
    exact if_pos (s.valid.inBounds_take _)

/-- The columns of an operator on a valid support have its matrix restricted to those columns. -/
lemma HasMatrix.columnSubset {a : Operator T} {M : Matrix (Fin m) (Fin n) T}
    (ha : a.HasMatrix M) {support : Array ℕ} (h : Support.Valid n support) :
    (ColumnSubset.toOperator ⟨a, support⟩).HasMatrix (M * (Support.selection T support n)ᴴ) where
  rows_eq := ha.rows_eq
  cols_eq := rfl
  times_eq z y hz := by
    show (Signal.embed a.cols support z >>= fun x => a.times x y) = _
    rw [ha.cols_eq, Signal.embed, if_pos ⟨hz.symm, h.inBounds⟩]
    show a.times _ y = _
    rw [ha.times_eq _ y (by simp), Support.scatter_eq_selection h z hz,
      Signal.coords_toArray_ofFn, mulVec_mulVec]
  trans_eq y z hy := by
    show (a.applyAdjoint y >>= fun full =>
      if Signal.inBounds (support.take support.size) full.size = true then _ else _) = _
    rw [ha.applyAdjoint_eq y hy]
    show ite _ _ _ = _
    rw [if_pos (by simpa using h.inBounds), conjTranspose_mul, conjTranspose_conjTranspose,
      ← mulVec_mulVec]
    have hread := getD_read (Array.ofFn (Mᴴ *ᵥ Signal.coords m y)) h z
    rw [Signal.coords_ofFn] at hread
    exact congrArg _ hread

end Operator
end CompressedSensing
