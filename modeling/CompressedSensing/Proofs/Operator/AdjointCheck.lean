import Mathlib
import CompressedSensing.Proofs.Operator.Adjunction
import CompressedSensing.Proofs.Operator.Linearity
/-!
# The deterministic adjoint check

The matrices of the two maps of an operator are read off their values on unit vectors. If both maps
are linear, whether or not they belong together, the second matrix is the conjugate transpose of the
first just if the maps are adjoint to one another. One direction compares the matrices entry by
entry on pairs of unit vectors, the other one is the law of a matrix and its conjugate transpose.

One vector is enough for all columns: its entry is set to one for the image and back to zero
afterwards.
-/

namespace CompressedSensing
namespace Operator

open Matrix

variable {T R : Type} [Scalar T R] {n : ℕ}

/-! ## One vector for all columns -/

section

variable {α : Type}

/-- One column from the shared vector, and the vector restored. -/
def scanColumn (f : Signal T → Except Error α) (state : Signal T × Array α) (j : ℕ) :
    Except Error (Signal T × Array α) := do
  let e := state.1.setIfInBounds j 1
  let column ← f e
  return (e.setIfInBounds j 0, state.2.push column)

/-- The values on the unit vectors of length `n`, and what the shared vector ends as. -/
def scanUnits (n : ℕ) (f : Signal T → Except Error α) : Except Error (Signal T × Array α) :=
  (List.range n).foldlM (scanColumn f) (Signal.zeros n, #[])

/-- Setting one entry of the zero signal leaves the others zero. -/
lemma setIfInBounds_zeros (n j : ℕ) (c : T) :
    (Signal.zeros n : Signal T).setIfInBounds j c
      = Array.ofFn fun i : Fin n => if i.val = j then c else 0 := by
  refine Array.ext (by simp [Signal.zeros]) fun i hi _ => ?_
  rw [Array.getElem_setIfInBounds (by simpa using hi), Array.getElem_ofFn]
  simp [Signal.zeros, eq_comm]

/-- Resetting the entry of a unit signal gives the zero signal back. -/
lemma setIfInBounds_unit (n j : ℕ) :
    (Signal.unit n j : Signal T).setIfInBounds j 0 = Signal.zeros n := by
  rw [Signal.unit, ← setIfInBounds_zeros, Array.setIfInBounds_setIfInBounds, setIfInBounds_zeros,
    Signal.zeros_eq_ofFn]
  exact congrArg Array.ofFn (funext fun _ => ite_self 0)

/-- One step of the scan asks for the image of a unit signal and hands the shared signal on as it
was. -/
lemma scanColumn_zeros (f : Signal T → Except Error α) (columns : Array α) (j : ℕ) :
    scanColumn f (Signal.zeros n, columns) j
      = f (Signal.unit n j) >>= fun column => .ok (Signal.zeros n, columns.push column) := by
  rw [scanColumn, setIfInBounds_zeros, ← Signal.unit, setIfInBounds_unit]
  rfl

/-- Before each column the shared vector is zero again. -/
lemma foldlM_scanColumn (f : Signal T → Except Error α) (k : ℕ) :
    (List.range k).foldlM (scanColumn f) (Signal.zeros n, #[])
      = Array.ofFnM (fun j : Fin k => f (Signal.unit n j)) >>= fun columns =>
        .ok (Signal.zeros n, columns) := by
  induction k with
  | zero =>
    rw [Array.ofFnM_zero]
    rfl
  | succ k ih =>
    rw [List.range_succ, List.foldlM_append, ih, Array.ofFnM_succ, bind_assoc, bind_assoc]
    refine Except.bind_congr fun columns _ => ?_
    rw [Except.ok_bind, List.foldlM_cons, scanColumn_zeros, bind_assoc, bind_assoc]
    rfl

end

/-- The matrix has the columns that the shared vector goes through, and where an image fails the
matrix does too. -/
lemma scanUnits_image (a : Operator T) :
    scanUnits a.cols a.image
      = a.toMatrix.map fun M => (Signal.zeros a.cols, M.columns.toArray) := by
  rw [scanUnits, foldlM_scanColumn, ← Vector.toArray_ofFnM, toMatrix]
  cases Vector.ofFnM fun j : Fin a.cols => a.image (Signal.unit a.cols j) with
  | ok columns => rfl
  | error e => rfl

/-- Scanning the adjoint images collects the columns of the adjoint matrix. -/
lemma scanUnits_adjointImage (a : Operator T) :
    scanUnits a.rows a.adjointImage
      = a.toAdjointMatrix.map fun N => (Signal.zeros a.rows, N.columns.toArray) :=
  scanUnits_image (Adjoint.toOperator ⟨a⟩)

/-! ## Two linear maps -/

open scoped ExactScalar

variable [ExactScalar T] {m : ℕ}

/-- The conjugate transpose is the matrix that moves to the other side of every inner product. -/
lemma eq_conjTranspose_iff {A : Matrix (Fin m) (Fin n) T} {B : Matrix (Fin n) (Fin m) T} :
    B = Aᴴ ↔ ∀ (u : Fin n → T) (v : Fin m → T), star (A *ᵥ u) ⬝ᵥ v = star u ⬝ᵥ (B *ᵥ v) := by
  constructor
  · rintro rfl u v
    exact star_mulVec_dotProduct A u v
  · intro h
    ext j i
    -- the law on two unit vectors compares one pair of entries
    have hentry := h (Pi.single j 1) (Pi.single i 1)
    have hsingle : star (Pi.single j 1 : Fin n → T) = Pi.single j 1 := by
      rw [← Pi.single_star, star_one]
    rw [dotProduct_single_one, hsingle, single_one_dotProduct, mulVec_single_one,
      mulVec_single_one] at hentry
    exact hentry.symm

/-- Dense matrices are adjoint just if their entries are. -/
lemma ofFn_eq_adjoint_iff {A : Matrix (Fin m) (Fin n) T} {B : Matrix (Fin n) (Fin m) T} :
    DenseMatrix.ofFn B = (DenseMatrix.ofFn A).adjoint ↔ B = Aᴴ := by
  have hadjoint : (DenseMatrix.ofFn A).adjoint = DenseMatrix.ofFn Aᴴ :=
    congrArg DenseMatrix.ofFn (funext fun j => funext fun i =>
      congrArg Scalar.conj (DenseMatrix.entry_ofFn A i j))
  rw [hadjoint]
  refine ⟨fun h => ?_, congrArg _⟩
  ext j i
  calc B j i = (DenseMatrix.ofFn B).entry j i := (DenseMatrix.entry_ofFn B j i).symm
    _ = (DenseMatrix.ofFn Aᴴ).entry j i := by rw [h]
    _ = Aᴴ j i := DenseMatrix.entry_ofFn Aᴴ j i

variable {a : Operator T}

/-- The two products agree for all vectors just if they do for all coordinates. -/
lemma dot_eq_dot_iff {A : Matrix (Fin a.rows) (Fin a.cols) T}
    {B : Matrix (Fin a.cols) (Fin a.rows) T} (hA : a.MapsBy A)
    (hB : ∀ y : Signal T, y.size = a.rows →
      a.applyAdjoint y = .ok (Array.ofFn (B *ᵥ Signal.coords a.rows y))) :
    (∀ u v : Signal T, u.size = a.cols → v.size = a.rows →
      ∃ au ahv c, a.apply u = .ok au ∧ a.applyAdjoint v = .ok ahv ∧
        Signal.dot au v = .ok c ∧ Signal.dot u ahv = .ok c) ↔
    ∀ (u : Fin a.cols → T) (v : Fin a.rows → T), star (A *ᵥ u) ⬝ᵥ v = star u ⬝ᵥ (B *ᵥ v) := by
  constructor
  · intro h u v
    obtain ⟨au, ahv, c, hau, hahv, hforward, hadjoint⟩ :=
      h (Array.ofFn u) (Array.ofFn v) Array.size_ofFn Array.size_ofFn
    rw [hA _ Array.size_ofFn] at hau
    rw [hB _ Array.size_ofFn] at hahv
    cases hau
    cases hahv
    rw [Signal.dot_eq Array.size_ofFn Array.size_ofFn] at hforward hadjoint
    simp only [Signal.coords_ofFn] at hforward hadjoint
    exact Except.ok.inj (hforward.trans hadjoint.symm)
  · intro h u v hu hv
    refine ⟨_, _, star (A *ᵥ Signal.coords a.cols u) ⬝ᵥ Signal.coords a.rows v, hA u hu, hB v hv,
      ?_, ?_⟩
    · rw [Signal.dot_eq Array.size_ofFn hv, Signal.coords_ofFn]
    · rw [Signal.dot_eq hu Array.size_ofFn, Signal.coords_ofFn, h]

/-- Both maps act linearly. Nothing is said of how they belong together. -/
structure LinearMaps (a : Operator T) : Prop where
  times : a.ActsLinearly
  trans : (Adjoint.toOperator ⟨a⟩).ActsLinearly

/-- The deterministic check neither misses a broken adjoint nor invents one: the matrix that unit
vectors read off the second map is the conjugate transpose of the one that they read off the first
map just if `⟨A u, v⟩ = ⟨u, Aᴴ v⟩` for all vectors. Both are found with one shared vector, which is
zero again at the end. -/
theorem LinearMaps.toAdjointMatrix_eq_adjoint_iff (h : a.LinearMaps) :
    ∃ (M : DenseMatrix T a.rows a.cols) (N : DenseMatrix T a.cols a.rows),
      a.toMatrix = .ok M ∧ a.toAdjointMatrix = .ok N ∧
      scanUnits a.cols a.image = .ok (Signal.zeros a.cols, M.columns.toArray) ∧
      scanUnits a.rows a.adjointImage = .ok (Signal.zeros a.rows, N.columns.toArray) ∧
      (N = M.adjoint ↔ ∀ u v : Signal T, u.size = a.cols → v.size = a.rows →
        ∃ au ahv c, a.apply u = .ok au ∧ a.applyAdjoint v = .ok ahv ∧
          Signal.dot au v = .ok c ∧ Signal.dot u ahv = .ok c) := by
  obtain ⟨A, hA⟩ := h.times.exists_mapsBy
  obtain ⟨B, hB⟩ : ∃ B : Matrix (Fin a.cols) (Fin a.rows) T, ∀ y : Signal T, y.size = a.rows →
      a.applyAdjoint y = .ok (Array.ofFn (B *ᵥ Signal.coords a.rows y)) := h.trans.exists_mapsBy
  have hM : a.toMatrix = .ok (DenseMatrix.ofFn A) := toMatrix_eq_of_apply hA
  have hN : a.toAdjointMatrix = .ok (DenseMatrix.ofFn B) :=
    toMatrix_eq_of_apply (a := Adjoint.toOperator ⟨a⟩) hB
  refine ⟨_, _, hM, hN, ?_, ?_, ?_⟩
  · rw [scanUnits_image, hM]
    rfl
  · rw [scanUnits_adjointImage, hN]
    rfl
  · rw [ofFn_eq_adjoint_iff, eq_conjTranspose_iff, dot_eq_dot_iff hA hB]

/-! ## A broken adjoint -/

/-- An operator whose two maps are those of any two matrices. -/
def ofMatrices (A : Matrix (Fin m) (Fin n) T) (B : Matrix (Fin n) (Fin m) T) : Operator T where
  rows := m
  cols := n
  times := (dense (DenseMatrix.ofFn A)).times
  trans := (dense (DenseMatrix.ofFn B)).times

/-- The matrix read off the forward map is the one it was given. -/
lemma toMatrix_ofMatrices (A : Matrix (Fin m) (Fin n) T) (B : Matrix (Fin n) (Fin m) T) :
    (ofMatrices A B).toMatrix = .ok (DenseMatrix.ofFn A) :=
  toMatrix_eq_of_apply (a := ofMatrices A B) (hasMatrix_dense_ofFn A).apply_eq

/-- The matrix read off the backward map is the one it was given. -/
lemma toAdjointMatrix_ofMatrices (A : Matrix (Fin m) (Fin n) T) (B : Matrix (Fin n) (Fin m) T) :
    (ofMatrices A B).toAdjointMatrix = .ok (DenseMatrix.ofFn B) :=
  toMatrix_ofMatrices B A

/-- Two matrices of transposed shapes give an operator of linear maps, adjoint or not. -/
lemma linearMaps_ofMatrices (A : Matrix (Fin m) (Fin n) T) (B : Matrix (Fin n) (Fin m) T) :
    (ofMatrices A B).LinearMaps where
  times := MapsBy.actsLinearly (a := ofMatrices A B) (hasMatrix_dense_ofFn A).apply_eq
  trans := MapsBy.actsLinearly (a := Adjoint.toOperator ⟨ofMatrices A B⟩)
    (hasMatrix_dense_ofFn B).apply_eq

open Reals

/-- Two entries of a row, the second one imaginary. -/
noncomputable def imaginaryRow : Matrix (Fin 1) (Fin 2) (ComplexOver ℝ) := !![1, ⟨0, 1⟩]

/-- The transpose in place of the conjugate transpose is found out, and the conjugate transpose
passes. -/
theorem toAdjointMatrix_eq_adjoint_iff_imaginaryRow :
    let a := ofMatrices imaginaryRow imaginaryRowᵀ
    let b := ofMatrices imaginaryRow imaginaryRowᴴ
    a.LinearMaps ∧ a.toMatrix = .ok (DenseMatrix.ofFn imaginaryRow) ∧
    a.toAdjointMatrix = .ok (DenseMatrix.ofFn imaginaryRowᵀ) ∧
    DenseMatrix.ofFn imaginaryRowᵀ ≠ (DenseMatrix.ofFn imaginaryRow).adjoint ∧
    (∃ u v : Signal (ComplexOver ℝ), u.size = 2 ∧ v.size = 1 ∧
      ¬ ∃ au ahv c, a.apply u = .ok au ∧ a.applyAdjoint v = .ok ahv ∧
        Signal.dot au v = .ok c ∧ Signal.dot u ahv = .ok c) ∧
    b.LinearMaps ∧ ∀ u v : Signal (ComplexOver ℝ), u.size = 2 → v.size = 1 →
      ∃ bu bhv c, b.apply u = .ok bu ∧ b.applyAdjoint v = .ok bhv ∧
        Signal.dot bu v = .ok c ∧ Signal.dot u bhv = .ok c := by
  intro a b
  have hlinear : a.LinearMaps := linearMaps_ofMatrices _ _
  have hM : a.toMatrix = .ok (DenseMatrix.ofFn imaginaryRow) := toMatrix_ofMatrices _ _
  have hN : a.toAdjointMatrix = .ok (DenseMatrix.ofFn imaginaryRowᵀ) :=
    toAdjointMatrix_ofMatrices _ _
  have hne : DenseMatrix.ofFn imaginaryRowᵀ ≠ (DenseMatrix.ofFn imaginaryRow).adjoint := by
    rw [Ne, ofFn_eq_adjoint_iff]
    intro h
    have him : (1 : ℝ) = -1 := congrArg ComplexOver.im (congrFun (congrFun h 1) 0)
    norm_num at him
  obtain ⟨M, N, hM', hN', -, -, hiff⟩ := hlinear.toAdjointMatrix_eq_adjoint_iff
  obtain rfl := Except.ok.inj (hM'.symm.trans hM)
  obtain rfl := Except.ok.inj (hN'.symm.trans hN)
  have hbroken := mt hiff.2 hne
  simp only [not_forall, exists_prop] at hbroken
  have hlinear' : b.LinearMaps := linearMaps_ofMatrices _ _
  obtain ⟨P, Q, hP, hQ, -, -, hiff'⟩ := hlinear'.toAdjointMatrix_eq_adjoint_iff
  obtain rfl := Except.ok.inj (hP.symm.trans (toMatrix_ofMatrices _ _))
  obtain rfl := Except.ok.inj (hQ.symm.trans (toAdjointMatrix_ofMatrices _ _))
  exact ⟨hlinear, hM, hN, hne, hbroken, hlinear', hiff'.1 (ofFn_eq_adjoint_iff.2 rfl)⟩

end Operator
end CompressedSensing
