import Mathlib
import CompressedSensing.Proofs.Operator.Agreement
import CompressedSensing.Proofs.Signal.Energy
import CompressedSensing.Proofs.Signal.Restriction
/-!
# Operators that are known by the adjoint law

Two maps that succeed and are adjoint to one another are linear, and their images are those of a
matrix: its entries are read off the adjoint images of unit vectors. If the adjoint undoes the
operator, the columns of the matrix are orthonormal, and so are those at any support.
-/

namespace CompressedSensing

open Matrix
open scoped ExactScalar

/-- A factor with orthonormal columns does not change the Gram matrix. -/
lemma gram_mul {T R : Type} [Scalar T R] [ExactScalar T] {l m n : ℕ}
    {N : Matrix (Fin l) (Fin m) T} (hN : Nᴴ * N = 1) (M : Matrix (Fin m) (Fin n) T) :
    (N * M)ᴴ * (N * M) = Mᴴ * M := by
  rw [conjTranspose_mul, Matrix.mul_assoc, ← Matrix.mul_assoc Nᴴ, hN, Matrix.one_mul]

/-! ## The columns at a support -/

namespace Support

variable {T R : Type} [Scalar T R] [ExactScalar T] {m n : ℕ} {s : Array ℕ}

/-- Distinct indices select orthonormal rows. -/
lemma selection_mul_conjTranspose (hs : Valid n s) :
    selection T s n * (selection T s n)ᴴ = 1 := by
  ext i j
  show (selection T s n *ᵥ fun l => (selection T s n)ᴴ l j) i = _
  rw [selection_mulVec hs, one_apply]
  by_cases h : i = j
  · simp [selection, h]
  · have hne : s[j.val] ≠ s[i.val] := fun e =>
      h (Fin.ext (hs.eq_of_getElem_eq i.isLt j.isLt e.symm))
    simp [selection, h, hne]

/-- Columns of an orthonormal matrix are orthonormal. -/
lemma orthonormal_columns {M : Matrix (Fin m) (Fin n) T} (hM : Mᴴ * M = 1) (hs : Valid n s) :
    (M * (selection T s n)ᴴ)ᴴ * (M * (selection T s n)ᴴ) = 1 := by
  rw [gram_mul hM, conjTranspose_conjTranspose, selection_mul_conjTranspose hs]

end Support

namespace Operator

variable {T R : Type} [Scalar T R] [ExactScalar T] {a : Operator T}

/-- The two maps succeed on vectors of the right lengths, and `⟨A u, v⟩ = ⟨u, Aᴴ v⟩`. -/
structure Adjunction (a : Operator T) : Prop where
  apply_ok (u : Signal T) : u.size = a.cols → ∃ au, a.apply u = .ok au
  applyAdjoint_ok (v : Signal T) : v.size = a.rows → ∃ ahv, a.applyAdjoint v = .ok ahv
  dot_eq (u v au ahv : Signal T) : u.size = a.cols → v.size = a.rows → a.apply u = .ok au →
    a.applyAdjoint v = .ok ahv → Signal.dot au v = Signal.dot u ahv

/-- A constructed operator is one. -/
lemma HasImages.adjunction {M : Matrix (Fin a.rows) (Fin a.cols) T} (h : a.HasImages M) :
    a.Adjunction where
  apply_ok u hu := ⟨_, h.apply_eq u hu⟩
  applyAdjoint_ok v hv := ⟨_, h.applyAdjoint_eq v hv⟩
  dot_eq u v au ahv hu hv hau hahv := by
    rw [h.apply_eq u hu] at hau
    rw [h.applyAdjoint_eq v hv] at hahv
    cases hau
    cases hahv
    rw [Signal.dot_eq Array.size_ofFn hv, Signal.dot_eq hu Array.size_ofFn, Signal.coords_ofFn,
      Signal.coords_ofFn, star_mulVec_dotProduct]

namespace Adjunction

/-- The products of images with signals agree in coordinates. -/
lemma dotProduct_eq (h : a.Adjunction) {u v au ahv : Signal T} (hu : u.size = a.cols)
    (hv : v.size = a.rows) (hau : a.apply u = .ok au) (hahv : a.applyAdjoint v = .ok ahv) :
    star (Signal.coords a.rows au) ⬝ᵥ Signal.coords a.rows v
      = star (Signal.coords a.cols u) ⬝ᵥ Signal.coords a.cols ahv := by
  have hdot := h.dot_eq u v au ahv hu hv hau hahv
  rw [Signal.dot_eq (size_apply hau) hv, Signal.dot_eq hu (size_applyAdjoint hahv)] at hdot
  exact Except.ok.inj hdot

/-- The adjoint images of unit vectors are the rows of a matrix that gives all images. -/
theorem exists_hasImages (h : a.Adjunction) :
    ∃ M : Matrix (Fin a.rows) (Fin a.cols) T, a.HasImages M := by
  choose row hrow using fun i : Fin a.rows =>
    h.applyAdjoint_ok (Signal.unit a.rows i) (Signal.size_unit _ _)
  have happly (u au : Signal T) (hu : u.size = a.cols) (hau : a.apply u = .ok au)
      (i : Fin a.rows) : Signal.coords a.rows au i
        = star (Signal.coords a.cols (row i)) ⬝ᵥ Signal.coords a.cols u := by
    have hdot := h.dotProduct_eq hu (Signal.size_unit _ _) hau (hrow i)
    rw [coords_unit, dotProduct_single_one, Pi.star_apply] at hdot
    rw [star_dotProduct, ← hdot, star_star]
  refine ⟨of fun i => star (Signal.coords a.cols (row i)), rfl, rfl, fun u hu => ?_,
    fun v hv => ?_⟩
  · obtain ⟨au, hau⟩ := h.apply_ok u hu
    rw [hau, ← Signal.ofFn_coords au (size_apply hau), funext (happly u au hu hau)]
    rfl
  · obtain ⟨ahv, hahv⟩ := h.applyAdjoint_ok v hv
    rw [hahv, ← Signal.ofFn_coords ahv (size_applyAdjoint hahv)]
    congr 2
    funext j
    -- entry `j` is the product with the image of a unit vector, which is a column
    obtain ⟨column, hcolumn⟩ := h.apply_ok (Signal.unit a.cols j) (Signal.size_unit _ _)
    have hdot := h.dotProduct_eq (Signal.size_unit _ _) hv hcolumn hahv
    have hentries := happly _ column (Signal.size_unit _ _) hcolumn
    have hsingle : star (Pi.single j 1 : Fin a.cols → T) = Pi.single j 1 := by
      rw [← Pi.single_star, star_one]
    rw [coords_unit, hsingle, single_one_dotProduct] at hdot
    rw [coords_unit] at hentries
    rw [← hdot]
    show _ = (fun i => star (star (Signal.coords a.cols (row i)) j)) ⬝ᵥ _
    congr 1
    funext i
    rw [Pi.star_apply, hentries, dotProduct_single_one]

end Adjunction

/-- The adjoint undoes the operator just if the columns of its matrix are orthonormal. -/
lemma HasImages.orthonormal {M : Matrix (Fin a.rows) (Fin a.cols) T} (h : a.HasImages M)
    (hinv : ∀ x : Signal T, x.size = a.cols → a.apply x >>= a.applyAdjoint = .ok x) :
    Mᴴ * M = 1 := by
  refine ext_of_mulVec_single fun j => ?_
  have hj := hinv (Signal.unit a.cols j) (Signal.size_unit _ _)
  rw [h.apply_bind_applyAdjoint (Signal.size_unit _ _), coords_unit, Except.ok.injEq] at hj
  have hcoords := congrArg (Signal.coords a.cols) hj
  rw [Signal.coords_ofFn, coords_unit] at hcoords
  rw [hcoords, one_mulVec]

end Operator
end CompressedSensing
