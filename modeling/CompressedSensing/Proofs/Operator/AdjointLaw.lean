import Mathlib
import CompressedSensing.Operator.Diagnostics
import CompressedSensing.Proofs.Operator.Constructed
import CompressedSensing.Proofs.Operator.TransformMatrix
import CompressedSensing.Proofs.Scalar.Reals
/-!
# The adjoint law

Over exact scalars the two maps of every constructed operator are adjoint to one another:
`⟨A u, v⟩ = ⟨u, Aᴴ v⟩`. By induction over the construction the operator has a matrix, and for a
matrix the law is associativity. The two products that the dot test compares are therefore equal,
whatever vectors were drawn.
-/

namespace CompressedSensing

open Matrix
open scoped ExactScalar

/-! ## Draws have the length that was asked for -/

namespace Normal

/-- As many values are drawn as are asked for. -/
lemma length_mapM {α β : Type} (f : α → Draw β) (l : List α) (s : Source) :
    ((l.mapM f).run s).1.length = l.length := by
  induction l generalizing s with
  | nil => rfl
  | cons a l ih =>
    rw [List.mapM_cons]
    show (((l.mapM f).run ((f a).run s).2).1.length + 1) = l.length + 1
    rw [ih]

/-- A drawn signal has the length that is asked for. -/
lemma size_drawSignal {T R : Type} [RealLike R] [Scalar T R] (n : ℕ) (s : Source) :
    ((drawSignal n : Draw (Signal T)).run s).1.size = n := by
  have h := length_mapM (fun _ => (drawScalar : Draw T)) (Array.range n).toList s
  rw [Array.length_toList, Array.size_range] at h
  rw [drawSignal, Array.mapM_eq_mapM_toList]
  exact h

end Normal

variable {T R W : Type} [RealLike R] [Trigonometric W] [Precision R W] [Scalar T R]
  [ExactScalar T]

namespace Operator

omit [RealLike R] in
/-- A composition that is accepted has the product of the matrices. -/
lemma exists_hasMatrix_of_compose {a b c : Operator T} (h : a.compose? b = .ok c)
    (ha : ∃ M : Matrix (Fin a.rows) (Fin a.cols) T, a.HasMatrix M)
    (hb : ∃ M : Matrix (Fin b.rows) (Fin b.cols) T, b.HasMatrix M) :
    ∃ M : Matrix (Fin c.rows) (Fin c.cols) T, c.HasMatrix M := by
  rw [compose?] at h
  split at h
  · rename_i hshape
    obtain rfl := Except.ok.inj h
    -- the shapes agree, which the types of the two matrices have to be told
    rw [← hshape] at hb
    obtain ⟨N, hN⟩ := ha
    obtain ⟨M, hM⟩ := hb
    exact ⟨N * M, hN.product hM⟩
  · cases h

omit [RealLike R] in
/-- A sum that is accepted has the sum of the matrices. -/
lemma exists_hasMatrix_of_add {a b c : Operator T} (h : a.add? b = .ok c)
    (ha : ∃ M : Matrix (Fin a.rows) (Fin a.cols) T, a.HasMatrix M)
    (hb : ∃ M : Matrix (Fin b.rows) (Fin b.cols) T, b.HasMatrix M) :
    ∃ M : Matrix (Fin c.rows) (Fin c.cols) T, c.HasMatrix M := by
  rw [add?] at h
  split at h
  · rename_i hshape
    obtain rfl := Except.ok.inj h
    obtain ⟨hrows, hcols⟩ := Prod.mk.inj hshape
    rw [← hrows, ← hcols] at hb
    obtain ⟨M, hM⟩ := ha
    obtain ⟨N, hN⟩ := hb
    exact ⟨M + N, hM.plus hN⟩
  · cases h

omit [RealLike R] in
/-- Every constructed operator has a matrix. -/
theorem Constructed.exists_hasMatrix {a : Operator T} (ha : a.Constructed (W := W)) :
    ∃ M : Matrix (Fin a.rows) (Fin a.cols) T, a.HasMatrix M := by
  induction ha with
  | dense a => exact ⟨_, hasMatrix_dense a⟩
  | identity n => exact ⟨_, hasMatrix_identity n⟩
  | diagonal d => exact ⟨_, hasMatrix_diagonal d⟩
  | rowSelection s => exact ⟨_, hasMatrix_rowSelection s⟩
  | walshHadamard t => exact ⟨_, t.hasMatrix⟩
  | cosine n => exact ⟨_, (CosineTransform.ofSize n).hasMatrix⟩
  | convolution c => exact ⟨_, c.hasMatrix⟩
  | compose _ _ h iha ihb => exact exists_hasMatrix_of_compose h iha ihb
  | add _ _ h iha ihb => exact exists_hasMatrix_of_add h iha ihb
  | scale _ α ih =>
    obtain ⟨M, hM⟩ := ih
    exact ⟨_, hM.scaled α⟩
  | negate _ ih =>
    obtain ⟨M, hM⟩ := ih
    exact ⟨_, hM.scaled (-1)⟩
  | adjoint _ ih =>
    obtain ⟨M, hM⟩ := ih
    exact ⟨_, hM.adjoint⟩
  | columnSubset _ h ih =>
    obtain ⟨M, hM⟩ := ih
    exact ⟨_, hM.columnSubset h⟩

omit [RealLike R] in
/-- A matrix moves to the other side of an inner product as its conjugate transpose. -/
lemma star_mulVec_dotProduct {m n : ℕ} (M : Matrix (Fin m) (Fin n) T) (u : Fin n → T)
    (v : Fin m → T) : star (M *ᵥ u) ⬝ᵥ v = star u ⬝ᵥ (Mᴴ *ᵥ v) := by
  rw [star_mulVec, dotProduct_mulVec]

/-- The two products of a dot test agree as soon as the operator has a matrix. -/
lemma HasMatrix.dotTest_eq {a : Operator T} {M : Matrix (Fin a.rows) (Fin a.cols) T}
    (h : a.HasMatrix M) (u v : Signal T) (hu : u.size = a.cols) (hv : v.size = a.rows)
    (tolerance : R) :
    ∃ t, DotTest.onVectors a u v tolerance = .ok t ∧ t.forward = t.adjoint := by
  have hforward : Signal.dot v (Array.ofFn (M *ᵥ Signal.coords a.cols u))
      = .ok (star (Signal.coords a.rows v) ⬝ᵥ (M *ᵥ Signal.coords a.cols u)) := by
    rw [Signal.dot_eq hv (by simp), Signal.coords_ofFn]
  have hadjoint : Signal.dot u (Array.ofFn (Mᴴ *ᵥ Signal.coords a.rows v))
      = .ok (star (Signal.coords a.cols u) ⬝ᵥ (Mᴴ *ᵥ Signal.coords a.rows v)) := by
    rw [Signal.dot_eq hu (by simp), Signal.coords_ofFn]
  rw [DotTest.onVectors, h.apply_eq u hu, h.applyAdjoint_eq v hv]
  simp only [bind, Except.bind, hforward, hadjoint, pure, Except.pure]
  refine ⟨_, rfl, ?_⟩
  exact (star_dotProduct _ _).symm.trans (star_mulVec_dotProduct M _ _)

/-- The adjoint law: the maps of a constructed operator take vectors of the right lengths to
vectors with equal inner products, and no dot test sees a difference. -/
theorem Constructed.dot_times_eq_dot_trans {a : Operator T} (ha : a.Constructed (W := W)) :
    (∀ (u v : Signal T) (y : Vector T a.rows) (x : Vector T a.cols),
      u.size = a.cols → v.size = a.rows →
      ∃ au ahv c, a.times u y = .ok au ∧ a.trans v x = .ok ahv ∧
        Signal.dot au.toArray v = .ok c ∧ Signal.dot u ahv.toArray = .ok c) ∧
    ∀ (source : Source) (tolerance : R),
      ∃ t, DotTest.run a source tolerance = .ok t ∧ t.forward = t.adjoint := by
  obtain ⟨M, hM⟩ := ha.exists_hasMatrix
  constructor
  · intro u v y x hu hv
    refine ⟨_, _, star (M *ᵥ Signal.coords a.cols u) ⬝ᵥ Signal.coords a.rows v,
      hM.times_eq u y hu, hM.trans_eq v x hv, ?_, ?_⟩
    · rw [Signal.dot_eq (by simp) hv, Signal.coords_toArray_ofFn]
    · rw [Signal.dot_eq hu (by simp), Signal.coords_toArray_ofFn, star_mulVec_dotProduct]
  · intro source tolerance
    exact hM.dotTest_eq _ _ (Normal.size_drawSignal _ _) (Normal.size_drawSignal _ _) tolerance

open scoped Reals in
/-- The last row of a Walsh-Hadamard transform of four complex entries, turned by `i`. -/
noncomputable def turnedRow : Operator (ComplexOver ℝ) :=
  let row : RowSelection := ⟨#[3], 4, ⟨by decide, by decide⟩⟩
  let transform : WalshHadamard := ⟨4, by decide⟩
  product row.toOperator (Scaled.toOperator ⟨transform.toOperator (W := ℝ), ⟨0, 1⟩⟩)

open scoped Reals in
lemma constructed_turnedRow : turnedRow.Constructed (W := ℝ) := by
  rw [turnedRow]
  exact .product (.rowSelection _) (.scale (.walshHadamard _) _) rfl

open scoped Reals in
/-- Complex factors are conjugated on one side only, and the two products still agree. -/
theorem dot_times_eq_dot_trans_turnedRow :
    turnedRow.Constructed (W := ℝ) ∧
    (∃ au ahv c,
      turnedRow.times #[⟨1, 2⟩, ⟨0, 1⟩, ⟨3, 0⟩, ⟨1, 1⟩] (Vector.replicate 1 0) = .ok au ∧
      turnedRow.trans #[⟨2, -1⟩] (Vector.replicate 4 1) = .ok ahv ∧
      Signal.dot au.toArray #[⟨2, -1⟩] = .ok c ∧
      Signal.dot #[⟨1, 2⟩, ⟨0, 1⟩, ⟨3, 0⟩, ⟨1, 1⟩] ahv.toArray = .ok c) ∧
    ∃ t, DotTest.run turnedRow (Source.ofSeed 7) 0 = .ok t ∧ t.forward = t.adjoint :=
  have h := Constructed.dot_times_eq_dot_trans constructed_turnedRow
  ⟨constructed_turnedRow, h.1 _ _ _ _ rfl rfl, h.2 _ _⟩

end Operator
end CompressedSensing
