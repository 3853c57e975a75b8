import Mathlib
import CompressedSensing.LeastSquares.MinimumNorm
import CompressedSensing.Proofs.LeastSquares.Orthogonality
/-!
# Least squares by singular values

For a matrix `U D Vᴴ` with orthonormal columns in `U` and in `V` and an invertible diagonal `D`, the
vector `V D⁻¹ Uᴴ b` leaves a residual that is orthogonal to the columns, and it is an image under
the adjoint. So it is the shortest least-squares solution.

A sum over singular triples is of that form once the triples whose value is zero are left out.
Leaving out more of them, those up to a cutoff, gives the same for the matrix without them. The
decomposition itself is taken as it is handed over: the theorem says what is made of it.
-/

namespace CompressedSensing

open Matrix Reals
open scoped ExactScalar

variable {T : Type} [Scalar T ℝ] [NormedScalar T] {m n : ℕ}

/-! ## Products with an invertible diagonal -/

section Diagonal

variable {κ : Type} [Fintype κ] [DecidableEq κ] {U : Matrix (Fin m) κ T} {V : Matrix (Fin n) κ T}
  {d p : κ → ℝ}

/-- The diagonal matrix of real numbers. -/
def realDiagonal (T : Type) [Scalar T ℝ] (d : κ → ℝ) : Matrix κ κ T :=
  diagonal fun l => Scalar.ofReal (d l)

omit [Fintype κ] in
/-- A real diagonal matrix is its own conjugate transpose. -/
lemma realDiagonal_conjTranspose (d : κ → ℝ) : (realDiagonal T d)ᴴ = realDiagonal T d := by
  rw [realDiagonal, diagonal_conjTranspose]
  congr 1
  funext l
  exact ExactScalar.conj_ofReal (d l)

/-- The normal equations of `U D Vᴴ` hold of `V D⁻¹ Uᴴ b`. -/
lemma adjoint_mulVec_residual (hU : Uᴴ * U = 1) (hV : Vᴴ * V = 1)
    (hinverse : realDiagonal T d * realDiagonal T p = 1) (b : Fin m → T) :
    (U * realDiagonal T d * Vᴴ)ᴴ *ᵥ
      (b - (U * realDiagonal T d * Vᴴ) *ᵥ ((V * realDiagonal T p * Uᴴ) *ᵥ b)) = 0 := by
  have himage : (U * realDiagonal T d * Vᴴ) * (V * realDiagonal T p * Uᴴ) = U * Uᴴ := by
    calc (U * realDiagonal T d * Vᴴ) * (V * realDiagonal T p * Uᴴ)
        = U * (realDiagonal T d * (Vᴴ * V) * realDiagonal T p) * Uᴴ := by
          simp only [Matrix.mul_assoc]
      _ = U * Uᴴ := by rw [hV, Matrix.mul_one, hinverse, Matrix.mul_one]
  have hprojection : (U * realDiagonal T d * Vᴴ)ᴴ * (U * Uᴴ) = (U * realDiagonal T d * Vᴴ)ᴴ := by
    rw [conjTranspose_mul, conjTranspose_mul]
    calc Vᴴᴴ * ((realDiagonal T d)ᴴ * Uᴴ) * (U * Uᴴ)
        = Vᴴᴴ * ((realDiagonal T d)ᴴ * ((Uᴴ * U) * Uᴴ)) := by simp only [Matrix.mul_assoc]
      _ = Vᴴᴴ * ((realDiagonal T d)ᴴ * Uᴴ) := by rw [hU, Matrix.one_mul]
  rw [mulVec_mulVec, himage, mulVec_sub, mulVec_mulVec, hprojection, sub_self]

/-- `V D⁻¹ Uᴴ b` is in the range of the adjoint of `U D Vᴴ`. -/
lemma exists_adjoint_mulVec (hU : Uᴴ * U = 1)
    (hinverse : realDiagonal T d * realDiagonal T p = 1) (b : Fin m → T) :
    ∃ w, (V * realDiagonal T p * Uᴴ) *ᵥ b = (U * realDiagonal T d * Vᴴ)ᴴ *ᵥ w := by
  refine ⟨(U * (realDiagonal T p * realDiagonal T p) * Uᴴ) *ᵥ b, ?_⟩
  rw [mulVec_mulVec, conjTranspose_mul, conjTranspose_mul, conjTranspose_conjTranspose,
    realDiagonal_conjTranspose]
  congr 1
  calc V * realDiagonal T p * Uᴴ
      = V * ((realDiagonal T d * realDiagonal T p) * realDiagonal T p) * Uᴴ := by
        rw [hinverse, Matrix.one_mul]
    _ = V * (realDiagonal T d * (Uᴴ * U) * (realDiagonal T p * realDiagonal T p)) * Uᴴ := by
        rw [hU, Matrix.mul_one, Matrix.mul_assoc (realDiagonal T d)]
    _ = V * (realDiagonal T d * Uᴴ) * (U * (realDiagonal T p * realDiagonal T p) * Uᴴ) := by
        simp only [Matrix.mul_assoc]

end Diagonal

/-! ## What the terms add up to -/

namespace MinimumNorm

/-- The weight `uᴴ b / σ` of the vector `v` of a triple. -/
noncomputable def weight (b : Fin m → T) (t : SingularTriple T ℝ) : T :=
  star (Signal.coords m t.left) ⬝ᵥ b * Scalar.ofReal (RealLike.recip t.value)

/-- In coordinates a term adds the right vector of its triple, with the weight of the triple. -/
lemma addTerm_eq {t : SingularTriple T ℝ} {b z : Signal T} (hleft : t.left.size = m)
    (hright : t.right.size = n) (hb : b.size = m) (hz : z.size = n) :
    addTerm b z t = Array.ofFn
      (Signal.coords n z + weight (Signal.coords m b) t • Signal.coords n t.right) := by
  have hoverlap : Signal.sum (Array.zipWith (fun u b => Scalar.conj u * b) t.left b)
      = star (Signal.coords m t.left) ⬝ᵥ Signal.coords m b := by
    rw [Signal.zipWith_eq_ofFn _ t.left b hleft hb, Signal.sum_ofFn]
    rfl
  unfold addTerm
  dsimp only
  rw [hoverlap, Signal.zipWith_eq_ofFn _ z t.right hz hright]
  congr 1
  funext j
  exact congrArg _ (mul_comm _ _)

/-- Folding the terms adds their weighted right vectors to the start. -/
lemma foldl_addTerm_eq {l : List (SingularTriple T ℝ)}
    (hsize : ∀ t ∈ l, t.left.size = m ∧ t.right.size = n) {b : Signal T} (hb : b.size = m)
    (f : Fin n → T) :
    l.foldl (addTerm b) (Array.ofFn f) = Array.ofFn
      (f + (l.map fun t => weight (Signal.coords m b) t • Signal.coords n t.right).sum) := by
  induction l generalizing f with
  | nil => simp
  | cons t l ih =>
    obtain ⟨⟨hleft, hright⟩, hsize⟩ := List.forall_mem_cons.1 hsize
    rw [List.foldl_cons, addTerm_eq hleft hright hb Array.size_ofFn, ih hsize, Signal.coords_ofFn,
      List.map_cons, List.sum_cons, add_assoc]

end MinimumNorm

/-! ## Sums over triples -/

namespace SingularTriple

/-- The matrix `Σ σ u vᴴ` over the triples whose value exceeds `τ`. -/
noncomputable def above (m n : ℕ) (triples : Array (SingularTriple T ℝ)) (τ : ℝ) :
    DenseMatrix T m n :=
  .ofFn fun i j => ∑ l : Fin triples.size with τ < triples[l].value,
    Signal.coords m triples[l].left i * Scalar.ofReal triples[l].value
      * star (Signal.coords n triples[l].right j)

/-- The triples decompose `a` like a thin singular value decomposition. Vectors that belong to the
value zero need not be orthonormal. -/
structure Decomposes (triples : Array (SingularTriple T ℝ)) (a : DenseMatrix T m n) : Prop where
  left_size (l : Fin triples.size) : triples[l].left.size = m
  right_size (l : Fin triples.size) : triples[l].right.size = n
  nonneg (l : Fin triples.size) : 0 ≤ triples[l].value
  left_orthonormal (l l' : Fin triples.size) : triples[l].value ≠ 0 → triples[l'].value ≠ 0 →
    Signal.dot triples[l].left triples[l'].left = .ok (if l = l' then 1 else 0)
  right_orthonormal (l l' : Fin triples.size) : triples[l].value ≠ 0 → triples[l'].value ≠ 0 →
    Signal.dot triples[l].right triples[l'].right = .ok (if l = l' then 1 else 0)
  entry_eq (i : Fin m) (j : Fin n) : a.entry i j = ∑ l : Fin triples.size,
    Signal.coords m triples[l].left i * Scalar.ofReal triples[l].value
      * star (Signal.coords n triples[l].right j)

variable {triples : Array (SingularTriple T ℝ)} {a : DenseMatrix T m n} {τ : ℝ}

/-- The triples whose value exceeds `τ`, by their index. -/
abbrev Kept (triples : Array (SingularTriple T ℝ)) (τ : ℝ) : Type :=
  {l : Fin triples.size // τ < triples[l].value}

/-- The left vectors of the kept triples, as columns. -/
def lefts (m : ℕ) (triples : Array (SingularTriple T ℝ)) (τ : ℝ) :
    Matrix (Fin m) (Kept triples τ) T :=
  of fun i l => Signal.coords m triples[l.val].left i

/-- The right vectors of the kept triples, as columns. -/
def rights (n : ℕ) (triples : Array (SingularTriple T ℝ)) (τ : ℝ) :
    Matrix (Fin n) (Kept triples τ) T :=
  of fun j l => Signal.coords n triples[l.val].right j

/-- The kept values. -/
def values (triples : Array (SingularTriple T ℝ)) (τ : ℝ) (l : Kept triples τ) : ℝ :=
  triples[l.val].value

/-- The kept triples as a product of three matrices. -/
lemma above_eq : above m n triples τ = DenseMatrix.ofFn
    (lefts m triples τ * realDiagonal T (values triples τ) * (rights n triples τ)ᴴ) := by
  unfold above
  congr 1
  funext i j
  rw [mul_apply,
    Finset.sum_subtype (p := fun l : Fin triples.size => τ < triples[l].value) _ (by simp)]
  refine Finset.sum_congr rfl fun l _ => ?_
  rw [realDiagonal, mul_diagonal]
  rfl

omit [Scalar T ℝ] [NormedScalar T] in
/-- A sum over the filtered triples is a sum over the kept indices. -/
lemma sum_filter_eq {α : Type} [AddCommMonoid α] (f : SingularTriple T ℝ → α) :
    ((triples.filter fun t => decide (τ < t.value)).toList.map f).sum
      = ∑ l : Kept triples τ, f triples[l.val] := by
  have hfilter (l : List (SingularTriple T ℝ)) :
      ((l.filter fun t => decide (τ < t.value)).map f).sum
        = (l.map fun t => if τ < t.value then f t else 0).sum := by
    induction l with
    | nil => rfl
    | cons t l ih => by_cases ht : τ < t.value <;> simp [ht, ih]
  rw [Array.toList_filter, hfilter, ← Fin.sum_univ_fun_getElem, ← Finset.sum_filter]
  exact Finset.sum_subtype (p := fun l : Fin triples.size => τ < triples[l].value) _ (by simp)
    fun l => f triples[l]

namespace Decomposes

/-- The left vectors above a cutoff are orthonormal. -/
lemma lefts_orthonormal (h : Decomposes triples a) (hτ : 0 ≤ τ) :
    (lefts m triples τ)ᴴ * lefts m triples τ = 1 := by
  ext l l'
  have hdot := h.left_orthonormal l l' (hτ.trans_lt l.2).ne' (hτ.trans_lt l'.2).ne'
  rw [Signal.dot_eq (h.left_size l) (h.left_size l')] at hdot
  simp only [one_apply, Subtype.ext_iff]
  exact Except.ok.inj hdot

/-- The right vectors above a cutoff are orthonormal. -/
lemma rights_orthonormal (h : Decomposes triples a) (hτ : 0 ≤ τ) :
    (rights n triples τ)ᴴ * rights n triples τ = 1 := by
  ext l l'
  have hdot := h.right_orthonormal l l' (hτ.trans_lt l.2).ne' (hτ.trans_lt l'.2).ne'
  rw [Signal.dot_eq (h.right_size l) (h.right_size l')] at hdot
  simp only [one_apply, Subtype.ext_iff]
  exact Except.ok.inj hdot

/-- A cutoff below all values but zero leaves the matrix as it is. -/
lemma above_eq_self (h : Decomposes triples a)
    (hcutoff : ∀ l : Fin triples.size, triples[l].value ≠ 0 → τ < triples[l].value) :
    above m n triples τ = a := by
  rw [← DenseMatrix.ofFn_entry a]
  unfold above
  congr 1
  funext i j
  rw [h.entry_eq]
  refine Finset.sum_subset (Finset.filter_subset _ _) fun l _ hl => ?_
  have hzero : triples[l].value = 0 := by
    by_contra hne
    exact hl (Finset.mem_filter.2 ⟨Finset.mem_univ l, hcutoff l hne⟩)
  rw [hzero, NormedScalar.ofReal_zero, mul_zero, zero_mul]

end Decomposes
end SingularTriple

/-! ## The solution from a decomposition -/

/-- The adjoint annihilates the residual that `z` leaves. -/
def DenseMatrix.SolvesNormalEquations (a : DenseMatrix T m n) (b z : Signal T) : Prop :=
  ∃ r, (Operator.dense a).residual b z = .ok r ∧
    (Operator.dense a).applyAdjoint r = .ok (Signal.zeros n)

/-- A vector whose residual is orthogonal to the columns solves the normal equations. -/
lemma DenseMatrix.solvesNormalEquations_ofFn {M : Matrix (Fin m) (Fin n) T} {b z : Signal T}
    (hb : b.size = m) (hz : z.size = n)
    (h : Mᴴ *ᵥ (Signal.coords m b - M *ᵥ Signal.coords n z) = 0) :
    (ofFn M).SolvesNormalEquations b z := by
  have himages := (Operator.hasMatrix_dense_ofFn M).hasImages
  refine ⟨_, himages.residual_eq hb hz, ?_⟩
  rw [himages.applyAdjoint_eq _ Array.size_ofFn, Signal.coords_ofFn, h, Signal.zeros_eq_ofFn]

namespace MinimumNorm

open SingularTriple

variable {triples : Array (SingularTriple T ℝ)} {triples? : Option (Array (SingularTriple T ℝ))}
  {a : DenseMatrix T m n} {b : Signal T}

/-- The cutoff `max(m, n) · ε · σ_max`. -/
noncomputable def cutoff (m n : ℕ) (triples : Array (SingularTriple T ℝ)) : ℝ :=
  (max m n : ℕ) * RealLike.epsilon * ⨆ l : Fin triples.size, triples[l].value

/-- The greatest number met on the way is a least upper bound. -/
lemma foldl_max_le_iff {l : List ℝ} {c d : ℝ} :
    l.foldl RealLike.max c ≤ d ↔ c ≤ d ∧ ∀ x ∈ l, x ≤ d := by
  induction l generalizing c with
  | nil => simp
  | cons x l ih =>
    rw [List.foldl_cons, List.forall_mem_cons, ← and_assoc, ← max_le_iff, ← Reals.max_eq]
    exact ih

/-- Folding the maximum over the values, from zero on, finds their supremum. -/
lemma foldl_max_eq_iSup (h : Decomposes triples a) :
    (triples.map SingularTriple.value).foldl RealLike.max 0
      = ⨆ l : Fin triples.size, triples[l].value := by
  -- both have the same upper bounds
  have hiff (d : ℝ) : (triples.map SingularTriple.value).foldl RealLike.max 0 ≤ d ↔
      0 ≤ d ∧ ∀ l : Fin triples.size, triples[l].value ≤ d := by
    rw [← Array.foldl_toList, foldl_max_le_iff]
    refine and_congr_right fun _ => ⟨fun hle l => hle _ ?_, fun hle x hx => ?_⟩
    · rw [Array.toList_map]
      exact List.mem_map_of_mem (Array.getElem_mem_toList l.isLt)
    · rw [Array.toList_map, List.mem_map] at hx
      obtain ⟨t, ht, rfl⟩ := hx
      obtain ⟨i, hi, rfl⟩ := Array.mem_iff_getElem.1 (Array.mem_toList_iff.1 ht)
      exact hle ⟨i, hi⟩
  refine le_antisymm ((hiff _).2 ⟨Real.iSup_nonneg h.nonneg, fun l => ?_⟩) ?_
  · exact le_ciSup (f := fun l : Fin triples.size => triples[l].value)
      (Set.finite_range _).bddAbove l
  · obtain ⟨hnonneg, hle⟩ := (hiff _).1 le_rfl
    exact Real.iSup_le hle hnonneg

/-- The tolerance of the rank is the cutoff. -/
lemma rankTolerance_eq (h : Decomposes triples a) :
    rankTolerance (triples.map SingularTriple.value) (max m n) = cutoff m n triples := by
  unfold rankTolerance cutoff
  rw [foldl_max_eq_iSup h]
  show (⨆ l : Fin triples.size, triples[l].value) * _ * ((max m n : ℕ) : ℝ) = _
  ring

/-- The cutoff is not negative. -/
lemma cutoff_nonneg (h : Decomposes triples a) : 0 ≤ cutoff m n triples :=
  mul_nonneg (mul_nonneg (Nat.cast_nonneg _) Reals.epsilon_nonneg) (Real.iSup_nonneg h.nonneg)

/-- Without rows or without unknowns there is no value but zero. -/
lemma value_eq_zero (h : Decomposes triples a) (hempty : n = 0 ∨ m = 0)
    (l : Fin triples.size) : triples[l].value = 0 := by
  by_contra hne
  -- a vector of no entries has length zero, and those of a nonzero value have length one
  have hone {k : ℕ} {x : Signal T} (hk : k = 0) (hx : x.size = k) :
      Signal.dot x x ≠ .ok 1 := by
    subst hk
    rw [Signal.dot_eq hx hx, dotProduct_of_isEmpty]
    exact fun e => NormedScalar.one_ne_zero (Except.ok.inj e).symm
  rcases hempty with hn | hm
  · refine hone hn (h.right_size l) ?_
    rw [h.right_orthonormal l l hne hne, if_pos rfl]
  · refine hone hm (h.left_size l) ?_
    rw [h.left_orthonormal l l hne hne, if_pos rfl]

/-- The terms of the solution are the triples above the cutoff. -/
lemma terms_eq (h : Decomposes triples a) (hasked : 0 < m → 0 < n → triples? = some triples) :
    terms m n triples? = triples.filter fun t => decide (cutoff m n triples < t.value) := by
  unfold terms
  by_cases hempty : n = 0 ∨ m = 0
  · rw [if_pos hempty]
    symm
    rw [Array.filter_eq_empty_iff]
    intro t ht
    obtain ⟨i, hi, rfl⟩ := Array.mem_iff_getElem.1 ht
    have hzero : triples[i].value = 0 := value_eq_zero h hempty ⟨i, hi⟩
    simpa [hzero] using cutoff_nonneg h
  · have hsome : triples? = some triples := hasked (by omega) (by omega)
    rw [if_neg hempty, hsome]
    -- a real value is never NaN, so only the comparison is left of the test
    have hcounts (t : SingularTriple T ℝ) :
        counts (cutoff m n triples) t.value = decide (cutoff m n triples < t.value) := by
      show (!false && !decide (t.value ≤ cutoff m n triples)) = _
      rw [Bool.not_false, Bool.true_and, ← decide_not]
      simp only [not_le]
    unfold significant
    rw [Option.getD_some, rankTolerance_eq h]
    simp only [hcounts]

/-- The answer is `V D⁻¹ Uᴴ b` over the triples above the cutoff, also where nothing was asked. -/
lemma ofDecomposition_eq (h : Decomposes triples a)
    (hasked : 0 < m → 0 < n → triples? = some triples) (hb : b.size = m) :
    ofDecomposition m n triples? b = Array.ofFn
      ((rights n triples (cutoff m n triples)
        * realDiagonal T (fun l => RealLike.recip (values triples (cutoff m n triples) l))
        * (lefts m triples (cutoff m n triples))ᴴ) *ᵥ Signal.coords m b) := by
  have hsize : ∀ t ∈ (terms m n triples?).toList, t.left.size = m ∧ t.right.size = n := by
    intro t ht
    rw [terms_eq h hasked, Array.mem_toList_iff, Array.mem_filter] at ht
    obtain ⟨i, hi, rfl⟩ := Array.mem_iff_getElem.1 ht.1
    exact ⟨h.left_size ⟨i, hi⟩, h.right_size ⟨i, hi⟩⟩
  unfold ofDecomposition
  rw [← Array.foldl_toList, Signal.zeros_eq_ofFn, foldl_addTerm_eq hsize hb, terms_eq h hasked,
    sum_filter_eq]
  congr 1
  funext j
  rw [zero_add, Finset.sum_apply, ← mulVec_mulVec, ← mulVec_mulVec]
  refine Finset.sum_congr rfl fun l _ => ?_
  rw [realDiagonal, mulVec_diagonal, Pi.smul_apply, smul_eq_mul, weight,
    mul_comm _ (Scalar.ofReal _), mul_comm]
  rfl

/-- The solution belongs to the matrix of the triples above the cutoff. -/
lemma ofDecomposition_shortest_above (h : Decomposes triples a)
    (hasked : 0 < m → 0 < n → triples? = some triples) (hb : b.size = m) :
    (above m n triples (cutoff m n triples)).SolvesNormalEquations b
        (ofDecomposition m n triples? b) ∧
      (above m n triples (cutoff m n triples)).Shortest b (ofDecomposition m n triples? b) := by
  have hcutoff := cutoff_nonneg h
  have hU := h.lefts_orthonormal hcutoff
  have hV := h.rights_orthonormal hcutoff
  have hinverse : realDiagonal T (values triples (cutoff m n triples))
      * realDiagonal T (fun l => RealLike.recip (values triples (cutoff m n triples) l)) = 1 := by
    rw [realDiagonal, realDiagonal, diagonal_mul_diagonal, ← diagonal_one]
    congr 1
    funext l
    have hpos : values triples (cutoff m n triples) l ≠ 0 := (hcutoff.trans_lt l.2).ne'
    rw [← NormedScalar.ofReal_mul, ← EuclideanScalar.ofReal_one]
    exact congrArg _ (mul_one_div_cancel hpos)
  obtain ⟨w, hw⟩ := exists_adjoint_mulVec (V := rights n triples (cutoff m n triples)) hU hinverse
    (Signal.coords m b)
  have hresidual := adjoint_mulVec_residual hU hV hinverse (Signal.coords m b)
  rw [ofDecomposition_eq h hasked hb, above_eq]
  refine ⟨DenseMatrix.solvesNormalEquations_ofFn hb Array.size_ofFn ?_,
    (DenseMatrix.shortest_ofFn_iff hb).2 ⟨Array.size_ofFn, ?_⟩⟩
  · rw [Signal.coords_ofFn]
    exact hresidual
  · rw [Signal.coords_ofFn]
    exact .of_adjoint hresidual hw

/-- From a thin singular value decomposition `A = Σ σ u vᴴ` comes the least-squares solution of
least norm for the matrix without the values up to the cutoff, of any shape and rank, and so for
`A` itself if they are all zero. Without rows or without columns no decomposition is asked for. -/
theorem ofDecomposition_shortest (h : Decomposes triples a)
    (hasked : 0 < m → 0 < n → triples? = some triples) (hb : b.size = m) :
    ((above m n triples (cutoff m n triples)).SolvesNormalEquations b
        (ofDecomposition m n triples? b) ∧
      (above m n triples (cutoff m n triples)).Shortest b (ofDecomposition m n triples? b)) ∧
    ((∀ l : Fin triples.size, triples[l].value ≠ 0 → cutoff m n triples < triples[l].value) →
      a.SolvesNormalEquations b (ofDecomposition m n triples? b) ∧
        a.Shortest b (ofDecomposition m n triples? b)) := by
  have habove := ofDecomposition_shortest_above h hasked hb
  refine ⟨habove, fun hexceeds => ?_⟩
  rwa [h.above_eq_self hexceeds] at habove

/-- Rows `(3, 4, 0)` and `(0, 0, t)`, of singular values 5 and `t`. -/
noncomputable def unevenRows (t : ℝ) : DenseMatrix ℝ 2 3 :=
  .ofFn ![![(3 : ℕ), (4 : ℕ), 0], ![0, 0, t]]

/-- The decomposition of these rows. -/
noncomputable def unevenTriples (t : ℝ) : Array (SingularTriple ℝ ℝ) :=
  #[⟨#[1, 0], (5 : ℕ), #[(3 : ℕ) / (5 : ℕ), (4 : ℕ) / (5 : ℕ), 0]⟩, ⟨#[0, 1], t, #[0, 0, 1]⟩]

lemma dot_left_unevenTriples (l l' : Fin 2) :
    Signal.dot (![#[1, 0], #[0, 1]] l : Signal ℝ) (![#[1, 0], #[0, 1]] l')
      = .ok (if l = l' then 1 else 0) := by
  fin_cases l <;> fin_cases l' <;> simp [Signal.dot, Signal.sum, Scalar.conj]

lemma dot_right_unevenTriples (l l' : Fin 2) :
    let v : Fin 2 → Signal ℝ := ![#[(3 : ℕ) / (5 : ℕ), (4 : ℕ) / (5 : ℕ), 0], #[0, 0, 1]]
    Signal.dot (v l) (v l') = .ok (if l = l' then 1 else 0) := by
  fin_cases l <;> fin_cases l' <;> simp [Signal.dot, Signal.sum, Scalar.conj]
  norm_num

/-- The triples decompose the uneven rows, whatever the second value. -/
lemma decomposes_unevenTriples {t : ℝ} (ht : 0 ≤ t) :
    Decomposes (unevenTriples t) (unevenRows t) where
  left_size l := by
    change Fin 2 at l
    fin_cases l <;> rfl
  right_size l := by
    change Fin 2 at l
    fin_cases l <;> rfl
  nonneg l := by
    change Fin 2 at l
    fin_cases l
    · simp [unevenTriples]
    · exact ht
  left_orthonormal l l' _ _ := by
    change Fin 2 at l l'
    fin_cases l <;> fin_cases l'
    exacts [dot_left_unevenTriples 0 0, dot_left_unevenTriples 0 1, dot_left_unevenTriples 1 0,
      dot_left_unevenTriples 1 1]
  right_orthonormal l l' _ _ := by
    change Fin 2 at l l'
    fin_cases l <;> fin_cases l'
    exacts [dot_right_unevenTriples 0 0, dot_right_unevenTriples 0 1, dot_right_unevenTriples 1 0,
      dot_right_unevenTriples 1 1]
  entry_eq i j := by
    change _ = ∑ l : Fin 2, _
    rw [Fin.sum_univ_two, unevenRows, DenseMatrix.entry_ofFn]
    change _ = Signal.coords 2 #[(1 : ℝ), 0] i * 5 * Signal.coords 3 #[(3 / 5 : ℝ), 4 / 5, 0] j
      + Signal.coords 2 #[(0 : ℝ), 1] i * t * Signal.coords 3 #[(0 : ℝ), 0, 1] j
    fin_cases i <;> fin_cases j <;> norm_num [Signal.coords]

/-- The cutoff is far below the first value. -/
lemma cutoff_unevenTriples_lt {t : ℝ} (ht : t ≤ 5) : cutoff 2 3 (unevenTriples t) < 5 := by
  have hgreatest : (⨆ l : Fin (unevenTriples t).size, (unevenTriples t)[l].value) ≤ 5 := by
    refine Real.iSup_le (fun l => ?_) (by norm_num)
    change Fin 2 at l
    fin_cases l
    · exact (Nat.cast_ofNat : ((5 : ℕ) : ℝ) = 5).le
    · exact ht
  have hepsilon : (RealLike.epsilon : ℝ) ≤ 1 / 4 := by
    show (2 : ℝ) ^ (-52 : ℤ) ≤ 1 / 4
    norm_num
  have hfactor : (max 2 3 : ℕ) * (RealLike.epsilon : ℝ) ≤ 3 / 4 := by
    norm_num
    linarith
  calc cutoff 2 3 (unevenTriples t)
      ≤ (max 2 3 : ℕ) * RealLike.epsilon * 5 :=
        mul_le_mul_of_nonneg_left hgreatest (mul_nonneg (Nat.cast_nonneg _) epsilon_nonneg)
    _ < 5 := by linarith

/-- A second row of `2⁻⁶⁰` is lost to the cutoff. Without the second row the rank is one, the only
value that is not zero exceeds the cutoff, and the solution is that of the matrix itself. -/
theorem ofDecomposition_shortest_unevenRows :
    (Decomposes (unevenTriples ((2 : ℕ) ^ (-60 : ℤ))) (unevenRows ((2 : ℕ) ^ (-60 : ℤ))) ∧
      let kept := above 2 3 (unevenTriples ((2 : ℕ) ^ (-60 : ℤ)))
        (cutoff 2 3 (unevenTriples ((2 : ℕ) ^ (-60 : ℤ))))
      kept.SolvesNormalEquations #[5, 1]
        (ofDecomposition 2 3 (some (unevenTriples ((2 : ℕ) ^ (-60 : ℤ)))) #[5, 1]) ∧
      kept.Shortest #[5, 1]
        (ofDecomposition 2 3 (some (unevenTriples ((2 : ℕ) ^ (-60 : ℤ)))) #[5, 1])) ∧
    Decomposes (unevenTriples 0) (unevenRows 0) ∧
    (unevenRows 0).SolvesNormalEquations #[5, 1]
      (ofDecomposition 2 3 (some (unevenTriples 0)) #[5, 1]) ∧
    (unevenRows 0).Shortest #[5, 1] (ofDecomposition 2 3 (some (unevenTriples 0)) #[5, 1]) := by
  have hsmall : Decomposes (unevenTriples ((2 : ℕ) ^ (-60 : ℤ)))
      (unevenRows ((2 : ℕ) ^ (-60 : ℤ))) := decomposes_unevenTriples (by positivity)
  have hzero : Decomposes (unevenTriples 0) (unevenRows 0) := decomposes_unevenTriples le_rfl
  refine ⟨⟨hsmall, (ofDecomposition_shortest hsmall (fun _ _ => rfl) rfl).1⟩, hzero, ?_⟩
  refine (ofDecomposition_shortest hzero (fun _ _ => rfl) rfl).2 fun l hl => ?_
  change Fin 2 at l
  fin_cases l
  · exact (cutoff_unevenTriples_lt (by norm_num)).trans_eq Nat.cast_ofNat.symm
  · exact absurd rfl hl

end MinimumNorm

end CompressedSensing
