import Mathlib
import CompressedSensing.LeastSquares.NormalEquations
import CompressedSensing.Proofs.LeastSquares.Orthogonality
/-!
# What the check of the normal equations accepts

An answer without defect solves the normal equations. It is accepted and leaves least, but its
length is not looked at. Where the columns are independent there is one such answer. Where they are
not, a vector that the matrix does not see can be added to any of them, and the check accepts the
sum as well. So the check is enough for shortest solutions just if the columns are independent.
-/

namespace CompressedSensing

open Matrix Reals
open scoped ExactScalar

variable {T : Type} [Scalar T ℝ] {m n : ℕ} {a : DenseMatrix T m n} {b z : Signal T}

/-! ## What a matrix does not see -/

namespace DenseMatrix

/-- The signal is mapped to zero. -/
def Unseen (a : DenseMatrix T m n) (w : Signal T) : Prop :=
  w.size = n ∧ (Operator.dense a).apply w = .ok (Signal.zeros m)

/-- No signal but zero is mapped to zero. -/
def Independent (a : DenseMatrix T m n) : Prop := ∀ w, a.Unseen w → w = Signal.zeros n

section

variable [ExactScalar T]

/-- In coordinates, unseen is the kernel of the matrix. -/
lemma unseen_iff {w : Signal T} :
    a.Unseen w ↔ w.size = n ∧ of a.entry *ᵥ Signal.coords n w = 0 := by
  refine and_congr_right fun hw => ?_
  rw [(Operator.hasMatrix_dense a).hasImages.apply_eq w hw, Signal.zeros_eq_ofFn, Except.ok.injEq]
  constructor
  · intro h
    have hcoords := congrArg (Signal.coords m) h
    rwa [Signal.coords_ofFn, Signal.coords_ofFn] at hcoords
  · intro h
    rw [h]

/-- A vector of the kernel gives an unseen signal. -/
lemma unseen_ofFn {w : Fin n → T} (hw : of a.entry *ᵥ w = 0) : a.Unseen (Array.ofFn w) :=
  unseen_iff.2 ⟨Array.size_ofFn, by rwa [Signal.coords_ofFn]⟩

end

/-- Minimizing is a matter of the energies of the residuals. -/
lemma minimizes_iff [EuclideanScalar T] (hb : b.size = m) :
    a.Minimizes b z ↔ z.size = n ∧ ∀ w : Fin n → T,
      energy (Signal.coords m b - of a.entry *ᵥ Signal.coords n z)
        ≤ energy (Signal.coords m b - of a.entry *ᵥ w) := by
  have hself : ofFn (of a.entry) = a := ofFn_entry a
  have hiff := minimizes_ofFn_iff (M := of a.entry) (z := z) hb
  rwa [hself] at hiff

/-- Being shortest is a matter of the coordinates. -/
lemma shortest_iff [NormedScalar T] (hb : b.size = m) :
    a.Shortest b z ↔
      z.size = n ∧ ShortestFit (of a.entry) (Signal.coords m b) (Signal.coords n z) := by
  have hself : ofFn (of a.entry) = a := ofFn_entry a
  have hiff := shortest_ofFn_iff (M := of a.entry) (z := z) hb
  rwa [hself] at hiff

end DenseMatrix

/-! ## The check -/

namespace NormalEquations

section

variable [ExactScalar T]

/-- The matrix of the normal equations is `Aᴴ A`. -/
lemma entry_gram (a : DenseMatrix T m n) : of (gram a).entry = (of a.entry)ᴴ * of a.entry := by
  unfold gram DenseMatrix.mul DenseMatrix.adjoint
  ext i j
  simp only [of_apply, DenseMatrix.entry_ofFn, DenseMatrix.sumFin_eq_sum]
  rfl

/-- The right-hand side of the normal equations is `Aᴴ b`. -/
lemma rightHandSide_eq (a : DenseMatrix T m n) (b : Signal T) :
    rightHandSide a b = Array.ofFn ((of a.entry)ᴴ *ᵥ Signal.coords m b) := by
  unfold rightHandSide
  simp only [DenseMatrix.sumFin_eq_sum]
  rfl

/-- The defect is the length of `G z - c`. -/
lemma defect_eq (g : DenseMatrix T n n) (c z : Signal T) :
    (defect g c z : ℝ)
      = Real.sqrt (energy (of g.entry *ᵥ Signal.coords n z - Signal.coords n c)) := by
  unfold defect
  rw [Signal.norm_eq_sqrt_energy Array.size_ofFn, Signal.coords_ofFn]
  simp only [DenseMatrix.sumFin_eq_sum]
  rfl

end

/-- An answer without defect passes the check, since its entries are finite. -/
lemma accepts_of_defect_eq_zero [EuclideanScalar T] {g : DenseMatrix T n n} {c : Signal T}
    (h : (defect g c z : ℝ) = 0) : accepts (R := ℝ) g c z = true := by
  have hnorm : 0 ≤ (Signal.norm c : ℝ) := by
    rw [Signal.norm_eq_sqrt_energy rfl]
    exact Real.sqrt_nonneg _
  unfold accepts
  rw [Bool.and_eq_true, Array.all_eq_true', h, Reals.max_eq]
  refine ⟨fun v _ => EuclideanScalar.isFinite_eq_true v, decide_eq_true ?_⟩
  exact mul_nonneg (mul_nonneg (mul_nonneg (Nat.cast_nonneg _) Reals.epsilon_nonneg)
    (Nat.cast_nonneg _)) (le_max_of_le_left hnorm)

section

variable [NormedScalar T]

/-- There is no defect just if the adjoint annihilates what is left. -/
lemma defect_eq_zero_iff :
    (defect (gram a) (rightHandSide a b) z : ℝ) = 0 ↔
      (of a.entry)ᴴ *ᵥ (Signal.coords m b - of a.entry *ᵥ Signal.coords n z) = 0 := by
  rw [defect_eq, entry_gram, rightHandSide_eq, Signal.coords_ofFn,
    Real.sqrt_eq_zero (energy_nonneg _), ← mulVec_mulVec, ← mulVec_sub, ← neg_sub, mulVec_neg]
  constructor
  · intro h
    exact neg_eq_zero.1 (eq_zero_of_energy h)
  · intro h
    rw [h, neg_zero, energy_zero]

variable {kernel : {k : ℕ} → DenseMatrix T k k → Signal T → Signal T}

/-- The kernel gives a value to each unknown, and there is no defect. -/
structure Settles (kernel : {k : ℕ} → DenseMatrix T k k → Signal T → Signal T)
    (a : DenseMatrix T m n) (b : Signal T) : Prop where
  size_eq : (kernel (gram a) (rightHandSide a b)).size = n
  defect_eq : (defect (gram a) (rightHandSide a b) (kernel (gram a) (rightHandSide a b)) : ℝ) = 0

namespace Settles

omit [NormedScalar T] in
/-- The answer is not replaced. -/
lemma solveWith_eq [EuclideanScalar T] (h : Settles kernel a b) (hn : 0 < n) :
    solveWith kernel a b = kernel (gram a) (rightHandSide a b) := by
  unfold solveWith
  rw [if_neg hn.ne']
  exact if_pos (accepts_of_defect_eq_zero h.defect_eq)

/-- An answer without defect leaves a residual of least norm. -/
lemma minimizes (h : Settles kernel a b) (hb : b.size = m) :
    a.Minimizes b (kernel (gram a) (rightHandSide a b)) :=
  (DenseMatrix.minimizes_iff hb).2
    ⟨h.size_eq, forall_energy_le_iff.2 (defect_eq_zero_iff.1 h.defect_eq)⟩

/-- What the check leaves open is whether the answer is orthogonal to all that is not seen. -/
lemma shortest_iff (h : Settles kernel a b) (hb : b.size = m) :
    a.Shortest b (kernel (gram a) (rightHandSide a b)) ↔
      ∀ w, a.Unseen w → Signal.dot w (kernel (gram a) (rightHandSide a b)) = .ok 0 := by
  rw [DenseMatrix.shortest_iff hb, shortestFit_iff]
  constructor
  · rintro ⟨-, -, horthogonal⟩ w hw
    obtain ⟨hsize, hunseen⟩ := DenseMatrix.unseen_iff.1 hw
    rw [Signal.dot_eq hsize h.size_eq, horthogonal _ hunseen]
  · intro hdot
    refine ⟨h.size_eq, defect_eq_zero_iff.1 h.defect_eq, fun w hw => ?_⟩
    have hzero := hdot _ (DenseMatrix.unseen_ofFn hw)
    rw [Signal.dot_eq Array.size_ofFn h.size_eq, Signal.coords_ofFn] at hzero
    exact Except.ok.inj hzero

/-- Independent columns see everything. -/
lemma shortest_of_independent (h : Settles kernel a b) (hb : b.size = m) (ha : a.Independent) :
    a.Shortest b (kernel (gram a) (rightHandSide a b)) := by
  refine (h.shortest_iff hb).2 fun w hw => ?_
  rw [ha w hw, Signal.zeros_eq_ofFn, Signal.dot_eq Array.size_ofFn h.size_eq, Signal.coords_ofFn,
    star_zero, zero_dotProduct]

end Settles

/-- The kernel that leaves the same vector whatever the system is. -/
def leaving (z : Signal T) : {k : ℕ} → DenseMatrix T k k → Signal T → Signal T := fun _ _ => z

/-- The kernel that leaves `z` settles the system just if the residual of `z` is orthogonal to the
columns. -/
lemma settles_leaving_iff : Settles (leaving z) a b ↔
    z.size = n ∧ (of a.entry)ᴴ *ᵥ (Signal.coords m b - of a.entry *ᵥ Signal.coords n z) = 0 := by
  rw [← defect_eq_zero_iff]
  exact ⟨fun h => ⟨h.size_eq, h.defect_eq⟩, fun h => ⟨h.1, h.2⟩⟩

/-- A solution has no defect. -/
lemma settles_leaving_of_mulVec_eq (hz : z.size = n)
    (h : of a.entry *ᵥ Signal.coords n z = Signal.coords m b) : Settles (leaving z) a b := by
  rw [settles_leaving_iff, h, sub_self, mulVec_zero]
  exact ⟨hz, rfl⟩

/-- What is not seen can be added to an answer, and the check accepts the sum. So if all that it
accepts are shortest, then nothing is unseen but zero. -/
lemma independent_of_shortest (hn : 0 < n) (hb : b.size = m) {y : Fin n → T}
    (hy : ShortestFit (of a.entry) (Signal.coords m b) y)
    (h : ∀ kernel : {k : ℕ} → DenseMatrix T k k → Signal T → Signal T, Settles kernel a b →
      a.Shortest b (solveWith kernel a b)) : a.Independent := by
  intro w hw
  obtain ⟨hsize, hunseen⟩ := DenseMatrix.unseen_iff.1 hw
  have hsettles : Settles (leaving (Array.ofFn (y + Signal.coords n w))) a b := by
    rw [settles_leaving_iff, Signal.coords_ofFn, mulVec_add, hunseen, add_zero]
    exact ⟨Array.size_ofFn, (shortestFit_iff.1 hy).1⟩
  have hshortest := h _ hsettles
  rw [hsettles.solveWith_eq hn, DenseMatrix.shortest_iff hb, leaving, Signal.coords_ofFn]
    at hshortest
  have hzero : Signal.coords n w = 0 := left_eq_add.1 (hy.eq hshortest.2)
  rw [← Signal.ofFn_coords w hsize, hzero, Signal.zeros_eq_ofFn]

end

/-- Whatever a kernel leaves, if there is no defect then it is the answer, and it leaves least. It
is shortest just if it is orthogonal to all signals that are mapped to zero. So the check is enough
for the shortest solution just if the columns are independent. -/
theorem solveWith_shortest_iff {a : DenseMatrix ℝ m n} {b : Signal ℝ} (hn : 0 < n)
    (hb : b.size = m) :
    (∀ kernel : {k : ℕ} → DenseMatrix ℝ k k → Signal ℝ → Signal ℝ, Settles kernel a b →
      solveWith kernel a b = kernel (gram a) (rightHandSide a b) ∧
      a.Minimizes b (solveWith kernel a b) ∧
      (a.Shortest b (solveWith kernel a b) ↔
        ∀ w, a.Unseen w → Signal.dot w (solveWith kernel a b) = .ok 0)) ∧
    ((∀ kernel : {k : ℕ} → DenseMatrix ℝ k k → Signal ℝ → Signal ℝ, Settles kernel a b →
      a.Shortest b (solveWith kernel a b)) ↔ a.Independent) := by
  refine ⟨fun kernel h => ?_, fun h => ?_, fun ha kernel h => ?_⟩
  · rw [h.solveWith_eq hn]
    exact ⟨rfl, h.minimizes hb, h.shortest_iff hb⟩
  · obtain ⟨y, hy⟩ := Backend.exists_shortestFit (of a.entry) (Signal.coords m b)
    exact independent_of_shortest hn hb hy h
  · rw [h.solveWith_eq hn]
    exact h.shortest_of_independent hb ha

/-- Two independent columns, of which the third row is the sum. -/
noncomputable def tallColumns : DenseMatrix ℝ 3 2 := .ofFn ![![1, 0], ![0, 1], ![1, 1]]

lemma tallColumns_mulVec (v : Fin 2 → ℝ) : of tallColumns.entry *ᵥ v = ![v 0, v 1, v 0 + v 1] := by
  ext i
  change ∑ j, tallColumns.entry i j * v j = _
  rw [Fin.sum_univ_two, tallColumns, DenseMatrix.entry_ofFn, DenseMatrix.entry_ofFn]
  fin_cases i <;> simp

/-- The columns are independent and `b = (1, 2, 3)` is the image of `(1, 2)`, so the accepted
answer is the shortest one. -/
theorem solveWith_shortest_iff_tallColumns :
    tallColumns.Independent ∧ Settles (leaving #[1, 2]) tallColumns #[1, 2, 3] ∧
      solveWith (leaving #[1, 2]) tallColumns #[1, 2, 3] = #[1, 2] ∧
      tallColumns.Shortest #[1, 2, 3] (solveWith (leaving #[1, 2]) tallColumns #[1, 2, 3]) := by
  have hindependent : tallColumns.Independent := by
    intro w hw
    obtain ⟨hsize, hunseen⟩ := DenseMatrix.unseen_iff.1 hw
    rw [tallColumns_mulVec] at hunseen
    have hfst : Signal.coords 2 w 0 = 0 := congrFun hunseen 0
    have hsnd : Signal.coords 2 w 1 = 0 := congrFun hunseen 1
    rw [Signal.zeros_eq_ofFn, ← Signal.ofFn_coords w hsize]
    congr 1
    ext i
    fin_cases i
    · exact hfst
    · exact hsnd
  have hsettles : Settles (leaving #[1, 2]) tallColumns #[1, 2, 3] := by
    refine settles_leaving_of_mulVec_eq rfl ?_
    rw [tallColumns_mulVec]
    ext i
    fin_cases i
    · rfl
    · rfl
    · show (1 : ℝ) + 2 = 3
      norm_num
  obtain ⟨haccepted, henough⟩ := solveWith_shortest_iff (a := tallColumns) (b := #[1, 2, 3])
    two_pos rfl
  exact ⟨hindependent, hsettles, (haccepted _ hsettles).1, henough.2 hindependent _ hsettles⟩

/-- One equation for the sum of two unknowns. -/
noncomputable def sumRow : DenseMatrix ℝ 1 2 := .ofFn ![![1, 1]]

/-- The equation `x + y = 1` has the solution `(0, 1)`, which passes the check and is not orthogonal
to `(1, -1)`, so it is not the shortest one. -/
theorem solveWith_not_shortest_sumRow :
    Settles (leaving #[0, 1]) sumRow #[1] ∧ solveWith (leaving #[0, 1]) sumRow #[1] = #[0, 1] ∧
      ¬ sumRow.Shortest #[1] (solveWith (leaving #[0, 1]) sumRow #[1]) := by
  have himage (x y : ℝ) : of sumRow.entry *ᵥ Signal.coords 2 #[x, y] = ![x + y] := by
    ext i
    change ∑ j, sumRow.entry i j * Signal.coords 2 #[x, y] j = _
    rw [Fin.sum_univ_two, sumRow, DenseMatrix.entry_ofFn, DenseMatrix.entry_ofFn]
    fin_cases i
    show 1 * x + 1 * y = x + y
    rw [one_mul, one_mul]
  have hsettles : Settles (leaving #[0, 1]) sumRow #[1] := by
    refine settles_leaving_of_mulVec_eq rfl ?_
    rw [himage]
    ext i
    fin_cases i
    exact zero_add (1 : ℝ)
  refine ⟨hsettles, hsettles.solveWith_eq two_pos, fun hshortest => ?_⟩
  rw [hsettles.solveWith_eq two_pos, hsettles.shortest_iff rfl] at hshortest
  have hunseen : sumRow.Unseen #[1, -1] := by
    refine DenseMatrix.unseen_iff.2 ⟨rfl, ?_⟩
    rw [himage]
    ext i
    fin_cases i
    exact add_neg_cancel (1 : ℝ)
  have hdot := hshortest _ hunseen
  rw [leaving, Signal.dot_eq (n := 2) rfl rfl] at hdot
  have hproduct := Except.ok.inj hdot
  change ∑ j, Signal.coords 2 #[(1 : ℝ), -1] j * Signal.coords 2 #[(0 : ℝ), 1] j = 0 at hproduct
  rw [Fin.sum_univ_two] at hproduct
  change (1 : ℝ) * 0 + -1 * 1 = 0 at hproduct
  norm_num at hproduct

end NormalEquations
end CompressedSensing
