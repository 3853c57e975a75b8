import Mathlib
import CompressedSensing.Proofs.LeastSquares.Shortest
import CompressedSensing.Proofs.Operator.Adjunction
import CompressedSensing.Proofs.Operator.Linearity
import CompressedSensing.Proofs.Recovery.Linear
import CompressedSensing.Proofs.Support.Restricted
/-!
# Shortest fits on a support

Coefficients that are written at a support keep their norm, and what they combine are the columns
there. So a shortest least-squares solution for these columns is, as a signal, the shortest one that
vanishes outside of the support and leaves least. This signal is known from the set of indices. In
whichever order the support lists them, every index gets the same coefficient.
-/

namespace CompressedSensing

open Matrix Reals
open scoped ExactScalar

variable {T : Type} [Scalar T ℝ] {m n : ℕ} {s t : Array ℕ}

/-! ## Vectors -/

/-- A reordering of a valid support is valid. -/
lemma Support.Valid.of_perm (hs : Support.Valid n s) (hp : t.Perm s) :
    Support.Valid n t := by
  rw [Array.perm_iff_toList_perm] at hp
  exact ⟨hp.nodup_iff.2 hs.nodup, fun l hl => hs.lt l (hp.mem_iff.1 hl)⟩

/-- What is written at a support vanishes elsewhere. -/
lemma Support.conjTranspose_selection_mulVec [ExactScalar T] (z : Fin s.size → T) {l : Fin n}
    (hl : l.val ∉ s) : ((Support.selection T s n)ᴴ *ᵥ z) l = 0 := by
  rw [mulVec, dotProduct]
  refine Finset.sum_eq_zero fun j _ => ?_
  have hne : s[j.val] ≠ l.val := fun h => hl (h ▸ Array.getElem_mem j.isLt)
  simp [Support.selection, hne]

variable [NormedScalar T] {M : Matrix (Fin m) (Fin n) T} {b : Fin m → T} {v : Fin n → T}

/-- Scattering on a valid support keeps the energy. -/
lemma energy_conjTranspose_selection (hs : Support.Valid n s) (z : Fin s.size → T) :
    energy ((Support.selection T s n)ᴴ *ᵥ z) = energy z := by
  apply energy_mulVec
  rw [conjTranspose_conjTranspose, Support.selection_mul_conjTranspose hs]

/-- Of the vectors that vanish outside of the support, none leaves less of `b` than `v`, and none
that leaves as little is shorter. -/
structure ShortestFitOn (M : Matrix (Fin m) (Fin n) T) (b : Fin m → T) (s : Array ℕ)
    (v : Fin n → T) : Prop where
  eq_zero (l : Fin n) : l.val ∉ s → v l = 0
  fits (w : Fin n → T) : (∀ l : Fin n, l.val ∉ s → w l = 0) →
    energy (b - M *ᵥ v) ≤ energy (b - M *ᵥ w)
  shortest (w : Fin n → T) : (∀ l : Fin n, l.val ∉ s → w l = 0) →
    energy (b - M *ᵥ w) ≤ energy (b - M *ᵥ v) → energy v ≤ energy w

/-- The order of the support plays no part. -/
lemma ShortestFitOn.of_perm (h : ShortestFitOn M b s v) (hp : t.Perm s) :
    ShortestFitOn M b t v := by
  obtain ⟨hzero, hfits, hshortest⟩ := h
  simp only [← hp.mem_iff] at hzero hfits hshortest
  exact ⟨hzero, hfits, hshortest⟩

/-- Such a vector consists of a shortest solution for the columns at the support, written there. -/
lemma shortestFitOn_iff (hs : Support.Valid n s) :
    ShortestFitOn M b s v ↔ (∀ l : Fin n, l.val ∉ s → v l = 0) ∧
      ShortestFit (M * (Support.selection T s n)ᴴ) b (Support.selection T s n *ᵥ v) := by
  -- vectors on the support and their coefficients have the same images and the same lengths
  have himage (z : Fin s.size → T) : (M * (Support.selection T s n)ᴴ) *ᵥ z
      = M *ᵥ ((Support.selection T s n)ᴴ *ᵥ z) := (mulVec_mulVec _ _ _).symm
  have hread (w : Fin n → T) (hw : ∀ l : Fin n, l.val ∉ s → w l = 0) :
      energy (Support.selection T s n *ᵥ w) = energy w := by
    rw [← energy_conjTranspose_selection hs, Signal.selection_mulVec_selection hs hw]
  constructor
  · rintro ⟨hzero, hfits, hshortest⟩
    have hself := Signal.selection_mulVec_selection hs hzero
    refine ⟨hzero, fun z => ?_, fun z hz => ?_⟩
    · rw [himage, himage, hself]
      exact hfits _ fun l => Support.conjTranspose_selection_mulVec z
    · rw [himage, himage, hself] at hz
      rw [hread v hzero, ← energy_conjTranspose_selection hs z]
      exact hshortest _ (fun l => Support.conjTranspose_selection_mulVec z) hz
  · rintro ⟨hzero, hfits, hshortest⟩
    have hself := Signal.selection_mulVec_selection hs hzero
    simp only [himage, hself] at hfits hshortest
    refine ⟨hzero, fun w hw => ?_, fun w hw hle => ?_⟩
    · have hfit := hfits (Support.selection T s n *ᵥ w)
      rwa [Signal.selection_mulVec_selection hs hw] at hfit
    · rw [← hread v hzero, ← hread w hw]
      apply hshortest
      rwa [Signal.selection_mulVec_selection hs hw]

/-! ## Solves -/

namespace Operator

variable {a : Operator T} {b x r : Signal T} {backend : Backend T}

/-- The signal `x` vanishes outside of the support and leaves `r`. No signal that vanishes there
leaves less, and none that leaves as little is shorter. -/
structure ShortestOn (a : Operator T) (b : Signal T) (s : Array ℕ) (x r : Signal T) : Prop where
  size_eq : x.size = a.cols
  eq_zero : ∀ l ∉ s, x.getD l 0 = 0
  residual_eq : a.residual b x = .ok r
  least (y : Signal T) : y.size = a.cols → (∀ l ∉ s, y.getD l 0 = 0) →
    ∃ r', a.residual b y = .ok r' ∧ (Signal.norm r : ℝ) ≤ Signal.norm r' ∧
      ((Signal.norm r' : ℝ) = Signal.norm r → (Signal.norm x : ℝ) ≤ Signal.norm y)

/-- An adjoint makes an operator linear. -/
lemma Adjunction.actsLinearly (h : a.Adjunction) : a.ActsLinearly := by
  obtain ⟨M, hM⟩ := h.exists_hasImages
  exact MapsBy.actsLinearly hM.apply_eq

section

variable {M : Matrix (Fin a.rows) (Fin a.cols) T}

/-- A shortest fit in coordinates gives a shortest signal on the support, with its residual. -/
lemma MapsBy.shortestOn (hM : a.MapsBy M) (hb : b.size = a.rows) {v : Fin a.cols → T}
    (h : ShortestFitOn M (Signal.coords a.rows b) s v) :
    ∃ r, a.ShortestOn b s (Array.ofFn v) r := by
  have hnorm {k : ℕ} {y : Signal T} (hy : y.size = k) :
      (Signal.norm y : ℝ) = Real.sqrt (energy (Signal.coords k y)) := Signal.norm_eq_sqrt_energy hy
  refine ⟨_, Array.size_ofFn, fun l hl => ?_, residual_eq_of_apply hM hb Array.size_ofFn,
    fun y hy hzero => ⟨_, residual_eq_of_apply hM hb hy, ?_, fun heq => ?_⟩⟩
  · by_cases hlt : l < a.cols
    · simpa [hlt] using h.eq_zero ⟨l, hlt⟩ hl
    · simp [hlt]
  · rw [hnorm Array.size_ofFn, hnorm Array.size_ofFn, Signal.coords_ofFn, Signal.coords_ofFn,
      Signal.coords_ofFn]
    exact Real.sqrt_le_sqrt (h.fits _ fun l => hzero l)
  · rw [hnorm Array.size_ofFn, hnorm Array.size_ofFn, Signal.coords_ofFn, Signal.coords_ofFn,
      Signal.coords_ofFn, Real.sqrt_inj (energy_nonneg _) (energy_nonneg _)] at heq
    rw [hnorm Array.size_ofFn, hnorm hy, Signal.coords_ofFn]
    exact Real.sqrt_le_sqrt (h.shortest _ (fun l => hzero l) heq.le)

/-- The answer on a support consists of the entries of the shortest fit there. -/
lemma MapsBy.solveOn_returns_valuesAt (hM : a.MapsBy M) (hbackend : backend.Shortest)
    (hb : b.size = a.rows) (hs : Support.Valid a.cols s) (hx : x.size = a.cols)
    (h : ShortestFitOn M (Signal.coords a.rows b) s (Signal.coords a.cols x)) (i : ℕ) :
    ∃ j, (a.solveOn b s backend).Returns i (x.valuesAt s) j := by
  by_cases hempty : s.isEmpty
  · -- nothing is asked of the backend
    refine ⟨i, solveOn_returns.2 ⟨hb, hs, ?_⟩⟩
    rw [if_pos hempty, Array.isEmpty_iff.1 hempty]
    exact ⟨Array.map_empty, rfl⟩
  · have hfit := ((shortestFitOn_iff hs).1 h).2
    rw [← Signal.coords_valuesAt hs hx] at hfit
    have hsolve := hbackend.solve_eq i hb hfit
    rw [Signal.ofFn_coords _ (Signal.size_valuesAt x s)] at hsolve
    refine ⟨i + 1, solveOn_returns.2 ⟨hb, hs, ?_⟩⟩
    rw [if_neg hempty]
    exact ⟨_, restrictedMatrix_eq_of_apply hM hs, hsolve, rfl⟩

end

/-- With a backend for shortest least-squares solutions, a solve on a support of any order, empty or
not, finds the shortest of the signals that vanish outside of it and leave least. In every order of
the support it is the same signal `x`, and the coefficient of each index is the entry of `x`. -/
theorem solveDenseOn_shortestOn (ha : a.ActsLinearly) (hbackend : backend.Shortest)
    (hb : b.size = a.rows) (hs : Support.Valid a.cols s) :
    ∃ x r, a.ShortestOn b s x r ∧
      ∀ t : Array ℕ, t.Perm s → ∀ i, ∃ j,
        (a.solveOn b t backend).Returns i (x.valuesAt t) j ∧
        (a.solveDenseOn b t backend).Returns i x j := by
  obtain ⟨M, hM⟩ := ha.exists_mapsBy
  -- the answer for the columns in the given order, written at the support
  obtain ⟨z, -, hz⟩ := hbackend 0 (.ofFn (M * (Support.selection T s a.cols)ᴴ)) b hb
  obtain ⟨-, hfit⟩ := (DenseMatrix.shortest_ofFn_iff hb).1 hz
  have hwritten : ShortestFitOn M (Signal.coords a.rows b) s
      ((Support.selection T s a.cols)ᴴ *ᵥ Signal.coords s.size z) := by
    refine (shortestFitOn_iff hs).2 ⟨fun l => Support.conjTranspose_selection_mulVec _, ?_⟩
    rwa [mulVec_mulVec, Support.selection_mul_conjTranspose hs, one_mulVec]
  obtain ⟨r, hr⟩ := hM.shortestOn hb hwritten
  generalize hx : Array.ofFn ((Support.selection T s a.cols)ᴴ *ᵥ Signal.coords s.size z) = x at hr
  rw [← Signal.coords_ofFn (_ *ᵥ _), hx] at hwritten
  refine ⟨x, r, hr, fun t hp i => ?_⟩
  have ht := hs.of_perm hp
  obtain ⟨j, hj⟩ :=
    hM.solveOn_returns_valuesAt hbackend hb ht hr.size_eq (hwritten.of_perm hp) i
  refine ⟨j, hj, Solving.returns_bind.2 ⟨_, j, hj, Solving.returns_ofExcept.2 ⟨?_, rfl⟩⟩⟩
  have hzero : ∀ l ∉ t, x.getD l 0 = 0 := fun l hl => hr.eq_zero l (mt hp.mem_iff.2 hl)
  rw [← hr.size_eq] at ht ⊢
  rw [Signal.embed_valuesAt ht, Signal.restrict_eq_self ht hzero]

/-- The outer columns are the same. -/
noncomputable def twinColumns : Operator ℝ := .dense (.ofFn ![![1, 0, 1]])

/-- A support may list the later one of the twin columns first. -/
theorem solveDenseOn_shortestOn_twinColumns :
    twinColumns.ActsLinearly ∧ Backend.shortest.Shortest ∧ Support.Valid twinColumns.cols #[2, 0] ∧
      ∃ x r, twinColumns.ShortestOn #[3] #[2, 0] x r ∧
        ∀ t : Array ℕ, t.Perm #[2, 0] → ∀ i, ∃ j,
          (twinColumns.solveOn #[3] t Backend.shortest).Returns i (x.valuesAt t) j ∧
          (twinColumns.solveDenseOn #[3] t Backend.shortest).Returns i x j := by
  have hlinear : twinColumns.ActsLinearly :=
    (HasImages.adjunction (hasMatrix_dense_ofFn ![![1, 0, 1]]).hasImages).actsLinearly
  have hvalid : Support.Valid twinColumns.cols #[2, 0] := ⟨by decide, by decide⟩
  exact ⟨hlinear, Backend.shortest_shortest, hvalid,
    solveDenseOn_shortestOn hlinear Backend.shortest_shortest rfl hvalid⟩

end Operator
end CompressedSensing
