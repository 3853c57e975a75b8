import Mathlib
import CompressedSensing.Proofs.Recovery.Failures
import CompressedSensing.Proofs.Recovery.Linear
/-!
# Recoveries from a linear operator succeed

A recovery asks its backend for fits of the measurement only, so a backend counts as far as it
answers requests with right-hand sides of fitting length. A backend that solves least squares
answers those, with one coefficient per column. So every recovery that passes the entry checks
succeeds, by every algorithm and with every step.
-/

namespace CompressedSensing

variable {T R : Type} [RealLike R] [Scalar T R]

namespace Problem

/-! ## Backends that agree -/

section

variable {p : Problem T} {s : Backend T}

/-- The two backends answer all requests for fits of the measurement in the same way. -/
def SameAnswers (p : Problem T) (s : Backend T) : Prop :=
  ∀ (i : ℕ) {n : ℕ} (a : DenseMatrix T p.operator.rows n),
    p.measurement.size = p.operator.rows →
      s.solve i a p.measurement = p.backend.solve i a p.measurement

variable (h : p.SameAnswers s)
include h

omit [RealLike R] in
/-- Backends with the same answers fit alike. -/
lemma SameAnswers.fit_eq (support : Array ℕ) : (p.withBackend s).fit support = p.fit support := by
  show p.operator.solveOn p.measurement support s
    = p.operator.solveOn p.measurement support p.backend
  unfold Operator.solveOn
  by_cases hb : p.measurement.size = p.operator.rows
  · have hrequest (columns : DenseMatrix T p.operator.rows support.size) :
        request s columns p.measurement = request p.backend columns p.measurement := by
      unfold request
      simp only [h _ columns hb]
    simp only [hrequest]
  · rw [if_pos hb, if_pos hb]
    rfl

/-- Backends with the same answers run the same rounds. -/
lemma SameAnswers.round_eq (m : Method R) (e : Estimate T) :
    (p.withBackend s).round m e = p.round m e := by
  cases m with
  | iht rule => rfl
  | htp rule =>
    show (p.withBackend s).htpRound rule e = p.htpRound rule e
    unfold htpRound
    simp only [h.fit_eq]
    rfl
  | cosamp =>
    show (p.withBackend s).cosampRound e = p.cosampRound e
    unfold cosampRound
    simp only [h.fit_eq]
    rfl
  | subspacePursuit =>
    show (p.withBackend s).subspacePursuitRound e = p.subspacePursuitRound e
    unfold subspacePursuitRound refit
    simp only [h.fit_eq]
    rfl

/-- Backends with the same answers run the same loop. -/
lemma SameAnswers.iterate_eq (m : Method R) (c : Convergence R) (b : R) (remaining : ℕ)
    (r : Record T R) (e : Estimate T) :
    (p.withBackend s).iterate m c b remaining r e = p.iterate m c b remaining r e := by
  induction remaining generalizing r e with
  | zero => rfl
  | succ remaining ih =>
    unfold iterate
    simp only [h.round_eq, ih]

/-- Both go through the same estimates. -/
lemma SameAnswers.trajectory {m : Method R} {i t : ℕ} {e : ℕ → Estimate T} {q : ℕ → ℕ}
    (htraj : p.Trajectory m i t e q) : (p.withBackend s).Trajectory m i t e q where
  start := htraj.start
  count := htraj.count
  step l hl := by
    rw [h.round_eq]
    exact htraj.step l hl

/-- A recovery does not tell backends apart that give the same answers. -/
theorem SameAnswers.recover_eq [DecimalText R] (alg : Algorithm) (o : Options R) :
    (p.withBackend s).recover alg o = p.recover alg o := by
  have hall : ((p.withBackend s).solveAll : Solving (Recovered T R)) = p.solveAll := by
    unfold solveAll
    simp only [h.fit_eq]
    rfl
  have hpursue : (p.withBackend s).pursue alg o = p.pursue alg o := by
    unfold pursue
    simp only [h.iterate_eq]
    rfl
  unfold recover
  simp only [hall, hpursue]
  rfl

end

end Problem

/-! ## Success -/

open Reals

/-- The backend that answers the requests with right-hand sides of the wrong length, too. -/
def Backend.obliging {T : Type} [Zero T] (s : Backend T) : Backend T where
  name := s.name
  solve i {m n} a b := if b.size = m then s.solve i a b else .ok (Array.replicate n 0)

/-- It answers everything with one coefficient per column. -/
lemma Backend.LeastSquares.exists_obliging {T : Type} [Scalar T ℝ] {s : Backend T}
    (hs : s.LeastSquares) (i : ℕ) {m n : ℕ} (a : DenseMatrix T m n) (b : Signal T) :
    ∃ z, s.obliging.solve i a b = .ok z ∧ z.size = n := by
  by_cases hb : b.size = m
  · obtain ⟨z, hz, hmin⟩ := hs i a b hb
    exact ⟨z, (if_pos hb).trans hz, hmin.1⟩
  · exact ⟨_, if_neg hb, Array.size_replicate⟩

/-- The obliging backend answers in fitting length, also where it was not asked properly. -/
lemma Backend.LeastSquares.obliging_fits {T : Type} [Scalar T ℝ] {s : Backend T}
    (hs : s.LeastSquares) : s.obliging.Fits := by
  intro i m n a b z hz
  obtain ⟨z', hz', hsize⟩ := hs.exists_obliging i a b
  rw [hz] at hz'
  cases hz'
  exact hsize

namespace Problem

/-- The obliging backend answers the requests of a recovery like the backend. -/
lemma sameAnswers_obliging {T : Type} [Zero T] (p : Problem T) :
    p.SameAnswers p.backend.obliging :=
  fun _ _ _ hb => if_pos hb

open scoped ExactScalar

variable {T : Type} [Scalar T ℝ] [EuclideanScalar T] {p : Problem T}
  {M : Matrix (Fin p.operator.rows) (Fin p.operator.cols) T}

/-- A recovery by least squares that passes the entry checks succeeds. -/
theorem Linear.recover_returns [DecimalText ℝ] (h : p.Linear M) (hs : p.backend.LeastSquares)
    (alg : Algorithm) {o : Options ℝ} (hcheck : p.check o = .ok ()) (i : ℕ) :
    ∃ r j, (p.recover alg o).Returns i r j := by
  have hfits := hs.obliging_fits
  have hdense := Operator.hasMatrix_dense_ofFn M
  -- the same recovery, with maps that accept any buffer and a backend that accepts any request
  let p' : Problem T := (p.withBackend p.backend.obliging).withOperator (.dense (.ofFn M))
  have hrecover : p'.recover alg o = p.recover alg o :=
    (recover_congr (p := p.withBackend p.backend.obliging) alg o
      (h.images.agrees hdense.hasImages) fun _ => hfits).trans
      (p.sameAnswers_obliging.recover_eq alg o)
  rw [← hrecover]
  have honly : Solving.OnlyRefused (fun s => (p'.withBackend s).recover alg o) p'.backend :=
    recover_onlyRefused hdense.total hfits hcheck
  rcases honly i with ⟨r, j, -, hr, -⟩ | ⟨c, a, b, e, -, he, -⟩
  · exact ⟨r, j, hr⟩
  · obtain ⟨z, hz, -⟩ := hs.exists_obliging c a.matrix b
    cases hz.symm.trans he

end Problem
end CompressedSensing
