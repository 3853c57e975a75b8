import Mathlib
import CompressedSensing.Proofs.Recovery.Cycling
import CompressedSensing.Proofs.Recovery.Success
import CompressedSensing.Proofs.Recovery.Thresholding
import CompressedSensing.Proofs.Signal.LineSearch
/-!
# Fits are optimal on their support

A signal that leaves as little as any signal on its support has a residual that is orthogonal to
the columns of the support: otherwise a step along the part of the gradient there would leave less.

If the backend answers with least-squares solutions, every answer of the two algorithms that fit on
what they keep is like that. The best estimate of a run is the zero signal, which competes with
nothing on the empty support, or a fit on its own support. The answers that need no iteration are of
the same two kinds.
-/

namespace CompressedSensing

open Matrix Reals
open scoped ExactScalar

namespace Signal

section

variable {T R : Type} [Scalar T R] {n : ℕ} {s : Array ℕ} {x z : Signal T}

lemma coords_embed_of_notMem (h : embed n s z = .ok x) {l : Fin n} (hl : l.val ∉ s) :
    coords n x l = 0 := by
  unfold embed at h
  split at h
  · cases h
    rw [coords_toArray, getElem_scatter_of_notMem _ _ _ l.isLt hl, Vector.getElem_replicate]
  · cases h

/-- One value per index is the signal itself. -/
lemma embed_range (z : Signal T) : embed z.size (Array.range z.size) z = .ok z := by
  have hvalues : z.valuesAt (Array.range z.size) = z := by
    apply Array.ext
    · simp
    · intro l hl hl'
      simp [valuesAt, hl']
  have hembed := embed_valuesAt (Support.Ascending.range z.size).valid
  rwa [hvalues, restrict_range] at hembed

end

end Signal

namespace Problem

variable {T : Type} [Scalar T ℝ] [NormedScalar T] {p : Problem T}
  {M : Matrix (Fin p.operator.rows) (Fin p.operator.cols) T} {s : Array ℕ} {x : Signal T}
  {e : Estimate T} {i j : ℕ}

/-- The signal vanishes outside the support, and nothing that does leaves less. -/
structure Least (p : Problem T) (M : Matrix (Fin p.operator.rows) (Fin p.operator.cols) T)
    (s : Array ℕ) (x : Signal T) : Prop where
  valid : Support.Valid p.operator.cols s
  size_eq : x.size = p.operator.cols
  eq_zero (l : Fin p.operator.cols) : l.val ∉ s → Signal.coords p.operator.cols x l = 0
  energy_le (v : Fin p.operator.cols → T) : (∀ l : Fin p.operator.cols, l.val ∉ s → v l = 0) →
    energy (p.misfit M x) ≤ energy (p.target - M *ᵥ v)

/-- A step along the part of the gradient on the support would leave less. -/
lemma Least.gradient_eq_zero (h : p.Least M s x) {l : Fin p.operator.cols} (hl : l.val ∈ s) :
    (Mᴴ *ᵥ p.misfit M x) l = 0 := by
  by_contra hne
  obtain ⟨v, hv, hlt⟩ := exists_energy_lt h.valid hl hne
  have hle := h.energy_le (Signal.coords p.operator.cols x + v) fun c hc => by
    rw [Pi.add_apply, h.eq_zero c hc, hv c hc, add_zero]
  rw [mulVec_add, ← sub_sub] at hle
  exact absurd hle (not_le.2 hlt)

/-- The residual `y` is orthogonal to the columns of the support, and no signal that vanishes
outside the support leaves less. -/
structure LeavesLeast (p : Problem T) (s : Array ℕ) (y : Signal T) : Prop where
  orthogonal : ∃ g, p.operator.applyAdjoint y = .ok g ∧ ∀ l ∈ s, g[l]? = some 0
  norm_le (w y' : Signal T) : w.size = p.operator.cols → (∀ l, l ∉ s → w.getD l 0 = 0) →
    p.operator.residual p.measurement w = .ok y' → (Signal.norm y : ℝ) ≤ Signal.norm y'

/-- Only the zero signal vanishes everywhere. -/
lemma least_start : p.Least M #[] p.start.x where
  valid := (Support.Ascending.empty _).valid
  size_eq := p.start_supportedOn.size_eq
  eq_zero _ hl := p.start_supportedOn.coords_eq_zero hl
  energy_le v hv := by
    have hsame : v = Signal.coords p.operator.cols p.start.x := by
      funext l
      rw [hv l (by simp), p.start_supportedOn.coords_eq_zero (by simp [start])]
    rw [hsame]
    exact le_rfl

namespace Linear

variable (h : p.Linear M)
include h

/-- A least misfit is orthogonal to the columns on the support. -/
lemma leavesLeast (hx : p.Least M s x) : p.LeavesLeast s (Array.ofFn (p.misfit M x)) where
  orthogonal := by
    refine ⟨_, h.images.applyAdjoint_eq _ Array.size_ofFn, fun l hl => ?_⟩
    have hlt : l < p.operator.cols := hx.valid.lt l (Array.mem_toList_iff.2 hl)
    rw [Signal.coords_ofFn, Array.getElem?_ofFn, dif_pos hlt]
    exact congrArg some (hx.gradient_eq_zero (l := ⟨l, hlt⟩) hl)
  norm_le w y' hw hzero hy' := by
    rw [h.residual_eq hw] at hy'
    cases hy'
    rw [Signal.norm_eq_sqrt_energy Array.size_ofFn, Signal.norm_eq_sqrt_energy Array.size_ofFn,
      Signal.coords_ofFn, Signal.coords_ofFn]
    apply Real.sqrt_le_sqrt
    exact hx.energy_le _ fun l hl => hzero l hl

variable (hs : p.backend.Minimizing)
include hs

/-- A fit leaves a least misfit on its support. -/
lemma least_of_fit {z : Signal T} (hz : (p.fit s).Returns i z j)
    (hx : Signal.embed p.operator.cols s z = .ok x) : p.Least M s x := by
  obtain ⟨-, hvalid, -⟩ := Operator.solveOn_returns.1 hz
  exact ⟨hvalid, Signal.size_embed hx, fun _ hl => Signal.coords_embed_of_notMem hx hl,
    fun _ hv => h.energy_fit_le hs hvalid hz hx hv⟩

/-- The fit on all columns vanishes nowhere by itself. -/
lemma least_solveAll (hx : (p.fit (Array.range p.operator.cols)).Returns i x j) :
    p.Least M (Array.range p.operator.cols) x := by
  have hsize := size_of_minimizing_fit hs hx
  rw [Array.size_range] at hsize
  have hembed := Signal.embed_range x
  rw [hsize] at hembed
  exact h.least_of_fit hs hx hembed

/-- Every estimate of a run of the two algorithms that fit on what they keep. -/
lemma least_trajectory {alg : Algorithm} {o : Options ℝ} {m : Method ℝ} {t l : ℕ}
    {f : ℕ → Estimate T} {q : ℕ → ℕ} (htraj : p.Trajectory m i t f q)
    (hm : alg.method p.operator o = .ok m) (halg : alg = .htp ∨ alg = .subspacePursuit)
    (hl : l ≤ t) : p.Least M (f l).support (f l).x := by
  cases l with
  | zero =>
    rw [htraj.start]
    exact least_start
  | succ l =>
    obtain ⟨_, z, _, hz, hx, -⟩ := htraj.fitted hm halg hl
    exact h.least_of_fit hs hz hx

end Linear

variable {alg : Algorithm} {o : Options ℝ} {r : Recovered T ℝ}

/-- The answer leaves as little as any signal on its support, whichever way it was reached. -/
lemma Linear.least_recover [DecimalText ℝ] (h : p.Linear M) (hs : p.backend.Minimizing)
    (halg : alg = .htp ∨ alg = .subspacePursuit) (hr : (p.recover alg o).Returns i r j) :
    p.Least M r.support r.x := by
  obtain ⟨hcheck, hbranch⟩ := Problem.recover_returns.1 hr
  obtain ⟨hvalid, -, -, -⟩ := check_eq_ok.1 hcheck
  split at hbranch
  · rw [hbranch.1]
    exact least_start
  · split at hbranch
    · rw [hbranch.1]
      exact least_start
    · split at hbranch
      · obtain ⟨x, y, hx, -, rfl⟩ := solveAll_returns.1 hbranch
        exact h.least_solveAll hs hx
      · obtain ⟨m, u, e, q, hm, hrun, -, -, rfl⟩ :=
          pursue_returns (Options.maxIterations_pos hvalid) hbranch
        obtain ⟨hx, hsupport, -⟩ := recordAt_best (R := ℝ) hrun.start (u + 1)
        show p.Least M (p.recordAt e (u + 1)).bestSupport (p.recordAt e (u + 1)).bestX
        rw [hx, hsupport]
        exact h.least_trajectory hs hrun.toTrajectory hm halg (bestIndex_le _ _)

/-- If the backend answers with least-squares solutions, both algorithms that fit on what they keep
answer with coefficients that are optimal for their support: the residual is orthogonal to the
columns there, and no signal that vanishes outside the support leaves less. -/
theorem recover_leavesLeast [DecimalText ℝ] (ha : p.operator.Adjunction)
    (hs : p.backend.Minimizing) (halg : alg = .htp ∨ alg = .subspacePursuit)
    (h : (p.recover alg o).Returns i r j) :
    ∃ y, p.operator.residual p.measurement r.x = .ok y ∧ p.LeavesLeast r.support y := by
  obtain ⟨M, hM⟩ := ha.exists_hasImages
  have hcheck := (recover_returns.1 h).1
  have hlinear : p.Linear M := ⟨hM, (check_eq_ok.1 hcheck).2.1⟩
  have hleast := hlinear.least_recover hs halg h
  exact ⟨_, hlinear.residual_eq hleast.size_eq, hlinear.leavesLeast hleast⟩

lemma check_standard_realPair : realPair.check Options.standard = .ok () :=
  check_eq_ok.2 ⟨validate_standard, rfl, one_le_two, nonfiniteEntry?_eq_none realPair⟩

/-- Both algorithms fit one of two coordinates, and answer with the best multiple of it. -/
theorem recover_leavesLeast_realPair :
    (∃ r j, (realPair.recover .htp Options.standard).Returns 0 r j ∧
      ∃ y, realPair.operator.residual realPair.measurement r.x = .ok y ∧
        realPair.LeavesLeast r.support y) ∧
    ∃ r j, (realPair.recover .subspacePursuit Options.standard).Returns 0 r j ∧
      ∃ y, realPair.operator.residual realPair.measurement r.x = .ok y ∧
        realPair.LeavesLeast r.support y := by
  have himages := (Operator.hasMatrix_identity (T := ℝ) 2).hasImages
  have hlinear : realPair.Linear _ := ⟨himages, rfl⟩
  have hs := Backend.leastSquares_leastSquares
  obtain ⟨r, j, hr⟩ := hlinear.recover_returns hs .htp check_standard_realPair 0
  obtain ⟨r', j', hr'⟩ := hlinear.recover_returns hs .subspacePursuit check_standard_realPair 0
  exact ⟨⟨r, j, hr, recover_leavesLeast himages.adjunction hs.minimizing (.inl rfl) hr⟩,
    r', j', hr', recover_leavesLeast himages.adjunction hs.minimizing (.inr rfl) hr'⟩

end Problem
end CompressedSensing
