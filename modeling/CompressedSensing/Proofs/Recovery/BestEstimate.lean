import Mathlib
import CompressedSensing.Proofs.Recovery.Trajectory
import CompressedSensing.Proofs.Scalar.Ordered
/-!
# The answer is the best estimate

Rules look at the latest residual, the answer at the smallest one. Along a run the record keeps
the earliest estimate whose residual norm is least, the zero estimate included; the norm that is
reported with it is the norm of its own residual, and a tolerance that the latest residual meets
is met by the answer.
-/

namespace CompressedSensing

variable {T R : Type} [RealLike R] [Scalar T R]

/-- Norm `l` is the least of the norms up to `s`, those that are NaN left aside, and the first
of that size. -/
structure Leads (N : ℕ → R) (s l : ℕ) : Prop where
  le : l ≤ s
  notNaN : RealLike.isNaN (N l) = false
  least : ∀ c ≤ s, RealLike.isNaN (N c) = false → RealLike.le (N l) (N c) = true
  first : ∀ c < l, RealLike.isNaN (N c) = false → RealLike.lt (N l) (N c) = true

section

variable [OrderLaws R] {N : ℕ → R} {s l : ℕ}

omit [Scalar T R] in
/-- A strictly smaller norm takes the lead. -/
lemma Leads.overtake (h : Leads N s l) (hlt : RealLike.lt (N (s + 1)) (N l) = true) :
    Leads N (s + 1) (s + 1) := by
  rcases (OrderLaws.lt_iff _ _).1 hlt with ⟨hle, -⟩
  have hnan := OrderLaws.isNaN_left _ _ hle
  refine ⟨le_rfl, hnan, fun c hc hcn => ?_, fun c hc hcn => ?_⟩
  · -- what the old leader beat, the new one beats as well
    rcases Nat.of_le_succ hc with hcs | rfl
    · exact OrderLaws.le_trans _ _ _ hle (h.least c hcs hcn)
    · exact OrderLaws.le_refl _ hnan
  · exact OrderLaws.lt_of_lt_of_le hlt (h.least c (by omega) hcn)

omit [Scalar T R] in
/-- Any other norm leaves the lead where it is. -/
lemma Leads.hold (h : Leads N s l) (hlt : RealLike.lt (N (s + 1)) (N l) = false) :
    Leads N (s + 1) l := by
  refine ⟨h.le.trans s.le_succ, h.notNaN, fun c hc hcn => ?_, h.first⟩
  rcases Nat.of_le_succ hc with hcs | rfl
  · exact h.least c hcs hcn
  · exact OrderLaws.le_of_not_lt hcn h.notNaN hlt

omit [Scalar T R] in
/-- The best round has the lead, if the norm before the first is a number. -/
lemma leads_bestIndex (h : RealLike.isNaN (N 0) = false) (s : ℕ) : Leads N s (bestIndex N s) := by
  induction s with
  | zero =>
    refine ⟨le_rfl, h, fun c hc _ => ?_, fun c hc => absurd hc (Nat.not_lt_zero c)⟩
    obtain rfl : c = 0 := by omega
    exact OrderLaws.le_refl _ h
  | succ s ih =>
    unfold bestIndex
    split
    · rename_i hlt
      exact ih.overtake hlt
    · rename_i hlt
      exact ih.hold (eq_false_of_ne_true hlt)

end

/-! ## The zero estimate -/

namespace Signal

variable [NormLaws T R]

/-- The norm of finite entries is a number, which may be infinite. -/
lemma zero_le_norm {x : Signal T} (hx : ∀ v ∈ x, Scalar.isFinite v = true) :
    RealLike.le 0 (norm x : R) = true := by
  apply NormLaws.zero_le_sqrt (T := T)
  unfold normSq sum
  -- partial sums of squared moduli stay non-negative
  refine Array.foldl_induction (fun _ (total : R) => RealLike.le 0 total = true)
    (NormLaws.zero_le_zero T) ?_
  intro i total htotal
  refine NormLaws.zero_le_add (T := T) _ _ htotal ?_
  rw [Fin.getElem_fin, Array.getElem_map]
  exact NormLaws.zero_le_normSq _ (hx _ (Array.getElem_mem _))

end Signal

/-- The operator maps the zero signal to a zero vector; zeros of either sign will do. -/
def Operator.MapsZero (a : Operator T) : Prop :=
  ∃ w, a.apply (Signal.zeros a.cols) = .ok w ∧ ∀ v ∈ w, Scalar.isZero v = true

namespace Problem

variable {p : Problem T}

omit [RealLike R] in
lemma isFinite_of_mem (h : p.nonfiniteEntry? = none) :
    ∀ v ∈ p.measurement, Scalar.isFinite v = true := by
  intro v hv
  have := Array.findIdx?_eq_none_iff.1 h v hv
  simpa using this

/-- The residual of the zero signal has the norm of the measurement. -/
lemma residual_zeros [NormLaws T R] (hzero : p.operator.MapsZero)
    (hsize : p.measurement.size = p.operator.rows)
    (hfinite : ∀ v ∈ p.measurement, Scalar.isFinite v = true) :
    ∃ y, p.operator.residual p.measurement (Signal.zeros p.operator.cols) = .ok y ∧
      (Signal.norm y : R) = Signal.norm p.measurement := by
  rcases hzero with ⟨w, hw, hall⟩
  unfold Operator.apply at hw
  rcases Except.bind_eq_ok.1 hw with ⟨v, hv, hvw⟩
  cases hvw
  refine ⟨_, Except.bind_eq_ok.2 ⟨v, hv, rfl⟩, ?_⟩
  unfold Signal.norm Signal.normSq
  congr 2
  ext i hi hi'
  · simp [hsize]
  · -- entry `i` of the residual is that of the measurement less a zero
    have hib : i < p.measurement.size := by simpa using hi'
    have hiv : i < p.operator.rows := by omega
    simp only [Signal.overlay, Array.getElem_map, Vector.getElem_toArray, Vector.getElem_mapIdx,
      Array.getElem?_eq_getElem hib]
    refine NormLaws.normSq_sub_zero _ _ (hfinite _ (Array.getElem_mem hib)) (hall _ ?_)
    exact (Vector.mem_toArray_iff _ _).2 (Vector.getElem_mem hiv)

/-! ## The answer of a run -/

variable {m : Method R} {i t l : ℕ} {e : ℕ → Estimate T} {q : ℕ → ℕ}

/-- The norm before the first round is a number. -/
lemma Trajectory.isNaN_zero [OrderLaws R] [NormLaws T R] (h : p.Trajectory m i t e q)
    (hfinite : ∀ v ∈ p.measurement, Scalar.isFinite v = true) :
    RealLike.isNaN (residualNormAt e 0 : R) = false := by
  rw [residualNormAt_zero h.start]
  exact OrderLaws.isNaN_right _ _ (Signal.zero_le_norm hfinite)

/-- The norm that belongs to an estimate is that of the residual of its signal. -/
lemma Trajectory.norm_residual [NormLaws T R] (h : p.Trajectory m i t e q)
    (hzero : p.operator.MapsZero) (hsize : p.measurement.size = p.operator.rows)
    (hfinite : ∀ v ∈ p.measurement, Scalar.isFinite v = true) (hl : l ≤ t) :
    ∃ y, p.operator.residual p.measurement (e l).x = .ok y ∧
      (Signal.norm y : R) = residualNormAt e l := by
  rcases l with _ | s
  · rw [residualNormAt_zero h.start, h.start]
    exact residual_zeros hzero hsize hfinite
  · have hround := round_returns_estimate (h.step s (by omega))
    exact ⟨_, (estimate_eq_ok.1 hround).2.2, rfl⟩

/-- If the start is in the lead, no later norm is strictly below the norm of the start. -/
lemma not_lt_of_leads_zero [OrderLaws R] {N : ℕ → R} (h : Leads N t 0) {c : ℕ} (hc : c ≤ t) :
    RealLike.lt (N c) (N 0) = false := by
  cases hcn : RealLike.isNaN (N c) with
  | true => exact OrderLaws.not_lt_of_isNaN hcn
  | false => exact OrderLaws.not_lt_of_le (h.least c hc hcn)

/-- The answer of a recovery that iterates has the least residual norm seen, the measurement's
included and NaN left aside. It is the earliest estimate with that norm, or the zero signal if
no norm is below that of the measurement. The norm is that of its own residual, and a tolerance
reported as met is met by it. -/
theorem recover_returns_best [DecimalText R] [OrderLaws R] [NormLaws T R] {alg : Algorithm}
    {o : Options R} {i j : ℕ} {r : Recovered T R} (hzero : p.operator.MapsZero)
    (hb : RealLike.isZero (Signal.norm p.measurement : R) = false) (hk : 0 < p.sparsity)
    (hn : p.sparsity < p.operator.cols) (h : (p.recover alg o).Returns i r j) :
    ∃ (m : Method R) (e : ℕ → Estimate T) (q : ℕ → ℕ),
      alg.method p.operator o = .ok m ∧ p.Trajectory m i r.iterations e q ∧
      r.residualNorms = Array.ofFn (fun s : Fin r.iterations => residualNormAt e (s + 1)) ∧
      RealLike.le r.residualNorm (Signal.norm p.measurement) = true ∧
      (∀ v ∈ r.residualNorms, RealLike.isNaN v = false →
        RealLike.le r.residualNorm v = true) ∧
      (r.x = Signal.zeros p.operator.cols ∧ r.support = #[] ∧
          r.residualNorm = Signal.norm p.measurement ∧
          (∀ v ∈ r.residualNorms, RealLike.lt v (Signal.norm p.measurement) = false) ∨
        ∃ s < r.iterations, r.x = (e (s + 1)).x ∧ r.support = (e (s + 1)).support ∧
          r.residualNorm = residualNormAt e (s + 1) ∧
          RealLike.lt r.residualNorm (Signal.norm p.measurement) = true ∧
          ∀ c < s, RealLike.isNaN (residualNormAt e (c + 1) : R) = false →
            RealLike.lt r.residualNorm (residualNormAt e (c + 1)) = true) ∧
      (∃ y, p.operator.residual p.measurement r.x = .ok y ∧ Signal.norm y = r.residualNorm) ∧
      (r.reason.residualTolerance = true →
        RealLike.le r.residualNorm (o.tolerance * Signal.norm p.measurement) = true) := by
  rcases recover_returns_run hb hk hn h with ⟨hcheck, m, u, e, q, hm, hrun, -, -, rfl⟩
  rcases check_eq_ok.1 hcheck with ⟨-, hsize, -, hnone⟩
  have hfinite := isFinite_of_mem hnone
  have htraj := hrun.toTrajectory
  have hnan := htraj.isNaN_zero hfinite
  have hleads := leads_bestIndex hnan (u + 1)
  rcases recordAt_best (R := R) hrun.start (u + 1) with ⟨hx, hs, hnorm⟩
  have hnorms := norms_recordAt (R := R) p e (u + 1)
  have hiter := size_norms_recordAt (R := R) p e (u + 1)
  have hmem {v : R} (hv : v ∈ (p.recordAt e (u + 1) : Record T R).norms) :
      ∃ c < u + 1, v = residualNormAt e (c + 1) := by
    rw [hnorms, Array.mem_ofFn] at hv
    rcases hv with ⟨c, rfl⟩
    exact ⟨c, c.isLt, rfl⟩
  unfold Record.finish
  dsimp only
  rw [hx, hs, hnorm, ← residualNormAt_zero hrun.start]
  -- from here on only the lead of the best round matters
  generalize bestIndex (residualNormAt (R := R) e) (u + 1) = l at hleads ⊢
  have hle := hleads.le
  refine ⟨m, e, q, hm, ?_, ?_, hleads.least 0 (by omega) hnan, ?_, ?_, ?_, ?_⟩
  · rw [hiter]
    exact htraj
  · rw [hiter]
    exact hnorms
  · intro v hv hvn
    rcases hmem hv with ⟨c, hc, rfl⟩
    exact hleads.least (c + 1) (by omega) hvn
  · rcases l with _ | s
    · left
      rw [hrun.start]
      refine ⟨rfl, rfl, rfl, fun v hv => ?_⟩
      rcases hmem hv with ⟨c, hc, rfl⟩
      exact not_lt_of_leads_zero hleads (by omega)
    · right
      refine ⟨s, by omega, rfl, rfl, rfl, hleads.first 0 s.succ_pos hnan, fun c hc hcn => ?_⟩
      exact hleads.first (c + 1) (by omega) hcn
  · exact htraj.norm_residual hzero hsize hfinite hle
  · intro htol
    -- the last norm meets the tolerance, so it is a number and the leading norm is no greater
    rw [Method.residualTolerance_reasonsAt] at htol
    have hlead := hleads.least (u + 1) le_rfl (OrderLaws.isNaN_left _ _ htol)
    exact OrderLaws.le_trans _ _ _ hlead htol

lemma mapsZero_pair : pair.operator.MapsZero := by
  refine ⟨#[.finite 0, .finite 0], by cbv, ?_⟩
  intro v hv
  have : v = .finite 0 := by simpa using hv
  rw [this]
  cbv

/-- Iterative hard thresholding on two coordinates, with a step that is too long: the second
iteration is worse than the first, and the answer is the first. -/
theorem recover_returns_best_pair :
    ∃ r, (pair.recover .iht (Options.fixedStep (.finite (3 / 2)))).Returns 0 r 0 ∧
      r.x = #[.finite 12, .finite 0] ∧ r.residualNorms = #[.finite 7, .finite 8] ∧
      (∀ v ∈ r.residualNorms, RealLike.isNaN v = false →
        RealLike.le r.residualNorm v = true) ∧
      ∃ y, pair.operator.residual pair.measurement r.x = .ok y ∧
        Signal.norm y = r.residualNorm := by
  obtain ⟨m, e, q, -, -, -, -, hleast, -, hresidual, -⟩ :=
    recover_returns_best mapsZero_pair isZero_norm_pair (by decide) (by decide) recover_iht_pair
  exact ⟨_, recover_iht_pair, rfl, rfl, hleast, hresidual⟩

end Problem
end CompressedSensing
