import Mathlib
import CompressedSensing.Operator.Elementary
import CompressedSensing.Proofs.Recovery.Entry
import CompressedSensing.Proofs.Recovery.Rounds
import CompressedSensing.Proofs.Scalar.Extended
/-!
# Runs as sequences of estimates

A run is described by the estimates `e 0, e 1, …` that it goes through, the zero estimate first,
and by the numbers `q 0, q 1, …` of requests made before each of them. `Trajectory` says that
each round leads from one estimate to the next, and `Run` that the stopping rules are quiet until
the last round, where they fire. The loop of a recovery that succeeds is a run, and its answer
is read off the record of the run.
-/

namespace CompressedSensing

variable {T R : Type} [RealLike R] [Scalar T R]

namespace Problem

/-- Estimate `s + 1` is what a round makes of estimate `s`, for the first `t` rounds. -/
structure Trajectory (p : Problem T) (m : Method R) (i t : ℕ) (e : ℕ → Estimate T)
    (q : ℕ → ℕ) : Prop where
  start : e 0 = p.start
  count : q 0 = i
  step : ∀ s < t, (p.round m (e s)).Returns (q s) (e (s + 1)) (q (s + 1))

/-- A trajectory with one more round. -/
lemma Trajectory.exists_succ {p : Problem T} {m : Method R} {i j l : ℕ} {f : ℕ → Estimate T}
    {q : ℕ → ℕ} {e' : Estimate T} (h : p.Trajectory m i l f q)
    (hround : (p.round m (f l)).Returns (q l) e' j) :
    ∃ (f' : ℕ → Estimate T) (q' : ℕ → ℕ), p.Trajectory m i (l + 1) f' q' ∧
      (∀ s ≤ l, f' s = f s) ∧ f' (l + 1) = e' := by
  have hf (s : ℕ) (hs : s ≤ l) : Function.update f (l + 1) e' s = f s :=
    Function.update_of_ne (by omega) _ _
  have hq (s : ℕ) (hs : s ≤ l) : Function.update q (l + 1) j s = q s :=
    Function.update_of_ne (by omega) _ _
  refine ⟨Function.update f (l + 1) e', Function.update q (l + 1) j, ⟨?_, ?_, ?_⟩, hf,
    Function.update_self _ _ _⟩
  · rw [hf 0 l.zero_le, h.start]
  · rw [hq 0 l.zero_le, h.count]
  · intro s hs
    rw [hf s (by omega), hq s (by omega)]
    by_cases hlast : s = l
    · rw [hlast, Function.update_self, Function.update_self]
      exact hround
    · rw [hf _ (by omega), hq _ (by omega)]
      exact h.step s (by omega)

end Problem

/-- The norm of the residual after `s` rounds; `‖b‖` before the first. -/
def residualNormAt (e : ℕ → Estimate T) (s : ℕ) : R := Signal.norm (e s).residual

lemma residualNormAt_zero {p : Problem T} {e : ℕ → Estimate T} (h : e 0 = p.start) :
    (residualNormAt e 0 : R) = Signal.norm p.measurement := by
  unfold residualNormAt
  rw [h]
  rfl

/-- The rules that fire after round `s + 1`. -/
def Method.reasonsAt (m : Method R) (c : Convergence R) (e : ℕ → Estimate T) (s : ℕ) :
    StopReason :=
  m.reasons c (residualNormAt e 0) (residualNormAt e s) (s + 1) (e s) (e (s + 1))

/-- The rules that fire after round `s + 1` of a loop that is entered after `k` rounds, by the
norms of `e` and a norm `b` of the measurement. -/
def Method.reasonsFrom (m : Method R) (c : Convergence R) (b : R) (k : ℕ) (e : ℕ → Estimate T)
    (s : ℕ) : StopReason :=
  m.reasons c b (residualNormAt e s) (k + s + 1) (e s) (e (s + 1))

/-- The reasons after the first iteration are those of the trajectory without it. -/
lemma Method.reasonsFrom_succ (m : Method R) (c : Convergence R) (b : R) (k : ℕ)
    (e : ℕ → Estimate T) (s : ℕ) :
    m.reasonsFrom c b k e (s + 1) = m.reasonsFrom c b (k + 1) (fun s => e (s + 1)) s := by
  unfold reasonsFrom
  rw [show k + (s + 1) + 1 = k + 1 + s + 1 by omega]
  rfl

/-- Counted from the start, the reasons are those of the whole trajectory. -/
lemma Method.reasonsFrom_zero (m : Method R) (c : Convergence R) (e : ℕ → Estimate T) (s : ℕ) :
    m.reasonsFrom c (residualNormAt e 0) 0 e s = m.reasonsAt c e s := by
  unfold reasonsFrom reasonsAt
  rw [Nat.zero_add]

/-- The tolerance is met by the new residual norm, relative to the measurement. -/
lemma Method.residualTolerance_reasonsAt (m : Method R) (c : Convergence R) (e : ℕ → Estimate T)
    (s : ℕ) :
    (m.reasonsAt c e s).residualTolerance
      = RealLike.le (residualNormAt e (s + 1)) (c.tolerance * residualNormAt e 0) :=
  Bool.or_false _

namespace Problem

/-- A trajectory of `u + 1` rounds that stops after the last one and not before. -/
structure Run (p : Problem T) (m : Method R) (c : Convergence R) (i u : ℕ)
    (e : ℕ → Estimate T) (q : ℕ → ℕ) : Prop extends p.Trajectory m i (u + 1) e q where
  quiet : ∀ s < u, (m.reasonsAt c e s).shouldStop = false
  stops : (m.reasonsAt c e u).shouldStop = true

end Problem

/-- The round up to `s` whose norm was strictly below the best norm before it, the last such. -/
def bestIndex (N : ℕ → R) : ℕ → ℕ
  | 0 => 0
  | s + 1 => if RealLike.lt (N (s + 1)) (N (bestIndex N s)) then s + 1 else bestIndex N s

omit [Scalar T R] in
/-- The best index is one of those already reached. -/
lemma bestIndex_le (N : ℕ → R) (s : ℕ) : bestIndex N s ≤ s := by
  induction s with
  | zero => exact le_rfl
  | succ s ih =>
    unfold bestIndex
    split <;> omega

/-! ## The record of a run -/

namespace Record

/-- The record after `s` more rounds. -/
def extend (r : Record T R) (e : ℕ → Estimate T) : ℕ → Record T R
  | 0 => r
  | s + 1 => (r.extend e s).push (e (s + 1)) (residualNormAt e (s + 1))

lemma extend_succ (r : Record T R) (e : ℕ → Estimate T) (s : ℕ) :
    r.extend e (s + 1)
      = (r.push (e 1) (residualNormAt e 1)).extend (fun s => e (s + 1)) s := by
  induction s with
  | zero => rfl
  | succ s ih =>
    -- both sides push the last round on top of the same record
    unfold extend
    rw [ih]
    rfl

omit [Scalar T R] in
lemma norms_push (r : Record T R) (e : Estimate T) (norm : R) :
    (r.push e norm).norms = r.norms.push norm := by
  unfold push
  split <;> rfl

omit [Scalar T R] in
lemma previous_push (r : Record T R) (e : Estimate T) (norm : R) :
    (r.push e norm).previous = norm := by
  unfold push
  split <;> rfl

/-- The record lists the norms of all rounds, in order. -/
lemma norms_extend (r : Record T R) (e : ℕ → Estimate T) (s : ℕ) :
    (r.extend e s).norms
      = r.norms ++ Array.ofFn fun i : Fin s => (residualNormAt e (i.val + 1) : R) := by
  induction s with
  | zero => simp [extend]
  | succ s ih =>
    rw [extend, norms_push, ih, Array.ofFn_succ, Array.append_push]
    rfl

/-- The best estimate of a record is the one of the best round. -/
lemma extend_best (r : Record T R) (e : ℕ → Estimate T) (s : ℕ) (hx : r.bestX = (e 0).x)
    (hs : r.bestSupport = (e 0).support) (hnorm : r.bestNorm = residualNormAt e 0) :
    (r.extend e s).bestX = (e (bestIndex (residualNormAt (R := R) e) s)).x ∧
      (r.extend e s).bestSupport = (e (bestIndex (residualNormAt (R := R) e) s)).support ∧
      (r.extend e s).bestNorm = residualNormAt e (bestIndex (residualNormAt (R := R) e) s) := by
  induction s with
  | zero => exact ⟨hx, hs, hnorm⟩
  | succ s ih =>
    -- the record and the index make the same comparison
    rw [extend, push, bestIndex, ih.2.2]
    split
    · exact ⟨rfl, rfl, rfl⟩
    · exact ⟨ih.1, ih.2.1, rfl⟩

end Record

/-! ## The loop -/

/-- A sequence with one more term in front. -/
def prepend {α : Type} (a : α) (f : ℕ → α) : ℕ → α
  | 0 => a
  | s + 1 => f s

namespace Problem

variable {p : Problem T} {m : Method R} {c : Convergence R} {i j : ℕ} {res : Recovered T R}

/-- The loop that succeeds from some record goes through a sequence of estimates. It ends by a
rule, because the last round allowed is one that the iteration cap ends. -/
lemma iterate_returns {remaining : ℕ} {r : Record T R} {e₀ : Estimate T} {b : R}
    (hprev : r.previous = Signal.norm e₀.residual) (hpos : 0 < remaining)
    (hcap : r.norms.size + remaining = c.maxIterations)
    (h : (p.iterate m c b remaining r e₀).Returns i res j) :
    ∃ (u : ℕ) (e : ℕ → Estimate T) (q : ℕ → ℕ), u < remaining ∧ e 0 = e₀ ∧ q 0 = i ∧
      q (u + 1) = j ∧
      (∀ s < u + 1, (p.round m (e s)).Returns (q s) (e (s + 1)) (q (s + 1))) ∧
      (∀ s < u, (m.reasonsFrom c b r.norms.size e s).shouldStop = false) ∧
      (m.reasonsFrom c b r.norms.size e u).shouldStop = true ∧
      res = (r.extend e (u + 1)).finish (m.reasonsFrom c b r.norms.size e u) := by
  -- on the rounds that remain; the record and the estimate move along with them
  induction remaining generalizing r e₀ i with
  | zero => omega
  | succ remaining ih =>
    unfold iterate at h
    rcases Solving.returns_bind.1 h with ⟨e', k, hround, h⟩
    dsimp only at h
    rw [hprev] at h
    by_cases hstop : (m.reasons c b (Signal.norm e₀.residual) (r.norms.size + 1) e₀
        e').shouldStop = true
    · -- the run ends here
      rw [if_pos hstop, Solving.returns_pure] at h
      rcases h with ⟨rfl, rfl⟩
      refine ⟨0, prepend e₀ fun _ => e', prepend i fun _ => j, hpos, rfl, rfl, rfl, ?_,
        fun s hs => absurd hs (Nat.not_lt_zero s), ?_, ?_⟩
      · intro s hs
        have hzero : s = 0 := by omega
        rw [hzero]
        exact hround
      · rw [Method.reasonsFrom, Nat.add_zero]
        exact hstop
      · rw [Method.reasonsFrom, Nat.add_zero]
        rfl
    · rw [if_neg hstop] at h
      -- the cap has not been reached, or it would have stopped the run
      have hbelow : ¬ c.maxIterations ≤ r.norms.size + 1 := by
        intro hle
        exact hstop (by simp [Method.reasons, Convergence.check, StopReason.union,
          StopReason.shouldStop, hle])
      have hpos' : 0 < remaining := by omega
      have hcap' : r.norms.size + 1 + remaining = c.maxIterations := by omega
      have hsize : (r.push e' (Signal.norm e'.residual)).norms.size = r.norms.size + 1 := by
        rw [Record.norms_push, Array.size_push]
      rw [← hsize] at hcap'
      obtain ⟨u, e, q, hu, rfl, rfl, hj, hstep, hquiet, hstops, hres⟩ :=
        ih (Record.previous_push _ _ _) hpos' hcap' h
      rw [hsize] at hquiet hstops hres
      -- put the round just made in front
      have hshift (s : ℕ) : m.reasonsFrom c b r.norms.size (prepend e₀ e) (s + 1)
          = m.reasonsFrom c b (r.norms.size + 1) e s := by
        rw [Method.reasonsFrom_succ]
        rfl
      refine ⟨u + 1, prepend e₀ e, prepend i q, Nat.succ_lt_succ hu, rfl, rfl, hj, ?_, ?_, ?_, ?_⟩
      · intro s hs
        rcases s with _ | s
        · exact hround
        · exact hstep s (by omega)
      · intro s hs
        rcases s with _ | s
        · rw [Method.reasonsFrom, Nat.add_zero]
          exact eq_false_of_ne_true hstop
        · rw [hshift]
          exact hquiet s (by omega)
      · rw [hshift]
        exact hstops
      · rw [Record.extend_succ, hshift]
        exact hres

/-- The loop goes through the rounds that it is given, up to the first one that a rule ends. -/
lemma returns_iterate {remaining u : ℕ} {r : Record T R} {b : R} {e : ℕ → Estimate T}
    {q : ℕ → ℕ} (hprev : r.previous = Signal.norm (e 0).residual) (hu : u < remaining)
    (hstep : ∀ s < u + 1, (p.round m (e s)).Returns (q s) (e (s + 1)) (q (s + 1)))
    (hquiet : ∀ s < u, (m.reasonsFrom c b r.norms.size e s).shouldStop = false)
    (hstops : (m.reasonsFrom c b r.norms.size e u).shouldStop = true) :
    (p.iterate m c b remaining r (e 0)).Returns (q 0)
      ((r.extend e (u + 1)).finish (m.reasonsFrom c b r.norms.size e u)) (q (u + 1)) := by
  -- on the rounds before the last; each is taken off in front
  induction u generalizing remaining r e q with
  | zero =>
    obtain ⟨remaining, rfl⟩ : ∃ n, remaining = n + 1 := ⟨remaining - 1, by omega⟩
    rw [iterate, Solving.returns_bind]
    refine ⟨e 1, q 1, hstep 0 (by omega), ?_⟩
    dsimp only
    have hstops' : (m.reasons c b r.previous (r.norms.size + 1) (e 0) (e 1)).shouldStop = true := by
      rw [hprev]
      exact hstops
    rw [if_pos hstops', hprev]
    exact Solving.returns_pure.2 ⟨rfl, rfl⟩
  | succ u ih =>
    obtain ⟨remaining, rfl⟩ : ∃ n, remaining = n + 1 := ⟨remaining - 1, by omega⟩
    have hquiet' :
        (m.reasons c b r.previous (r.norms.size + 1) (e 0) (e 1)).shouldStop = false := by
      rw [hprev]
      exact hquiet 0 u.succ_pos
    have hsize : (r.push (e 1) (Signal.norm (e 1).residual)).norms.size = r.norms.size + 1 := by
      rw [Record.norms_push, Array.size_push]
    have hrest := ih (e := fun s => e (s + 1)) (q := fun s => q (s + 1))
      (Record.previous_push r (e 1) (Signal.norm (e 1).residual)) (show u < remaining by omega)
      (fun s hs => hstep (s + 1) (by omega))
    simp only [hsize, ← Method.reasonsFrom_succ] at hrest
    rw [iterate, Solving.returns_bind]
    refine ⟨e 1, q 1, hstep 0 (by omega), ?_⟩
    dsimp only
    rw [if_neg (ne_true_of_eq_false hquiet'), Record.extend_succ]
    exact hrest (fun s hs => hquiet (s + 1) (by omega)) hstops

/-- The record of a run after `s` rounds. -/
def recordAt (p : Problem T) (e : ℕ → Estimate T) (s : ℕ) : Record T R :=
  (Record.start p.operator.cols (residualNormAt e 0)).extend e s

/-- The record holds the residual norms of the iterations in order. -/
lemma norms_recordAt (p : Problem T) (e : ℕ → Estimate T) (s : ℕ) :
    (p.recordAt e s : Record T R).norms
      = Array.ofFn fun l : Fin s => residualNormAt e (l.val + 1) := by
  rw [recordAt, Record.norms_extend]
  exact Array.empty_append

lemma size_norms_recordAt (p : Problem T) (e : ℕ → Estimate T) (s : ℕ) :
    (p.recordAt e s : Record T R).norms.size = s := by
  rw [norms_recordAt, Array.size_ofFn]

/-- The record holds the estimate at the best index and its residual norm. -/
lemma recordAt_best {e : ℕ → Estimate T} (he : e 0 = p.start) (s : ℕ) :
    (p.recordAt e s).bestX = (e (bestIndex (residualNormAt (R := R) e) s)).x ∧
      (p.recordAt e s).bestSupport = (e (bestIndex (residualNormAt (R := R) e) s)).support ∧
      (p.recordAt e s).bestNorm
        = residualNormAt e (bestIndex (residualNormAt (R := R) e) s) := by
  refine Record.extend_best _ e s ?_ ?_ rfl
  · rw [he]
    rfl
  · rw [he]
    rfl

/-- The iterating part of a recovery is a run within the iteration cap. -/
theorem pursue_returns {alg : Algorithm} {o : Options R} (hcap : 0 < o.maxIterations)
    (h : (p.pursue alg o).Returns i res j) :
    ∃ (m : Method R) (u : ℕ) (e : ℕ → Estimate T) (q : ℕ → ℕ),
      alg.method p.operator o = .ok m ∧ p.Run m o.convergence i u e q ∧ q (u + 1) = j ∧
      u < o.maxIterations ∧
      res = (p.recordAt e (u + 1)).finish (m.reasonsAt o.convergence e u) := by
  unfold pursue at h
  rcases Solving.returns_ofExcept_bind.1 h with ⟨m, hm, hloop⟩
  have hsize : (Record.start p.operator.cols (Signal.norm p.measurement) :
      Record T R).norms.size + o.maxIterations = o.convergence.maxIterations := Nat.zero_add _
  obtain ⟨u, e, q, hu, he, hq, hj, hstep, hquiet, hstops, hres⟩ :=
    iterate_returns rfl hcap hsize hloop
  rw [← residualNormAt_zero he] at hquiet hstops hres
  -- the record starts without norms
  have hreasons (s : ℕ) : m.reasonsFrom o.convergence (residualNormAt e 0)
      (Record.start p.operator.cols (residualNormAt e 0) : Record T R).norms.size e s
      = m.reasonsAt o.convergence e s := Method.reasonsFrom_zero m o.convergence e s
  simp only [hreasons] at hquiet hstops hres
  exact ⟨m, u, e, q, hm, ⟨⟨he, hq, hstep⟩, hquiet, hstops⟩, hj, hu, hres⟩

/-- A run within the iteration cap is what the iterating part of a recovery goes through. -/
theorem Run.returns_pursue {alg : Algorithm} {o : Options R} {u : ℕ} {e : ℕ → Estimate T}
    {q : ℕ → ℕ} (h : p.Run m o.convergence i u e q) (hm : alg.method p.operator o = .ok m)
    (hu : u < o.maxIterations) :
    (p.pursue alg o).Returns i
      ((p.recordAt e (u + 1)).finish (m.reasonsAt o.convergence e u)) (q (u + 1)) := by
  have hnorm := residualNormAt_zero (R := R) h.start
  unfold pursue
  rw [Solving.returns_ofExcept_bind]
  refine ⟨m, hm, ?_⟩
  have hreasons (s : ℕ) : m.reasonsFrom o.convergence (Signal.norm p.measurement)
      (Record.start p.operator.cols (Signal.norm p.measurement) : Record T R).norms.size e s
      = m.reasonsAt o.convergence e s := by
    rw [← hnorm]
    exact Method.reasonsFrom_zero m o.convergence e s
  have hloop := returns_iterate (c := o.convergence) (b := (Signal.norm p.measurement : R))
    (r := Record.start p.operator.cols (Signal.norm p.measurement)) (e := e) hnorm.symm hu h.step
  simp only [hreasons] at hloop
  have hreturns := hloop h.quiet h.stops
  rw [h.start, h.count] at hreturns
  rw [recordAt, hnorm]
  exact hreturns

/-- A recovery is a run if the measurement is not zero and the sparsity lies strictly between zero
and the length of the signal. -/
theorem recover_returns_run [DecimalText R] {alg : Algorithm} {o : Options R}
    (hb : RealLike.isZero (Signal.norm p.measurement : R) = false) (hk : 0 < p.sparsity)
    (hn : p.sparsity < p.operator.cols) (h : (p.recover alg o).Returns i res j) :
    p.check o = .ok () ∧ ∃ (m : Method R) (u : ℕ) (e : ℕ → Estimate T) (q : ℕ → ℕ),
      alg.method p.operator o = .ok m ∧ p.Run m o.convergence i u e q ∧ q (u + 1) = j ∧
      u < o.maxIterations ∧
      res = (p.recordAt e (u + 1)).finish (m.reasonsAt o.convergence e u) := by
  rcases (recover_returns_pursue hb hk hn).1 h with ⟨hcheck, hpursue⟩
  exact ⟨hcheck, pursue_returns (Options.maxIterations_pos (check_eq_ok.1 hcheck).1) hpursue⟩

end Problem

/-! ## A problem in numbers

The theorems on runs are tried on the identity with two coordinates, over exact numbers. -/

/-- At most five iterations with steps of one length; they end early when the residual is zero or
has not dropped. -/
def Options.fixedStep (μ : R) : Options R where
  maxIterations := 5
  tolerance := 0
  stagnation := 0
  step := .fixed μ
  normIterations := 1

/-- The nearest multiple of a unit vector to `(8, 6)`. -/
def Problem.pair : Problem Extended where
  operator := .identity 2
  measurement := #[.finite 8, .finite 6]
  sparsity := 1
  backend := .columnwise

namespace Problem

lemma norm_pair : Signal.norm pair.measurement = Extended.finite 10 := by
  cbv

lemma isZero_norm_pair : RealLike.isZero (Signal.norm pair.measurement) = false := by
  rw [norm_pair]
  decide

/-- A step that is too long: the second iteration is worse than the first. -/
lemma recover_iht_pair :
    (pair.recover .iht (Options.fixedStep (.finite (3 / 2)))).Returns 0
      { x := #[.finite 12, .finite 0], support := #[0], iterations := 2,
        residualNorms := #[.finite 7, .finite 8], residualNorm := .finite 7,
        converged := true, reason := { stagnation := true } } 0 := by
  unfold Solving.Returns
  cbv

/-- The second iteration repeats the first. -/
lemma recover_htp_pair :
    (pair.recover .htp (Options.fixedStep 1)).Returns 0
      { x := #[.finite 8, .finite 0], support := #[0], iterations := 2,
        residualNorms := #[.finite 6, .finite 6], residualNorm := .finite 6, converged := true,
        reason := { stagnation := true, supportStable := true } } 2 := by
  unfold Solving.Returns
  cbv

end Problem
end CompressedSensing
