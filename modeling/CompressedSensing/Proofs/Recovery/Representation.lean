import Mathlib
import CompressedSensing.Proofs.Operator.Agreement
import CompressedSensing.Proofs.Recovery.Trajectory
/-!
# Recovery knows an operator by its maps

A recovery applies the maps of its operator to vectors of the right lengths only: the estimate has
one entry per column and the residual one per row, in every round. So operators that agree are
recovered from in the same way, with the same requests, by every algorithm and any backend. Over
exact scalars a constructed operator agrees with the dense operator of its matrix.
-/

namespace CompressedSensing

variable {T R : Type} [RealLike R] [Scalar T R]

/-! ## Gradient steps -/

namespace GradientStep

variable {a a' : Operator T} {x g : Signal T} {s : Array ℕ} {k : ℕ}

/-- The halvings of a step see the operator only through its images. -/
lemma backtrack_congr (h : a.Agrees a') (hx : x.size = a.cols) (hg : g.size = a.cols)
    (halvings : ℕ) (μ : R) {next : Thresholded T} (hnext : next.toDense.size = a.cols) :
    backtrack a' x g k s halvings μ next = backtrack a x g k s halvings μ next := by
  induction halvings generalizing μ next with
  | zero => rfl
  | succ halvings ih =>
    have hmove : (Array.zipWith (· - ·) next.toDense x).size = a.cols := by
      rw [Array.size_zipWith, hnext, hx, min_self]
    have hlater (μ : R) : (take x g μ k).toDense.size = a.cols := by
      rw [size_toDense_take, hx, hg, min_self]
    unfold backtrack
    dsimp only
    rw [h.apply_eq _ hmove]
    simp only [ih _ (hlater _)]

lemma fittedStep_congr (h : a.Agrees a') (s : Array ℕ) (g : Signal T) :
    (fittedStep a' a.cols s g : Except Error R) = fittedStep a a.cols s g := by
  unfold fittedStep
  refine Except.bind_congr fun v _ => Except.bind_congr fun gs hgs => ?_
  dsimp only
  rw [h.apply_eq gs (Signal.size_embed hgs)]

/-- A gradient step sees the operator only through its images. -/
lemma advance_congr (rule : StepRule R) (h : a.Agrees a') (hx : x.size = a.cols)
    (hg : g.size = a.cols) (s : Array ℕ) (k : ℕ) :
    advance rule a' x s g k = advance rule a x s g k := by
  cases rule with
  | constant μ => rfl
  | normalized =>
    unfold advance normalized
    dsimp only
    rw [hx, fittedStep_congr h]
    congr 1
    refine Except.bind_congr fun μ _ => backtrack_congr h hx hg _ μ ?_
    rw [size_toDense_take, hx, hg, min_self]

/-- A step rule needs an operator for the estimate of its norm only. -/
lemma resolve_congr (o : Options R)
    (h : (a'.normEstimate o.normIterations : Except Error R) = a.normEstimate o.normIterations) :
    resolve a' o = resolve a o := by
  unfold resolve
  rw [h]

end GradientStep

/-- The method depends on the operator through its norm estimate only. -/
lemma Algorithm.method_congr_operator (alg : Algorithm) {a a' : Operator T} {o : Options R}
    (h : (a'.normEstimate o.normIterations : Except Error R) = a.normEstimate o.normIterations) :
    alg.method a' o = alg.method a o := by
  unfold method
  rw [GradientStep.resolve_congr o h]

namespace Problem

variable {p : Problem T} {a : Operator T} {e e' : Estimate T} {i j : ℕ}

/-- The same problem with another operator. -/
def withOperator (p : Problem T) (a : Operator T) : Problem T := { p with operator := a }

/-! ## Rounds -/

omit [RealLike R] in
/-- Operators that agree ask the backend for the same fit. -/
lemma fit_congr (h : p.operator.Agrees a) (s : Array ℕ) : (p.withOperator a).fit s = p.fit s :=
  h.solveOn_eq p.measurement s p.backend

omit [RealLike R] in
lemma estimate_congr (h : p.operator.Agrees a) {x : Signal T} (hx : x.size = p.operator.cols)
    (s : Array ℕ) : (p.withOperator a).estimate x s = p.estimate x s := by
  show a.residual p.measurement x >>= _ = p.operator.residual p.measurement x >>= _
  rw [h.residual_eq p.measurement hx]

omit [RealLike R] in
/-- Embedding makes the length right. -/
lemma embed_estimate_congr (h : p.operator.Agrees a) (s : Array ℕ) (z : Signal T) :
    (Signal.embed a.cols s z >>= fun x => (p.withOperator a).estimate x s)
      = Signal.embed p.operator.cols s z >>= fun x => p.estimate x s := by
  rw [h.cols_eq]
  exact Except.bind_congr fun x hx => estimate_congr h (Signal.size_embed hx) s

lemma gradientStep_congr (h : p.operator.Agrees a) (rule : StepRule R)
    (hx : e.x.size = p.operator.cols) (hr : e.residual.size = p.operator.rows) :
    (p.withOperator a).gradientStep rule e = p.gradientStep rule e := by
  show (a.applyAdjoint e.residual >>= fun g =>
    GradientStep.advance rule a e.x e.support g p.sparsity) = _
  rw [h.applyAdjoint_eq _ hr]
  exact Except.bind_congr fun g hg =>
    GradientStep.advance_congr rule h hx (Operator.size_applyAdjoint hg) _ _

lemma expand_congr (h : p.operator.Agrees a) (count : ℕ)
    (hr : e.residual.size = p.operator.rows) :
    (p.withOperator a).expand count e = p.expand count e := by
  show (a.applyAdjoint e.residual >>= fun proxy => _) = _
  rw [h.applyAdjoint_eq _ hr]
  unfold expand
  simp only [withOperator, h.cols_eq]

lemma prune_congr (h : p.operator.Agrees a) (merged : Array ℕ) (z : Signal T) :
    (p.withOperator a).prune merged z = p.prune merged z :=
  Except.bind_congr fun s _ => Except.bind_congr fun v _ => embed_estimate_congr h s v

lemma refit_congr (h : p.operator.Agrees a) (merged : Array ℕ) :
    (p.withOperator a).refit merged = p.refit merged := by
  unfold refit
  simp only [fit_congr h]
  rfl

/-- A round from vectors of the right lengths does not tell agreeing operators apart. -/
theorem round_congr (m : Method R) (h : p.operator.Agrees a) (hx : e.x.size = p.operator.cols)
    (hr : e.residual.size = p.operator.rows) :
    (p.withOperator a).round m e = p.round m e := by
  cases m with
  | iht rule =>
    show Solving.ofExcept ((p.withOperator a).gradientStep rule e >>= fun t => _) = _
    rw [gradientStep_congr h rule hx hr]
    refine congrArg Solving.ofExcept (Except.bind_congr fun t ht => estimate_congr h ?_ _)
    -- the estimate is not embedded here, so its length comes from the step
    obtain ⟨y, hy, rfl⟩ := gradientStep_eq_hardThreshold hx ht
    exact hy ▸ (Signal.hardThreshold_supportedOn y p.sparsity).size_eq
  | htp rule =>
    show (Solving.ofExcept ((p.withOperator a).gradientStep rule e) >>= fun t => _) = _
    rw [gradientStep_congr h rule hx hr]
    refine Solving.bind_congr fun i t j _ => ?_
    dsimp only
    rw [fit_congr h]
    exact Solving.bind_congr fun i z j _ =>
      congrArg Solving.ofExcept (embed_estimate_congr h t.indices z)
  | cosamp =>
    show (Solving.ofExcept ((p.withOperator a).expand _ e) >>= fun merged => _) = _
    rw [expand_congr h _ hr]
    refine Solving.bind_congr fun i merged j _ => ?_
    rw [fit_congr h]
    exact Solving.bind_congr fun i z j _ => congrArg Solving.ofExcept (prune_congr h merged z)
  | subspacePursuit =>
    show (Solving.ofExcept ((p.withOperator a).expand _ e) >>= fun merged => _) = _
    rw [expand_congr h _ hr]
    refine Solving.bind_congr fun i merged j _ => ?_
    dsimp only
    rw [refit_congr h]
    exact Solving.bind_congr fun i fitted j _ =>
      congrArg Solving.ofExcept (embed_estimate_congr h fitted.1 fitted.2)

/-- A round leaves vectors of the right lengths. -/
lemma size_of_round {m : Method R} (hx : e.x.size = p.operator.cols)
    (h : (p.round m e).Returns i e' j) :
    e'.x.size = p.operator.cols ∧ e'.residual.size = p.operator.rows := by
  refine ⟨?_, Operator.size_residual (estimate_eq_ok.1 (round_returns_estimate h)).2.2⟩
  cases m with
  | iht rule =>
    rcases Solving.returns_ofExcept.1 h with ⟨h, -⟩
    rcases ihtRound_eq_ok.1 h with ⟨t, ht, h⟩
    obtain ⟨y, hy, rfl⟩ := gradientStep_eq_hardThreshold hx ht
    rw [(estimate_eq_ok.1 h).1, (Signal.hardThreshold_supportedOn y p.sparsity).size_eq, hy]
  | htp rule =>
    rcases htpRound_returns.1 h with ⟨t, z, x, -, -, hembed, h⟩
    rw [(estimate_eq_ok.1 h).1, Signal.size_embed hembed]
  | cosamp =>
    rcases cosampRound_returns.1 h with ⟨merged, z, -, -, h⟩
    rcases prune_eq_ok.1 h with ⟨s, v, x, -, -, hembed, h⟩
    rw [(estimate_eq_ok.1 h).1, Signal.size_embed hembed]
  | subspacePursuit =>
    rcases subspacePursuitRound_returns.1 h with ⟨merged, s, z, x, -, -, hembed, h⟩
    rw [(estimate_eq_ok.1 h).1, Signal.size_embed hembed]

/-- The vectors of a trajectory have the right lengths throughout. -/
lemma Trajectory.sizes {m : Method R} {t : ℕ} {e : ℕ → Estimate T} {q : ℕ → ℕ}
    (h : p.Trajectory m i t e q) (hb : p.measurement.size = p.operator.rows) {s : ℕ}
    (hs : s ≤ t) :
    (e s).x.size = p.operator.cols ∧ (e s).residual.size = p.operator.rows := by
  induction s with
  | zero =>
    rw [h.start]
    exact ⟨p.start_supportedOn.size_eq, hb⟩
  | succ s ih => exact size_of_round (ih (by omega)).1 (h.step s (by omega))

/-- The estimates of a run of gradient steps have ascending supports, which have `k` entries from
the first round on. -/
lemma Trajectory.step_supportedOn {m : Method R} {rule : StepRule R}
    (hm : m = .iht rule ∨ m = .htp rule) {t : ℕ} {e : ℕ → Estimate T} {q : ℕ → ℕ}
    (h : p.Trajectory m i t e q) (hb : p.measurement.size = p.operator.rows)
    (hk : p.sparsity ≤ p.operator.cols) {s : ℕ} (hs : s ≤ t) :
    (e s).x.SupportedOn p.operator.cols (e s).support ∧ (e s).support.size ≤ p.sparsity ∧
      (0 < s → (e s).support.size = p.sparsity) := by
  rcases s with _ | s
  · rw [h.start]
    exact ⟨p.start_supportedOn, Nat.zero_le _, fun hpos => absurd hpos (lt_irrefl 0)⟩
  · have hsize := (h.sizes hb (show s ≤ t by omega)).1
    obtain ⟨hsupp, hcard⟩ := stepRound_supportedOn hm hk hsize (h.step s (by omega))
    exact ⟨hsupp, hcard.le, fun _ => hcard⟩

/-! ## Recoveries -/

/-- The loop runs the same way for operators that agree. -/
lemma iterate_congr (m : Method R) (c : Convergence R) (b : R) (remaining : ℕ) (r : Record T R)
    (h : p.operator.Agrees a) (hx : e.x.size = p.operator.cols)
    (hr : e.residual.size = p.operator.rows) :
    (p.withOperator a).iterate m c b remaining r e = p.iterate m c b remaining r e := by
  -- the lengths are right again after every round
  induction remaining generalizing r e with
  | zero => rfl
  | succ remaining ih =>
    unfold iterate
    rw [round_congr m h hx hr]
    refine Solving.bind_congr fun i e' j hround => ?_
    obtain ⟨hx', hr'⟩ := size_of_round hx hround
    dsimp only
    rw [ih _ hx' hr']

/-- The solution on all columns has the right length if the backend answers with one coefficient
per column. -/
lemma solveAll_congr (h : p.operator.Agrees a) (hfits : p.backend.Fits) :
    ((p.withOperator a).solveAll : Solving (Recovered T R)) = p.solveAll := by
  show (p.withOperator a).fit (Array.range a.cols) >>= (fun x =>
    Solving.ofExcept (a.residual p.measurement x) >>= fun r =>
      pure { Recovered.direct x (Array.range a.cols) (Signal.norm r) true with
        iterations := 1, residualNorms := #[Signal.norm r] }) = _
  rw [h.cols_eq, fit_congr h]
  refine Solving.bind_congr fun i x j hx => ?_
  have hsize := size_of_fit hfits hx
  rw [Array.size_range] at hsize
  rw [h.residual_eq _ hsize]

/-- The pursuit runs the same way for operators that agree. -/
lemma pursue_congr (alg : Algorithm) (o : Options R) (h : p.operator.Agrees a)
    (hb : p.measurement.size = p.operator.rows) :
    (p.withOperator a).pursue alg o = p.pursue alg o := by
  show Solving.ofExcept (alg.method a o) >>= (fun m =>
    (p.withOperator a).iterate m o.convergence (Signal.norm p.measurement) o.maxIterations
      (Record.start a.cols (Signal.norm p.measurement))
      ⟨Signal.zeros a.cols, #[], p.measurement⟩) = _
  rw [alg.method_congr_operator (h.normEstimate_eq _), h.cols_eq]
  refine Solving.bind_congr fun i m j _ => ?_
  exact iterate_congr m _ _ _ _ h p.start_supportedOn.size_eq hb

/-- Operators that agree are recovered from in the same way. Only the solution on all columns,
which is not embedded, needs the backend to answer with one coefficient per column. -/
theorem recover_congr [DecimalText R] (alg : Algorithm) (o : Options R)
    (h : p.operator.Agrees a) (hfits : p.sparsity = p.operator.cols → p.backend.Fits) :
    (p.withOperator a).recover alg o = p.recover alg o := by
  have hcheck : (p.withOperator a).check o = p.check o := by
    unfold check
    simp only [withOperator, h.rows_eq, h.cols_eq]
    rfl
  unfold recover
  rw [hcheck]
  refine Solving.bind_congr fun i _ j hc => ?_
  have hb := (check_eq_ok.1 (Solving.returns_ofExcept.1 hc).1).2.1
  show (if RealLike.isZero (Signal.norm p.measurement : R) then
      pure (Recovered.direct (Signal.zeros a.cols) #[] (Signal.norm p.measurement) true)
    else if p.sparsity = 0 then
      pure (Recovered.direct (Signal.zeros a.cols) #[] (Signal.norm p.measurement)
        (RealLike.le (Signal.norm p.measurement) o.tolerance))
    else if p.sparsity = a.cols then (p.withOperator a).solveAll
    else (p.withOperator a).pursue alg o) = _
  rw [h.cols_eq, pursue_congr alg o h hb]
  by_cases hn : p.sparsity = p.operator.cols
  · rw [solveAll_congr h (hfits hn)]
  · rw [if_neg hn]
    dsimp only
    rw [if_neg hn]

end Problem

/-! ## The dense operator of a constructed one -/

open scoped ExactScalar

variable {W : Type} [Trigonometric W] [Precision R W] [ExactScalar T]

/-- A constructed operator has a matrix, and the dense operator of this matrix has the same maps.
Every algorithm recovers the same from either, or fails in the same way, for any measurement,
sparsity and options, and with any backend. Where all columns are fitted the backend has to
answer with one coefficient per column. -/
theorem Operator.Constructed.recover_dense [DecimalText R] {a : Operator T}
    (ha : a.Constructed (W := W)) :
    ∃ M : DenseMatrix T a.rows a.cols, a.toMatrix = .ok M ∧
      (∀ (x : Signal T) (y : Vector T a.rows), x.size = a.cols →
        ∃ v, a.times x y = .ok v ∧ (Operator.dense M).times x y = .ok v) ∧
      (∀ (y : Signal T) (x : Vector T a.cols), y.size = a.rows →
        ∃ v, a.trans y x = .ok v ∧ (Operator.dense M).trans y x = .ok v) ∧
      ∀ (b : Signal T) (k : ℕ) (s : Backend T), (k = a.cols → s.Fits) →
        ∀ (alg : Algorithm) (o : Options R),
          (⟨Operator.dense M, b, k, s⟩ : Problem T).recover alg o
            = (⟨a, b, k, s⟩ : Problem T).recover alg o := by
  obtain ⟨M, hM⟩ := ha.exists_hasMatrix
  have hdense := Operator.hasMatrix_dense_ofFn M
  refine ⟨DenseMatrix.ofFn M, Operator.toMatrix_eq_of_apply hM.apply_eq, ?_, ?_, ?_⟩
  · intro x y hx
    exact ⟨_, hM.times_eq x y hx, hdense.times_eq x y hx⟩
  · intro y x hy
    exact ⟨_, hM.trans_eq y x hy, hdense.trans_eq y x hy⟩
  · intro b k s hfits alg o
    exact Problem.recover_congr (p := ⟨a, b, k, s⟩) alg o
      (hM.hasImages.agrees hdense.hasImages) hfits

open scoped Reals in
/-- Both for one column of four and for all of them. -/
theorem Operator.recover_dense_turnedRow :
    turnedRow.Constructed (W := ℝ) ∧
    ∃ M : DenseMatrix (ComplexOver ℝ) 1 4, turnedRow.toMatrix = .ok M ∧
      (∃ v, turnedRow.times #[⟨1, 2⟩, ⟨0, 1⟩, ⟨3, 0⟩, ⟨1, 1⟩] (Vector.replicate 1 0) = .ok v ∧
        (Operator.dense M).times #[⟨1, 2⟩, ⟨0, 1⟩, ⟨3, 0⟩, ⟨1, 1⟩] (Vector.replicate 1 0) = .ok v) ∧
      (∃ v, turnedRow.trans #[⟨2, -1⟩] (Vector.replicate 4 1) = .ok v ∧
        (Operator.dense M).trans #[⟨2, -1⟩] (Vector.replicate 4 1) = .ok v) ∧
      (⟨Operator.dense M, #[⟨2, -1⟩], 1, .columnwise⟩ : Problem (ComplexOver ℝ)).recover .iht
          Options.standard
        = (⟨turnedRow, #[⟨2, -1⟩], 1, .columnwise⟩ : Problem (ComplexOver ℝ)).recover .iht
          Options.standard ∧
      (⟨Operator.dense M, #[⟨2, -1⟩], 4, .columnwise⟩ : Problem (ComplexOver ℝ)).recover .cosamp
          Options.standard
        = (⟨turnedRow, #[⟨2, -1⟩], 4, .columnwise⟩ : Problem (ComplexOver ℝ)).recover .cosamp
          Options.standard := by
  refine ⟨constructed_turnedRow, ?_⟩
  obtain ⟨M, hM, htimes, htrans, hrecover⟩ := constructed_turnedRow.recover_dense
  have hfour (h : (1 : ℕ) = 4) : Backend.Fits (T := ComplexOver ℝ) .columnwise := by omega
  exact ⟨M, hM, htimes _ _ rfl, htrans _ _ rfl,
    hrecover _ 1 .columnwise hfour .iht Options.standard,
    hrecover _ 4 .columnwise (fun _ => Backend.columnwise_fits) .cosamp Options.standard⟩

end CompressedSensing
