import Mathlib
import CompressedSensing.Proofs.Recovery.Progress
import CompressedSensing.Proofs.Recovery.Trajectory
/-!
# When a recovery fails

A recovery fails for two reasons only: something is wrong with what it was given, which is found
before the first request, or the backend refuses a request. So the supports that it fits are
valid and its vectors have the right lengths, in every round and for whatever scores, NaN scores
included: a support error or a broken contract can only be the backend's own.

All that is asked for is an operator that accepts vectors of the right lengths and a backend that
answers with one coefficient per column, if it answers.
-/

namespace CompressedSensing

variable {T R : Type} [RealLike R] [Scalar T R]

namespace Problem

variable {p : Problem T} {alg : Algorithm} {o : Options R} {i j : ℕ} {e : Error}

/-! ## Entry faults -/

/-- What is wrong with the input of a recovery; of several faults it is the first. -/
inductive EntryFault [DecimalText R] (p : Problem T) (o : Options R) : Error → Prop where
  | options {e : Error} (h : o.validate = .error e) : EntryFault p o e
  | length (ho : o.validate = .ok ()) (h : p.measurement.size ≠ p.operator.rows) :
    EntryFault p o (.measurementLength p.measurement.size p.operator.rows)
  | sparsity (ho : o.validate = .ok ()) (hb : p.measurement.size = p.operator.rows)
    (h : p.operator.cols < p.sparsity) :
    EntryFault p o (.sparsityTooLarge p.sparsity p.operator.cols)
  | nonfinite (ho : o.validate = .ok ()) (hb : p.measurement.size = p.operator.rows)
    (hk : p.sparsity ≤ p.operator.cols) (l : ℕ) (hl : l < p.measurement.size)
    (h : Scalar.isFinite p.measurement[l] = false)
    (hfirst : ∀ (l' : ℕ) (_ : l' < l), Scalar.isFinite p.measurement[l'] = true) :
    EntryFault p o (.nonfiniteMeasurement l)

omit [RealLike R] in
/-- The entry reported is the first that is not finite. -/
lemma nonfiniteEntry?_eq_some {l : ℕ} :
    p.nonfiniteEntry? = some l ↔ ∃ hl : l < p.measurement.size,
      Scalar.isFinite p.measurement[l] = false ∧
        ∀ (l' : ℕ) (_ : l' < l), Scalar.isFinite p.measurement[l'] = true := by
  unfold nonfiniteEntry?
  rw [Array.findIdx?_eq_some_iff_getElem]
  simp only [Bool.not_eq_true', Bool.not_eq_false]

variable [DecimalText R]

/-- The entry check reports the fault. -/
lemma EntryFault.check_eq (h : p.EntryFault o e) : p.check o = .error e := by
  unfold check
  cases h with
  | options h =>
    rw [h]
    rfl
  | length ho h =>
    rw [ho, Except.ok_bind, if_pos h]
    rfl
  | sparsity ho hb h =>
    rw [ho, Except.ok_bind, if_neg (not_not.2 hb), if_pos h]
    rfl
  | nonfinite ho hb hk l hl h hfirst =>
    rw [ho, Except.ok_bind, if_neg (not_not.2 hb), if_neg (not_lt.2 hk),
      nonfiniteEntry?_eq_some.2 ⟨hl, h, hfirst⟩]
    rfl

/-- The entry check passes or there is a fault. -/
lemma check_ok_or_entryFault (p : Problem T) (o : Options R) :
    p.check o = .ok () ∨ ∃ e, p.EntryFault o e := by
  cases ho : o.validate with
  | error e => exact .inr ⟨e, .options ho⟩
  | ok =>
    by_cases hb : p.measurement.size = p.operator.rows
    · by_cases hk : p.sparsity ≤ p.operator.cols
      · cases hentry : p.nonfiniteEntry? with
        | none => exact .inl (check_eq_ok.2 ⟨ho, hb, hk, hentry⟩)
        | some l =>
          obtain ⟨hl, h, hfirst⟩ := nonfiniteEntry?_eq_some.1 hentry
          exact .inr ⟨_, .nonfinite ho hb hk l hl h hfirst⟩
      · exact .inr ⟨_, .sparsity ho hb (not_le.1 hk)⟩
    · exact .inr ⟨_, .length ho hb⟩

/-- The entry check passes just if there is no fault. -/
lemma forall_not_entryFault_iff : (∀ e, ¬ p.EntryFault o e) ↔ p.check o = .ok () := by
  constructor
  · intro h
    rcases p.check_ok_or_entryFault o with hcheck | ⟨e, he⟩
    · exact hcheck
    · exact absurd he (h e)
  · intro h e he
    rw [he.check_eq] at h
    cases h

omit [Scalar T R] in
/-- Options are refused as invalid parameters. -/
lemma kind_of_validate_eq_error (h : o.validate = .error e) : e.kind = .invalidParameter := by
  unfold Options.validate at h
  split at h
  · cases h
    rfl
  · split at h
    · cases h
      rfl
    · split at h
      · cases h
        rfl
      · split at h
        · split at h
          · cases h
          · cases h
            rfl
        · cases h

/-- An entry fault is an invalid parameter or a shape mismatch. -/
lemma EntryFault.kind (h : p.EntryFault o e) :
    e.kind = .invalidParameter ∨ e.kind = .shapeMismatch := by
  cases h with
  | options h => exact .inl (kind_of_validate_eq_error h)
  | length => exact .inr rfl
  | sparsity => exact .inr rfl
  | nonfinite => exact .inl rfl

/-! ## After the entry checks -/

omit [DecimalText R] in
/-- The loop succeeds, or it makes a request that is refused. -/
lemma iterate_onlyRefused (m : Method R) (c : Convergence R) (b : R) (remaining : ℕ)
    (r : Record T R) {est : Estimate T} (ha : p.operator.Total)
    (hb : p.measurement.size = p.operator.rows) (hfits : p.backend.Fits)
    (hk : p.sparsity ≤ p.operator.cols) (he : est.x.SupportedOn p.operator.cols est.support)
    (hr : est.residual.size = p.operator.rows) :
    Solving.OnlyRefused (fun backend => (p.withBackend backend).iterate m c b remaining r est)
      p.backend := by
  -- every round leaves an estimate that the next one can start from
  induction remaining generalizing r est with
  | zero => exact .pure _
  | succ remaining ih =>
    refine .bind (round_onlyRefused m ha hb hfits he hr) fun est' i j hround => ?_
    refine .ite (fun _ => rfl) (fun _ => .pure _) fun _ =>
      ih _ (round_supportedOn hfits hk he hround).1 ?_
    exact Operator.size_residual (estimate_eq_ok.1 (round_returns_estimate hround)).2.2

omit [DecimalText R] in
/-- The direct branch fails only where the backend refuses its one request. -/
lemma solveAll_onlyRefused (ha : p.operator.Total) (hb : p.measurement.size = p.operator.rows)
    (hfits : p.backend.Fits) :
    Solving.OnlyRefused (fun backend => ((p.withBackend backend).solveAll :
      Solving (Recovered T R))) p.backend := by
  have hall := Support.Ascending.range p.operator.cols
  refine .bind (fit_onlyRefused ha hb hall.valid) fun x i j hx => ?_
  have hsize := size_of_fit hfits hx
  rw [Array.size_range] at hsize
  obtain ⟨r, hr, -⟩ := ha.residual_ok p.measurement hsize
  exact .bind (.ofExcept hr) fun _ _ _ _ => .pure _

/-- A recovery that passes the entry checks succeeds, or it makes a request that is refused. -/
lemma recover_onlyRefused (ha : p.operator.Total) (hfits : p.backend.Fits)
    (h : p.check o = .ok ()) :
    Solving.OnlyRefused (fun backend => (p.withBackend backend).recover alg o) p.backend := by
  obtain ⟨-, hb, hk, -⟩ := check_eq_ok.1 h
  obtain ⟨m, hm⟩ := alg.method_ok ha o
  refine .bind (.ofExcept h) fun _ _ _ _ => ?_
  refine .ite (fun _ => rfl) (fun _ => .pure _) fun _ => ?_
  refine .ite (fun _ => rfl) (fun _ => .pure _) fun _ => ?_
  refine .ite (fun _ => rfl) (fun _ => solveAll_onlyRefused ha hb hfits) fun _ => ?_
  refine .bind (.ofExcept hm) fun m _ _ _ => ?_
  exact iterate_onlyRefused m _ _ _ _ ha hb hfits hk p.start_supportedOn hb

omit [DecimalText R] in
/-- A loop of gradient steps makes no request. -/
lemma iterate_iht_returns (rule : StepRule R) (c : Convergence R) (b : R) (remaining : ℕ)
    (r : Record T R) {est : Estimate T} (ha : p.operator.Total)
    (hfits : p.backend.Fits) (hk : p.sparsity ≤ p.operator.cols)
    (he : est.x.SupportedOn p.operator.cols est.support)
    (hr : est.residual.size = p.operator.rows) :
    ∃ r', (p.iterate (.iht rule) c b remaining r est).Returns i r' i := by
  induction remaining generalizing r est with
  | zero => exact ⟨_, Solving.returns_pure.2 ⟨rfl, rfl⟩⟩
  | succ remaining ih =>
    -- the step can be written densely, and the residual of what is written exists
    obtain ⟨t, ht, hdense⟩ := gradientStep_ok ha rule he hr
    obtain ⟨est', hest'⟩ := estimate_ok ha (Signal.size_embed hdense) t.indices
    have hround : (p.round (.iht rule) est).Returns i est' i :=
      Solving.returns_ofExcept.2 ⟨ihtRound_eq_ok.2 ⟨t, ht, hest'⟩, rfl⟩
    have he' := (round_supportedOn hfits hk he hround).1
    have hr' := Operator.size_residual (estimate_eq_ok.1 (round_returns_estimate hround)).2.2
    unfold iterate
    simp only [Solving.returns_bind]
    by_cases hstop : ((Method.iht rule).reasons c b r.previous (r.norms.size + 1) est
        est').shouldStop = true
    · exact ⟨_, est', i, hround, by rw [if_pos hstop, Solving.returns_pure]; exact ⟨rfl, rfl⟩⟩
    · obtain ⟨r', hr''⟩ := ih (r.push est' (Signal.norm est'.residual)) he' hr'
      exact ⟨r', est', i, hround, by rw [if_neg hstop]; exact hr''⟩

/-- Some request that the recovery makes is refused with `e`. -/
def Refused (p : Problem T) (alg : Algorithm) (o : Options R) (i : ℕ) (e : Error) : Prop :=
  ∃ c a b, i ≤ c ∧
    Solving.Asks (fun s => (p.withBackend s).recover alg o) p.backend i c a b ∧
    p.backend.solve c a.matrix b = .error e

/-- An entry fault is reported before any request is made. -/
lemma EntryFault.recover_fails {o : Options R} {e : Error} (h : p.EntryFault o e)
    (alg : Algorithm) (i : ℕ) : (p.recover alg o).Fails i e i :=
  .bind_left (Solving.fails_ofExcept.2 ⟨h.check_eq, rfl⟩)

/-- A recovery fails with its entry fault, or else with a refusal. -/
lemma recover_fails_iff_fault_or_refused (ha : p.operator.Total) (hfits : p.backend.Fits)
    (alg : Algorithm) (o : Options R) (i : ℕ) (e : Error) :
    (∃ j, (p.recover alg o).Fails i e j) ↔
      p.EntryFault o e ∨ (∀ e', ¬ p.EntryFault o e') ∧ p.Refused alg o i e := by
  rcases p.check_ok_or_entryFault o with hcheck | ⟨e', he'⟩
  · have hnone := forall_not_entryFault_iff.2 hcheck
    rw [or_iff_right (hnone e), and_iff_right hnone]
    exact (recover_onlyRefused ha hfits hcheck).fails_iff
  · -- there is one fault only, and nothing is asked after it
    constructor
    · rintro ⟨j, hj⟩
      obtain ⟨rfl, -⟩ := hj.inj (he'.recover_fails alg i)
      exact .inl he'
    · rintro (he | ⟨hnone, -⟩)
      · exact ⟨i, he.recover_fails alg i⟩
      · exact absurd he' (hnone e')

/-- Past the entry checks thresholding succeeds without a request, unless all columns are
wanted. -/
lemma recover_iht_returns (ha : p.operator.Total) (hfits : p.backend.Fits) {o : Options R}
    (hk : 0 < p.sparsity) (hn : p.sparsity < p.operator.cols) (hcheck : p.check o = .ok ())
    (i : ℕ) : ∃ r, (p.recover .iht o).Returns i r i := by
  obtain ⟨-, hb, hle, -⟩ := check_eq_ok.1 hcheck
  by_cases hz : RealLike.isZero (Signal.norm p.measurement : R)
  · refine ⟨.direct (Signal.zeros p.operator.cols) #[] (Signal.norm p.measurement) true, ?_⟩
    rw [recover_returns, if_pos hz]
    exact ⟨hcheck, rfl, rfl⟩
  · obtain ⟨m, hm⟩ := Algorithm.iht.method_ok ha o
    -- the method is a loop of gradient steps, whatever rule is resolved
    obtain ⟨rule, hrule, hm'⟩ := Except.bind_eq_ok.1 hm
    cases hm'
    have hstart := p.start_supportedOn
    obtain ⟨r, hr⟩ := iterate_iht_returns (i := i) rule o.convergence
      (Signal.norm p.measurement) o.maxIterations
      (Record.start p.operator.cols (Signal.norm p.measurement)) ha hfits hle hstart hb
    refine ⟨r, (recover_returns_pursue (eq_false_of_ne_true hz) hk hn).2 ⟨hcheck, ?_⟩⟩
    exact Solving.returns_ofExcept_bind.2 ⟨_, hm, hr⟩

/-- The failures of a recovery are the entry faults and, if there is none, the refusals of the
requests that it makes; without either it succeeds. Entry faults come before all requests. A
support error or a broken contract is one that the backend reports. Iterative hard thresholding
makes no request unless all columns are wanted. -/
theorem recover_fails_iff (p : Problem T) (ha : p.operator.Total) (hfits : p.backend.Fits)
    (alg : Algorithm) (o : Options R) (i : ℕ) :
    (∀ e, (∃ j, (p.recover alg o).Fails i e j) ↔
      p.EntryFault o e ∨ (∀ e', ¬ p.EntryFault o e') ∧ p.Refused alg o i e) ∧
    ((∃ r j, (p.recover alg o).Returns i r j) ↔
      (∀ e, ¬ p.EntryFault o e) ∧ ∀ e, ¬ p.Refused alg o i e) ∧
    (∀ e, p.EntryFault o e → (p.recover alg o).Fails i e i ∧
      (e.kind = .invalidParameter ∨ e.kind = .shapeMismatch)) ∧
    (∀ e j, (p.recover alg o).Fails i e j → e.kind ≠ .invalidParameter →
      e.kind ≠ .shapeMismatch → p.Refused alg o i e) ∧
    (alg = .iht → 0 < p.sparsity → p.sparsity < p.operator.cols → (∀ e, ¬ p.EntryFault o e) →
      ∃ r, (p.recover alg o).Returns i r i) := by
  have hfails := recover_fails_iff_fault_or_refused ha hfits alg o i
  refine ⟨hfails, ?_, fun e he => ⟨he.recover_fails alg i, he.kind⟩, ?_, ?_⟩
  · constructor
    · rintro ⟨r, j, hr⟩
      refine ⟨fun e he => hr.not_fails (he.recover_fails alg i), fun e he => ?_⟩
      obtain ⟨c, a, b, -, hasks, hrefuses⟩ := he
      exact hr.not_fails (hasks.fails hrefuses)
    · rintro ⟨hnone, hnever⟩
      rcases (p.recover alg o).returns_or_fails i with h | ⟨e, h⟩
      · exact h
      · -- a computation that does not return fails, and this one has no way to
        rcases (hfails e).1 h with he | ⟨-, he⟩
        · exact absurd he (hnone e)
        · exact absurd he (hnever e)
  · intro e j h hparameter hshape
    -- entry faults are of these two kinds only
    rcases (hfails e).1 ⟨j, h⟩ with he | ⟨-, he⟩
    · exact absurd he.kind (by tauto)
    · exact he
  · rintro rfl hk hn hnone
    exact recover_iht_returns ha hfits hk hn (forall_not_entryFault_iff.1 hnone) i

/-- The pair with a backend that answers nothing. -/
def silentPair : Problem Extended :=
  pair.withBackend (.failingAfter 0 "silent" "no answer" .columnwise)

lemma silentPair_fits : silentPair.backend.Fits := fun _ _ _ _ _ _ h => nomatch h

lemma check_silentPair :
    silentPair.check (Options.fixedStep (1 : Extended)) = .ok () := by
  cbv

lemma recover_silentPair :
    (silentPair.recover .cosamp (Options.fixedStep 1)).Fails 0 (.backend "no answer") 1 := by
  unfold Solving.Fails
  cbv

/-- Without answers matching pursuit fails at its first request; iterative hard thresholding does
not notice. -/
theorem recover_fails_silentPair :
    silentPair.Refused .cosamp (Options.fixedStep 1) 0 (.backend "no answer") ∧
    ∃ r, (silentPair.recover .iht (Options.fixedStep 1)).Returns 0 r 0 := by
  have hnone := forall_not_entryFault_iff.2 check_silentPair
  constructor
  · obtain ⟨hfails, -⟩ := recover_fails_iff silentPair (Operator.identity_total 2)
      silentPair_fits .cosamp (Options.fixedStep 1) 0
    rcases (hfails _).1 ⟨1, recover_silentPair⟩ with he | ⟨-, h⟩
    · exact absurd he (hnone _)
    · exact h
  · obtain ⟨-, -, -, -, hiht⟩ := recover_fails_iff silentPair (Operator.identity_total 2)
      silentPair_fits .iht (Options.fixedStep 1) 0
    exact hiht rfl (by decide) (by decide) hnone

end Problem
end CompressedSensing
