import Mathlib
import CompressedSensing.Proofs.Recovery.Supports
import CompressedSensing.Proofs.Signal.Restriction
import CompressedSensing.Proofs.Support.Ranking
/-!
# Pruning

A fit on a merged support `W` is pruned by the places of its largest coefficients in `W`. Places in
`W` are ordered like the indices there, so ties are broken alike, and what is kept leads among the
entries on `W` of the dense fit.

Thresholding the dense fit may keep other indices: zeros outside of `W` compete with the zeros on
it, and win if their indices are lower. It never drops an index of `W` for another one of `W`, so
the two supports differ in zeros only, and the signals are the same up to the signs of these.
-/

namespace CompressedSensing

variable {T R : Type} [RealLike R] [Scalar T R]

/-! ## Choosing from a support -/

namespace Problem

variable {x : Signal T} {k n : ℕ} {merged places s : Array ℕ}

omit [RealLike R] [Scalar T R] in
/-- The chosen indices are those at the places. -/
lemma choose_eq_ok (hplaces : Support.Ascending merged.size places) :
    choose merged places = .ok (places.map fun l => merged.getD l 0) :=
  if_pos (Array.all_eq_true'.2 fun l hl => decide_eq_true (hplaces.lt l hl))

omit [RealLike R] [Scalar T R] in
/-- What is chosen from a support is a part of it. -/
lemma mem_of_choose (h : choose merged places = .ok s) {i : ℕ} (hi : i ∈ s) : i ∈ merged := by
  unfold choose at h
  split at h
  · rename_i hall
    cases h
    obtain ⟨l, hl, rfl⟩ := Array.mem_map.1 hi
    have hlt := of_decide_eq_true (Array.all_eq_true'.1 hall l hl)
    simp [hlt]
  · cases h

omit [RealLike R] in
/-- What is kept of the entries at a support is the entries at what is kept of it. -/
lemma gather_valuesAt (hplaces : Support.Ascending merged.size places)
    (h : choose merged places = .ok s) :
    (x.valuesAt merged).gather places = .ok (x.valuesAt s) := by
  rw [choose_eq_ok hplaces, Except.ok.injEq] at h
  rw [Signal.gather_eq (by rw [Signal.size_valuesAt]; exact hplaces.valid), ← h]
  refine congrArg Except.ok (Array.ext (by simp) fun i hi hi' => ?_)
  have hi'' : i < places.size := by simpa using hi
  have hlt := hplaces.lt _ (Array.getElem_mem hi'')
  simp [Signal.valuesAt, hlt]

/-- The places of the largest entries at a support choose an ascending part of it that leads
there. -/
lemma choose_largest [OrderLaws R] (hm : Support.Ascending x.size merged) (k : ℕ) :
    ∃ s, choose merged (Support.largest (x.valuesAt merged) k) = .ok s ∧
      Support.Ascending x.size s ∧ s.size = min k merged.size ∧ (∀ i ∈ s, i ∈ merged) ∧
      Support.Leads x s (· ∈ merged) := by
  have hplaces := Support.largest_ascending (x.valuesAt merged) k
  rw [Signal.size_valuesAt] at hplaces
  have hchoose := choose_eq_ok hplaces
  obtain ⟨hasc, hsize⟩ := choose_ascending hm hplaces hchoose
  rw [Support.size_largest, Signal.size_valuesAt] at hsize
  exact ⟨_, hchoose, hasc, hsize, fun i hi => mem_of_choose hchoose hi,
    Support.leads_map_largest hm k⟩

/-- The largest entries of a signal are selected again from the entries at a support that contains
them. -/
lemma choose_largest_valuesAt [OrderLaws R] (hm : Support.Ascending x.size merged)
    (hsub : ∀ j ∈ Support.largest x k, j ∈ merged) :
    choose merged (Support.largest (x.valuesAt merged) k) = .ok (Support.largest x k) := by
  have hlargest := Support.largest_ascending x k
  obtain ⟨s, hchoose, hasc, hsize, hmem, hleads⟩ := choose_largest hm k
  have hle := hlargest.size_le_of_subset hsub
  have hle' := hm.size_le
  rw [hchoose]
  congr 1
  -- both lead among the merged columns
  refine Support.Leads.eq hasc hlargest ?_ hmem hsub hleads
    ((Support.largest_leads x k).mono fun j hj => hm.lt j hj)
  rw [Support.size_largest] at hle ⊢
  omega

end Problem

/-! ## Signals that differ in zeros -/

/-- Two signals of one length that differ at most in which zeros they have. -/
structure Signal.SameUpToZeros (x y : Signal T) : Prop where
  size_eq : x.size = y.size
  entry (i : ℕ) : x.getD i 0 = y.getD i 0 ∨
    Scalar.isZero (x.getD i 0) = true ∧ Scalar.isZero (y.getD i 0) = true

namespace Support

variable [OrderLaws R] {x : Signal T} {k n : ℕ} {s w : Array ℕ}

/-- Of the largest entries those in `w` are kept by what leads in `w`. -/
lemma Leads.mem_of_mem_largest (hlead : Leads x s (· ∈ w)) (hs : Ascending x.size s)
    (hw : Ascending n w) (hsize : s.size = min k w.size) (hsub : ∀ i ∈ s, i ∈ w) {i : ℕ}
    (hi : i ∈ largest x k) (hiw : i ∈ w) : i ∈ s := by
  by_contra his
  have hlargest := largest_ascending x k
  by_cases hall : ∀ j ∈ s, j ∈ largest x k
  · -- there are fewer of them than were asked for, so they are all of `w`
    have hlt : s.size < (largest x k).size := by
      by_contra hge
      rw [hs.eq_of_subset hlargest (not_lt.1 hge) hall] at his
      exact his hi
    rw [size_largest] at hlt
    rw [hs.eq_of_subset hw (by omega) hsub] at his
    exact his hiw
  · -- one of them would be ranked before and behind this one
    obtain ⟨j, hjs, hj⟩ : ∃ j ∈ s, j ∉ largest x k := by simpa using hall
    have hji := hlead j hjs i hiw his
    have hij := largest_leads x k i hi j (hs.lt j hjs) hj
    obtain rfl : i = j := ranksBefore_antisymm hij hji
    exact his hjs

/-- What leads in `w` and is not among the largest entries gave way to a zero outside of `w`. -/
lemma Leads.isZero_of_notMem_largest [ZeroLaws T R] (hlead : Leads x s (· ∈ w))
    (hs : Ascending x.size s)
    (hw : Ascending x.size w) (hsize : s.size = min k w.size) (hsub : ∀ i ∈ s, i ∈ w)
    (hzero : ∀ l ∉ w, x.getD l 0 = 0) {i : ℕ} (hi : i ∈ s) (hout : i ∉ largest x k)
    (hnum : RealLike.isNaN (Scalar.modulus (x.getD i 0)) = false) :
    Scalar.isZero (x.getD i 0) = true := by
  have hlargest := largest_ascending x k
  -- thresholding keeps no fewer, so there is an index that it keeps instead
  obtain ⟨j, hj, hjs⟩ : ∃ j ∈ largest x k, j ∉ s := by
    by_contra hall
    have hsubset : ∀ j ∈ largest x k, j ∈ s := by simpa using hall
    have hle := hw.size_le
    have hsame := hlargest.eq_of_subset hs (by rw [size_largest]; omega) hsubset
    rw [hsame] at hout
    exact hout hi
  have hjw : j ∉ w := fun hjw => hjs (hlead.mem_of_mem_largest hs hw hsize hsub hj hjw)
  have hprec := largest_leads x k j hj i (hs.lt i hi) hout
  rw [Precedes, hzero j hjw] at hprec
  -- what ranks behind a zero is no larger than zero
  apply ZeroLaws.isZero_of_modulus_le
  cases hnan : RealLike.isNaN (Scalar.modulus (0 : T)) with
  | true =>
    rw [not_ranksBefore_of_isNaN hnan hnum] at hprec
    cases hprec
  | false =>
    rcases (ranksBefore_iff hnan hnum).1 hprec with hlt | ⟨hle, -⟩
    · exact ((OrderLaws.lt_iff _ _).1 hlt).1
    · exact hle

/-- What leads in `w` is what thresholding keeps of a signal that vanishes outside of `w`. -/
theorem Leads.restrict_sameUpToZeros [ZeroLaws T R] (hlead : Leads x s (· ∈ w))
    (hs : Ascending x.size s) (hw : Ascending x.size w) (hsize : s.size = min k w.size)
    (hsub : ∀ i ∈ s, i ∈ w) (hzero : ∀ l ∉ w, x.getD l 0 = 0)
    (hnum : ∀ l ∈ w, RealLike.isNaN (Scalar.modulus (x.getD l 0)) = false) :
    (x.restrict s).SameUpToZeros (x.threshold k) := by
  refine ⟨(Signal.size_restrict x s).trans (Signal.size_restrict x _).symm, fun i => ?_⟩
  rw [Signal.threshold_eq_restrict, Signal.getD_restrict hs.valid,
    Signal.getD_restrict (largest_ascending x k).valid]
  by_cases his : i ∈ s
  · rw [if_pos his]
    by_cases hi : i ∈ largest x k
    · rw [if_pos hi]
      exact .inl rfl
    · rw [if_neg hi]
      exact .inr ⟨hlead.isZero_of_notMem_largest hs hw hsize hsub hzero his hi
        (hnum i (hsub i his)), ZeroLaws.isZero_zero⟩
  · -- an index that only thresholding keeps lies outside of `w`
    rw [if_neg his]
    left
    split
    · rename_i hi
      exact (hzero i fun hiw => his (hlead.mem_of_mem_largest hs hw hsize hsub hi hiw)).symm
    · rfl

end Support

namespace Problem

section

variable [OrderLaws R] [ZeroLaws T R] {p : Problem T} {w : Array ℕ} {z : Signal T}

/-! ## The pruned fit -/

/-- A pruned fit is made of a part of the merged support and the values there, which are those of
the thresholded dense fit up to zeros. -/
lemma prune_eq_estimate (hw : Support.Ascending p.operator.cols w) (hz : z.size = w.size)
    (hnum : ∀ a ∈ z, RealLike.isNaN (Scalar.modulus a) = false) :
    ∃ s v x y, choose w (Support.largest z p.sparsity) = .ok s ∧
      Signal.gather z (Support.largest z p.sparsity) = .ok v ∧
      Signal.embed p.operator.cols s v = .ok x ∧ p.prune w z = p.estimate x s ∧
      Support.Ascending p.operator.cols s ∧ s.size = min p.sparsity w.size ∧ (∀ i ∈ s, i ∈ w) ∧
      Signal.embed p.operator.cols w z = .ok y ∧ x.SameUpToZeros (y.threshold p.sparsity) := by
  obtain ⟨y, hy, hysize⟩ := Signal.embed_ok hw.valid hz
  -- the coefficients are the values of the dense fit on the merged support
  obtain rfl := Signal.eq_valuesAt_of_embed hw.valid hz hy
  have hzero := Signal.embed_supportedOn hw hy
  rw [← hysize] at hw
  obtain ⟨s, hs, hasc, hsize, hsub, hlead⟩ := choose_largest hw p.sparsity
  have hkeep := Support.largest_ascending (y.valuesAt w) p.sparsity
  rw [Signal.size_valuesAt] at hkeep
  have hvalues := gather_valuesAt (x := y) hkeep hs
  have hpruned := Signal.embed_valuesAt hasc.valid
  rw [hysize] at hpruned
  refine ⟨s, _, _, y, hs, hvalues, hpruned, ?_, hysize ▸ hasc, hsize, hsub, hy, ?_⟩
  · unfold prune
    dsimp only
    rw [hs, Except.ok_bind, hvalues, Except.ok_bind, hpruned, Except.ok_bind]
  · exact hlead.restrict_sameUpToZeros hasc hw hsize hsub (fun l hl => hzero.getD_eq_zero hl)
      fun l hl => hnum _ (Array.mem_map_of_mem hl)

/-- A round that prunes ends at the thresholded least-squares solution on its merged support, up to
zeros. -/
lemma cosampRound_sameUpToZeros {e e' : Estimate T} {i j : ℕ} (hb : p.backend.Fits)
    (he : Support.Ascending p.operator.cols e.support) (h : (p.cosampRound e).Returns i e' j) :
    ∃ w y, p.expand (2 * p.sparsity) e = .ok w ∧
      (p.operator.solveDenseOn p.measurement w p.backend).Returns i y j ∧
      ((∀ l ∈ w, RealLike.isNaN (Scalar.modulus (y.getD l 0)) = false) →
        e'.x.SameUpToZeros (y.threshold p.sparsity)) := by
  obtain ⟨w, z, hexpand, hz, hprune⟩ := cosampRound_returns.1 h
  have hw := (expand_ascending he hexpand).1
  have hzsize := size_of_fit hb hz
  obtain ⟨y, hy, -⟩ := Signal.embed_ok hw.valid hzsize
  refine ⟨w, y, hexpand, ?_, fun hnum => ?_⟩
  · exact Solving.returns_bind.2 ⟨z, j, hz, Solving.returns_ofExcept.2 ⟨hy, rfl⟩⟩
  · have hmoduli : ∀ a ∈ z, RealLike.isNaN (Scalar.modulus a) = false := by
      intro a ha
      rw [Signal.eq_valuesAt_of_embed hw.valid hzsize hy] at ha
      obtain ⟨l, hl, rfl⟩ := Array.mem_map.1 ha
      exact hnum l hl
    obtain ⟨s, v, x, y', -, -, -, heq, -, -, -, hy', hsame⟩ := prune_eq_estimate hw hzsize hmoduli
    rw [hy, Except.ok.injEq] at hy'
    rw [heq] at hprune
    rw [(estimate_eq_ok.1 hprune).1, hy']
    exact hsame

end

/-- Pruning by places is thresholding. The places of the `k` largest of the coefficients on a merged
support choose an ascending part of it, and what is written there is the thresholded dense signal up
to zeros. So each estimate of compressive sampling matching pursuit is the thresholded least-squares
solution on its merged support. -/
theorem pruned_sameUpToZeros_threshold [OrderLaws R] [ZeroLaws T R] (p : Problem T) :
    (∀ (w : Array ℕ) (z : Signal T), Support.Ascending p.operator.cols w → z.size = w.size →
      (∀ a ∈ z, RealLike.isNaN (Scalar.modulus a) = false) → p.sparsity ≤ w.size →
      ∃ s v x y, choose w (Support.largest z p.sparsity) = .ok s ∧
        Signal.gather z (Support.largest z p.sparsity) = .ok v ∧
        Signal.embed p.operator.cols s v = .ok x ∧ p.prune w z = p.estimate x s ∧
        Support.Ascending p.operator.cols s ∧ s.size = p.sparsity ∧ (∀ i ∈ s, i ∈ w) ∧
        Signal.embed p.operator.cols w z = .ok y ∧ x.SameUpToZeros (y.threshold p.sparsity)) ∧
    (p.backend.Fits → p.sparsity ≤ p.operator.cols →
      ∀ (i t : ℕ) (e : ℕ → Estimate T) (q : ℕ → ℕ),
        p.Trajectory (.cosamp : Method R) i t e q → ∀ s < t,
          ∃ w y, p.expand (2 * p.sparsity) (e s) = .ok w ∧
            (p.operator.solveDenseOn p.measurement w p.backend).Returns (q s) y (q (s + 1)) ∧
            ((∀ l ∈ w, RealLike.isNaN (Scalar.modulus (y.getD l 0)) = false) →
              (e (s + 1)).x.SameUpToZeros (y.threshold p.sparsity))) := by
  constructor
  · intro w z hw hz hnum hk
    obtain ⟨s, v, x, y, hs, hv, hx, hprune, hasc, hsize, hrest⟩ := prune_eq_estimate hw hz hnum
    rw [min_eq_left hk] at hsize
    exact ⟨s, v, x, y, hs, hv, hx, hprune, hasc, hsize, hrest⟩
  · intro hb hk i t e q htraj s hs
    have hsupp := (htraj.supportedOn hb hk hs.le).1
    exact cosampRound_sameUpToZeros hb hsupp.ascending (htraj.step s hs)

/-- Two of four coordinates are wanted. -/
def quadruple : Problem Extended where
  operator := .identity 4
  measurement := #[.finite 1, .finite 2, .finite 3, .finite 4]
  sparsity := 2
  backend := .columnwise

/-- The first round of compressive sampling matching pursuit on two coordinates. -/
lemma exists_cosamp_pair :
    ∃ (e : ℕ → Estimate Extended) (q : ℕ → ℕ),
      pair.Trajectory (.cosamp : Method Extended) 0 1 e q := by
  refine ⟨fun s => if s = 0 then pair.start
    else ⟨#[.finite 8, .finite 0], #[0], #[.finite 0, .finite 6]⟩, id, rfl, rfl, ?_⟩
  intro s hs
  obtain rfl : s = 0 := by omega
  unfold Solving.Returns
  cbv

/-- Next to one coefficient a zero is kept. Pruning keeps the one at index 1, thresholding the one
at index 0, which is not on the merged support. -/
theorem pruned_sameUpToZeros_threshold_quadruple :
    (∃ s v x y,
      choose #[1, 2, 3] (Support.largest (#[0, .finite (-3), 0] : Signal Extended) 2) = .ok s ∧
        Signal.gather (#[0, .finite (-3), 0] : Signal Extended)
          (Support.largest (#[0, .finite (-3), 0] : Signal Extended) 2) = .ok v ∧
        Signal.embed 4 s v = .ok x ∧
        quadruple.prune #[1, 2, 3] #[0, .finite (-3), 0] = quadruple.estimate x s ∧
        Support.Ascending 4 s ∧ s.size = 2 ∧ (∀ i ∈ s, i ∈ #[1, 2, 3]) ∧
        Signal.embed 4 #[1, 2, 3] #[0, .finite (-3), 0] = .ok y ∧
        x.SameUpToZeros (y.threshold 2)) ∧
    choose #[1, 2, 3] (Support.largest (#[0, .finite (-3), 0] : Signal Extended) 2) = .ok #[1, 2] ∧
    Support.largest (#[0, 0, .finite (-3), 0] : Signal Extended) 2 = #[0, 2] ∧
    ∃ (e : ℕ → Estimate Extended) (q : ℕ → ℕ),
      pair.Trajectory (.cosamp : Method Extended) 0 1 e q ∧
        (pair.operator.solveDenseOn pair.measurement #[0, 1] pair.backend).Returns (q 0)
          #[.finite 8, .finite 6] (q 1) ∧
        (e 1).x.SameUpToZeros (Signal.threshold #[.finite 8, .finite 6] 1) := by
  have hw : Support.Ascending 4 #[1, 2, 3] := ⟨by decide, by decide⟩
  obtain ⟨e, q, htraj⟩ := exists_cosamp_pair
  obtain ⟨w, y, hexpand, hsolve, hsame⟩ := (pruned_sameUpToZeros_threshold pair).2
    Backend.columnwise_fits (by decide) 0 1 e q htraj 0 Nat.zero_lt_one
  -- both columns are merged, and each is fitted by itself
  rw [htraj.start] at hexpand
  obtain rfl : #[0, 1] = w := Except.ok.inj (expand_pair.symm.trans hexpand)
  have hfit : (pair.operator.solveDenseOn pair.measurement #[0, 1] pair.backend).Returns (q 0)
      #[.finite 8, .finite 6] 1 := by
    rw [htraj.count]
    unfold Solving.Returns
    cbv
  obtain rfl := (hfit.inj hsolve).1
  refine ⟨?_, by cbv, by cbv, e, q, htraj, hsolve, hsame (by decide)⟩
  exact (pruned_sameUpToZeros_threshold quadruple).1 #[1, 2, 3] #[0, .finite (-3), 0] hw rfl
    (by decide) (by decide)

end Problem

end CompressedSensing
