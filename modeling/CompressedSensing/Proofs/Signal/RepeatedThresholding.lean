import Mathlib
import CompressedSensing.Proofs.Scalar.Differences
import CompressedSensing.Proofs.Scalar.Normed
import CompressedSensing.Proofs.Signal.Restriction
import CompressedSensing.Proofs.Support.Ranking
/-!
# Thresholding more than once

Thresholding twice is thresholding once, to the smaller of the two sizes. What the first pass
drops comes back as zeros, which compete with the entries that were kept, also with kept zeros.
They do not get ahead: an entry that was ranked behind another one is still behind it when it is
lowered to zero. So what leads in a signal leads in its restriction, and for that nothing has to
be known about ties.

A NaN is ranked last, and as a zero it would move up. The moduli are therefore taken to be numbers,
finite or not.
-/

namespace CompressedSensing

/-- A modulus that is a number is not less than that of zero. -/
class ModulusLaws (T : Type) (R : outParam Type) [RealLike R] [Scalar T R] : Prop where
  modulus_zero_le (z : T) : RealLike.isNaN (Scalar.modulus z) = false →
    RealLike.le (Scalar.modulus (0 : T)) (Scalar.modulus z) = true

/-! ## Instances -/

open Reals in
instance {T : Type} [Scalar T ℝ] [NormedScalar T] : ModulusLaws T ℝ where
  modulus_zero_le z _ := by
    refine decide_eq_true ?_
    rw [NormedScalar.modulus_le_iff, NormedScalar.normSq_zero]
    exact EuclideanScalar.normSq_nonneg z

namespace Extended

instance : ModulusLaws Extended Extended where
  modulus_zero_le z hz := by
    have hzero : RealLike.abs (0 : Extended) = 0 := congrArg finite abs_zero
    show RealLike.le (RealLike.abs (0 : Extended)) (RealLike.abs z) = true
    rw [hzero, zero_le_iff]
    cases z with
    | nan => cases hz
    | infinite s => exact .inl rfl
    | finite q => exact .inr ⟨|q|, abs_nonneg q, rfl⟩

/-- Moduli of complex numbers are infinite if a part is, also beside a NaN, and square roots
elsewhere. -/
instance : ModulusLaws (ComplexOver Extended) Extended where
  modulus_zero_le z hz := by
    have hzero : (Scalar.modulus (0 : ComplexOver Extended) : Extended) = 0 := by
      decide +kernel
    rw [hzero]
    change RealLike.isNaN (ite _ _ _) = false at hz
    change RealLike.le 0 (ite _ _ _) = true
    split at hz
    · rename_i hinfinite
      rw [if_pos hinfinite]
      exact zero_le_iff.2 (.inl rfl)
    · rename_i hfinite
      rw [if_neg hfinite]
      exact DifferenceLaws.zero_le_sqrt _ hz

end Extended

/-! ## Entries that were dropped -/

variable {T R : Type} [RealLike R] [Scalar T R] [OrderLaws R] [ModulusLaws T R] {j k : ℕ}
  {x : Signal T} {s t : Array ℕ}

omit [OrderLaws R] [ModulusLaws T R] in
@[simp] lemma Signal.size_threshold (x : Signal T) (k : ℕ) : (x.threshold k).size = x.size :=
  size_restrict x _

namespace Support

omit [Scalar T R] [ModulusLaws T R] in
/-- What is ranked behind an entry stays behind it when it is lowered. -/
lemma ranksBefore_of_le {i l : ℕ} {a b c : R} (h : ranksBefore (i, a) (l, b) = true)
    (hcb : RealLike.le c b = true) : ranksBefore (i, a) (l, c) = true := by
  have hlower : ranksBefore (l, b) (l, c) = true :=
    (ranksBefore_iff (OrderLaws.isNaN_right _ _ hcb) (OrderLaws.isNaN_left _ _ hcb)).2
      (.inr ⟨hcb, le_rfl⟩)
  exact ranksBefore_trans h hlower

/-- What leads in a signal leads in its restriction to any support around it. -/
lemma Leads.restrict (h : Leads x t (· < x.size)) (hs : Valid x.size s) (hts : ∀ i ∈ t, i ∈ s)
    (hx : ∀ i < x.size, RealLike.isNaN (Scalar.modulus (x.getD i 0)) = false) :
    Leads (x.restrict s) t (· < x.size) := by
  intro i hi l hl hlt
  have hprecedes := h i hi l hl hlt
  unfold Precedes at hprecedes ⊢
  rw [Signal.getD_restrict hs, Signal.getD_restrict hs, if_pos (hts i hi)]
  by_cases hls : l ∈ s
  · rwa [if_pos hls]
  · -- the entry was dropped
    rw [if_neg hls]
    exact ranksBefore_of_le hprecedes (ModulusLaws.modulus_zero_le _ (hx l hl))

/-- Up to `k` largest entries are found again among the `k` that were kept. -/
lemma largest_threshold (hjk : j ≤ k)
    (hx : ∀ i < x.size, RealLike.isNaN (Scalar.modulus (x.getD i 0)) = false) :
    largest (x.threshold k) j = largest x j := by
  have hkept := (largest_leads x j).restrict (largest_ascending x k).valid
    (fun _ => mem_select_of_le hjk) hx
  have hfound := largest_leads (x.threshold k) j
  have hascending := largest_ascending (x.threshold k) j
  rw [Signal.size_threshold] at hfound hascending
  refine Leads.eq hascending (largest_ascending x j) ?_ hascending.lt
    (largest_ascending x j).lt hfound hkept
  rw [size_largest, size_largest, Signal.size_threshold]

end Support

/-! ## Thresholding twice -/

namespace Signal

/-- Thresholding to fewer entries undoes nothing and forgets the first threshold. -/
lemma threshold_threshold_of_le (hjk : j ≤ k)
    (hx : ∀ i < x.size, RealLike.isNaN (Scalar.modulus (x.getD i 0)) = false) :
    (x.threshold k).threshold j = x.threshold j := by
  rw [threshold_eq_restrict (x.threshold k), Support.largest_threshold hjk hx]
  exact restrict_restrict (Support.largest_ascending x k).valid
    (Support.largest_ascending x j).valid fun _ => Support.mem_select_of_le hjk

/-- A larger size keeps all that was kept: the entries it takes beside it are zeros. -/
lemma threshold_threshold_of_ge (hkj : k ≤ j)
    (hx : ∀ i < x.size, RealLike.isNaN (Scalar.modulus (x.getD i 0)) = false) :
    (x.threshold k).threshold j = x.threshold k := by
  have hvalid := (Support.largest_ascending (x.threshold k) j).valid
  rw [size_threshold] at hvalid
  have hkept : ∀ i ∈ Support.largest x k, i ∈ Support.largest (x.threshold k) j := by
    intro i hi
    rw [← Support.largest_threshold le_rfl hx] at hi
    exact Support.mem_select_of_le hkj hi
  exact restrict_restrict_of_subset (Support.largest_ascending x k).valid hvalid hkept

/-- Thresholding again to as many entries keeps the same indices and values. -/
lemma hardThreshold_threshold
    (hx : ∀ i < x.size, RealLike.isNaN (Scalar.modulus (x.getD i 0)) = false) :
    (x.threshold k).hardThreshold k = x.hardThreshold k := by
  have hvalues : (Support.largest x k).map (fun i => (x.threshold k).getD i 0)
      = (Support.largest x k).map fun i => x.getD i 0 := by
    refine Array.map_congr_left fun i hi => ?_
    rw [threshold_eq_restrict, getD_restrict (Support.largest_ascending x k).valid, if_pos hi]
  unfold hardThreshold
  dsimp only
  rw [Support.largest_threshold le_rfl hx, hvalues, size_threshold]

/-- Thresholding to `k` and then to `j` entries is thresholding to the smaller number, whatever ties
there are between the moduli; a second pass of one size changes neither the signal nor the list of
the kept entries. -/
theorem threshold_threshold (j k : ℕ)
    (hx : ∀ i < x.size, RealLike.isNaN (Scalar.modulus (x.getD i 0)) = false) :
    (x.threshold k).threshold j = x.threshold (min j k) ∧
      (x.threshold k).hardThreshold k = x.hardThreshold k ∧
      (x.threshold k).threshold k = x.threshold k := by
  refine ⟨?_, hardThreshold_threshold hx, threshold_threshold_of_le le_rfl hx⟩
  rcases le_total j k with hjk | hkj
  · rw [min_eq_left hjk]
    exact threshold_threshold_of_le hjk hx
  · rw [min_eq_right hkj]
    exact threshold_threshold_of_ge hkj hx

/-- A tie between the kept entries and a zero that is kept beside zeros that are dropped. -/
def tiedSignal : Signal Extended :=
  #[.finite 0, .finite (-3), .infinite true, .finite 3, .finite 0]

/-- The thresholds of a signal with ties agree, indices included. -/
theorem threshold_threshold_tiedSignal :
    (∀ i < tiedSignal.size, RealLike.isNaN (Scalar.modulus (tiedSignal.getD i 0)) = false) ∧
    (tiedSignal.threshold 4).threshold 2 = tiedSignal.threshold 2 ∧
    (tiedSignal.threshold 4).hardThreshold 4 = tiedSignal.hardThreshold 4 := by
  have hx : ∀ i < tiedSignal.size,
      RealLike.isNaN (Scalar.modulus (tiedSignal.getD i 0)) = false := by
    decide +kernel
  obtain ⟨htwice, hagain, -⟩ := threshold_threshold 2 4 hx
  exact ⟨hx, htwice, hagain⟩

end Signal
end CompressedSensing
