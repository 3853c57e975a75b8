import Mathlib
import CompressedSensing.Proofs.Scalar.Normed
import CompressedSensing.Proofs.Signal.Energy
import CompressedSensing.Proofs.Signal.Restriction
import CompressedSensing.Proofs.Support.Ranking
/-!
# Thresholding is a best approximation

The `k` largest entries of a signal carry at least the energy of any `k` entries, so keeping them
leaves the least error that a signal with `k` nonzero entries can leave.
-/

namespace CompressedSensing

/-- Of the sets that are no larger, none weighs more than one whose elements lead. -/
lemma sum_le_sum_of_lead {ι : Type} [DecidableEq ι] {w : ι → ℝ} (hw : ∀ i, 0 ≤ w i)
    {s t : Finset ι} (hcard : s.card ≤ t.card) (hlead : ∀ i ∈ t, ∀ j ∉ t, w j ≤ w i) :
    ∑ i ∈ s, w i ≤ ∑ i ∈ t, w i := by
  -- what the two sets share does not matter
  have hrest : ∑ i ∈ s \ t, w i ≤ ∑ i ∈ t \ s, w i := by
    rcases (s \ t).eq_empty_or_nonempty with hempty | hne
    · rw [hempty, Finset.sum_empty]
      exact Finset.sum_nonneg fun i _ => hw i
    · obtain ⟨j, hj, hmax⟩ := Finset.exists_max_image (s \ t) w hne
      have hjt : j ∉ t := (Finset.mem_sdiff.1 hj).2
      have hsize : (s \ t).card ≤ (t \ s).card := by
        have hs := Finset.card_sdiff_add_card_inter s t
        have ht := Finset.card_sdiff_add_card_inter t s
        rw [Finset.inter_comm] at ht
        omega
      calc ∑ i ∈ s \ t, w i ≤ (s \ t).card • w j := Finset.sum_le_card_nsmul _ _ _ hmax
        _ ≤ (t \ s).card • w j := nsmul_le_nsmul_left (hw j) hsize
        _ ≤ ∑ i ∈ t \ s, w i := Finset.card_nsmul_le_sum _ _ _ fun i hi =>
            hlead i (Finset.mem_sdiff.1 hi).1 j hjt
  have hs := Finset.sum_inter_add_sum_sdiff s t w
  have ht := Finset.sum_inter_add_sum_sdiff t s w
  rw [Finset.inter_comm] at ht
  linarith

open Reals
open scoped ExactScalar

variable {T : Type} [Scalar T ℝ] {n k : ℕ} {s : Array ℕ}

namespace Support

/-- The coordinates at a support. -/
def coordinates (n : ℕ) (s : Array ℕ) : Finset (Fin n) := {i | i.val ∈ s}

lemma mem_coordinates {i : Fin n} : i ∈ coordinates n s ↔ i.val ∈ s := by
  simp [coordinates]

lemma Ascending.card_coordinates (hs : Ascending n s) : (coordinates n s).card = s.size := by
  have hmap : (coordinates n s).map Fin.valEmbedding = s.toList.toFinset := by
    ext j
    simp only [Finset.mem_map, mem_coordinates, Fin.valEmbedding_apply, List.mem_toFinset,
      Array.mem_toList_iff]
    constructor
    · rintro ⟨i, hi, rfl⟩
      exact hi
    · intro hj
      exact ⟨⟨j, hs.lt j hj⟩, hj, rfl⟩
  rw [← Finset.card_map Fin.valEmbedding, hmap, List.toFinset_card_of_nodup hs.nodup,
    Array.length_toList]

end Support

variable [NormedScalar T]

/-- The larger of two entries is ranked first. -/
lemma Support.Precedes.normSq_le {x : Signal T} {i j : ℕ} (h : Support.Precedes x i j) :
    (Scalar.normSq (x.getD j 0) : ℝ) ≤ Scalar.normSq (x.getD i 0) := by
  rw [← NormedScalar.modulus_le_iff]
  rcases (Support.ranksBefore_iff (R := ℝ) rfl rfl).1 h with hlt | ⟨hle, -⟩
  · exact (of_decide_eq_true hlt).le
  · exact of_decide_eq_true hle

/-- If the largest entries are zero, all entries are. -/
lemma Support.eq_zero_of_largest {x : Signal T} {k : ℕ} (hk : 0 < k)
    (hzero : ∀ l ∈ Support.largest x k, x.getD l 0 = 0) (l : ℕ) : x.getD l 0 = 0 := by
  by_contra hne
  have hl : l < x.size := by
    by_contra hout
    exact hne (by simp [hout])
  by_cases hmem : l ∈ Support.largest x k
  · exact hne (hzero l hmem)
  · -- some entry is ranked before it, and is zero
    have hsize : 0 < (Support.largest x k).size := by
      rw [Support.size_largest]
      omega
    have hfirst := Array.getElem_mem hsize
    have hle := (Support.largest_leads x k _ hfirst l hl hmem).normSq_le
    rw [hzero _ hfirst, NormedScalar.normSq_zero] at hle
    apply hne
    apply EuclideanScalar.eq_zero_of_normSq
    exact le_antisymm hle (EuclideanScalar.normSq_nonneg _)

/-! ## Errors of sparse approximations -/

section

variable {S : Finset (Fin n)} {u v : Fin n → T}

/-- Outside its support an approximation leaves everything. -/
lemma energy_sub_eq (S : Finset (Fin n)) (hv : ∀ i ∉ S, v i = 0) :
    energy (u - v) = ∑ i ∈ S, Scalar.normSq (u i - v i) + ∑ i ∈ Sᶜ, Scalar.normSq (u i) := by
  rw [energy, ← Finset.sum_add_sum_compl S]
  congr 1
  refine Finset.sum_congr rfl fun i hi => ?_
  rw [Pi.sub_apply, hv i (Finset.mem_compl.1 hi), sub_zero]

/-- A vector that is zero off a set misses at least the entries off the set. -/
lemma sum_compl_le_energy_sub (hv : ∀ i ∉ S, v i = 0) :
    ∑ i ∈ Sᶜ, Scalar.normSq (u i) ≤ energy (u - v) := by
  rw [energy_sub_eq S hv]
  exact le_add_of_nonneg_left (Finset.sum_nonneg fun i _ => EuclideanScalar.normSq_nonneg _)

/-- A vector that agrees on the set misses exactly these entries. -/
lemma energy_sub_eq_sum_compl (hv : ∀ i ∉ S, v i = 0) (huv : ∀ i ∈ S, v i = u i) :
    energy (u - v) = ∑ i ∈ Sᶜ, Scalar.normSq (u i) := by
  have hzero : ∑ i ∈ S, (Scalar.normSq (u i - v i) : ℝ) = 0 := by
    refine Finset.sum_eq_zero fun i hi => ?_
    rw [huv i hi, sub_self]
    exact NormedScalar.normSq_zero
  rw [energy_sub_eq S hv, hzero, zero_add]

end

/-- No signal with at most `k` nonzero entries comes closer than the thresholded one. -/
theorem energy_sub_threshold_le_of_card {x : Signal T} {v : Fin n → T} {S : Finset (Fin n)}
    (hx : x.size = n) (hk : S.card ≤ k) (hv : ∀ i ∉ S, v i = 0) :
    energy (Signal.coords n x - Signal.coords n (x.threshold k))
      ≤ energy (Signal.coords n x - v) := by
  have hlargest := Support.largest_ascending x k
  rw [hx] at hlargest
  have hthreshold (i : Fin n) : Signal.coords n (x.threshold k) i
      = if i ∈ Support.coordinates n (Support.largest x k) then Signal.coords n x i else 0 := by
    rw [Signal.threshold_eq_restrict, Signal.coords_restrict hlargest.valid hx]
    simp only [Support.mem_coordinates]
  -- the entries that are kept weigh at least the others
  have hweight := sum_le_sum_of_lead (w := fun i => Scalar.normSq (Signal.coords n x i))
    (fun i => EuclideanScalar.normSq_nonneg _)
    (s := S) (t := Support.coordinates n (Support.largest x k)) ?_ ?_
  · have hleft := Finset.sum_add_sum_compl S
      fun i => (Scalar.normSq (Signal.coords n x i) : ℝ)
    have hkept := Finset.sum_add_sum_compl (Support.coordinates n (Support.largest x k))
      fun i => (Scalar.normSq (Signal.coords n x i) : ℝ)
    have herror := energy_sub_eq_sum_compl (u := Signal.coords n x)
      (v := Signal.coords n (x.threshold k))
      (fun i hi => by rw [hthreshold, if_neg hi]) fun i hi => by rw [hthreshold, if_pos hi]
    have hbound := sum_compl_le_energy_sub (u := Signal.coords n x) hv
    linarith
  · have hn := S.card_le_univ
    rw [Fintype.card_fin] at hn
    rw [hlargest.card_coordinates, Support.size_largest, hx]
    omega
  · intro i hi j hj
    rw [Support.mem_coordinates] at hi hj
    exact (Support.largest_leads x k i hi j (hx ▸ j.isLt) hj).normSq_le

/-- No signal on a support of at most `k` entries comes closer, either. -/
theorem energy_sub_threshold_le {x : Signal T} {v : Fin n → T} (hx : x.size = n)
    (hs : Support.Ascending n s) (hk : s.size ≤ k) (hv : ∀ i : Fin n, i.val ∉ s → v i = 0) :
    energy (Signal.coords n x - Signal.coords n (x.threshold k))
      ≤ energy (Signal.coords n x - v) := by
  refine energy_sub_threshold_le_of_card (S := Support.coordinates n s) hx ?_ fun i hi => ?_
  · rwa [hs.card_coordinates]
  · exact hv i fun hmem => hi (Support.mem_coordinates.2 hmem)

/-- The `k` largest entries are all that are not zero, if there are no more than `k` of these. -/
lemma Support.mem_largest_of_ne_zero {x : Signal T} {S : Finset (Fin n)} (hx : x.size = n)
    (hk : S.card ≤ k) (hS : ∀ i ∉ S, Signal.coords n x i = 0) {l : ℕ} (hl : x.getD l 0 ≠ 0) :
    l ∈ Support.largest x k := by
  subst hx
  by_contra hout
  have hlt : l < x.size := by
    by_contra hge
    exact hl (by simp [hge])
  -- the signal is its own best approximation
  have hle := energy_sub_threshold_le_of_card rfl hk hS
  rw [sub_self, energy_zero] at hle
  have hsame := eq_zero_of_energy (hle.antisymm (energy_nonneg _))
  have hentry := congrFun (sub_eq_zero.1 hsame) ⟨l, hlt⟩
  rw [Signal.threshold_eq_restrict,
    Signal.coords_restrict (Support.largest_ascending x k).valid rfl, if_neg hout] at hentry
  exact hl hentry

/-! ## The number of nonzero entries -/

omit [NormedScalar T] in
/-- No more entries are left than were asked for. -/
lemma Signal.hammingNorm_threshold_le [DecidableEq T] (x : Signal T) (k : ℕ) :
    hammingNorm (Signal.coords x.size (x.threshold k)) ≤ k := by
  have hlargest := Support.largest_ascending x k
  have hkept : ({i | Signal.coords x.size (x.threshold k) i ≠ 0} : Finset (Fin x.size))
      ⊆ Support.coordinates x.size (Support.largest x k) := by
    intro i hi
    rw [Support.mem_coordinates]
    by_contra hout
    refine (Finset.mem_filter.1 hi).2 ?_
    rw [Signal.threshold_eq_restrict, Signal.coords_restrict hlargest.valid rfl, if_neg hout]
  refine (Finset.card_le_card hkept).trans ?_
  rw [hlargest.card_coordinates, Support.size_largest]
  exact min_le_left _ _

/-- Hard thresholding leaves at most `k` nonzero entries, and of all such signals one that is
nearest. -/
theorem Signal.sum_normSq_sub_threshold_le [DecidableEq T] (x : Signal T) (k : ℕ) :
    (x.threshold k).size = x.size ∧ hammingNorm (Signal.coords x.size (x.threshold k)) ≤ k ∧
      ∀ z : Signal T, z.size = x.size → hammingNorm (Signal.coords x.size z) ≤ k →
        ∑ i : Fin x.size, (Scalar.normSq (x.getD i 0 - (x.threshold k).getD i 0) : ℝ)
          ≤ ∑ i : Fin x.size, Scalar.normSq (x.getD i 0 - z.getD i 0) := by
  refine ⟨Signal.size_restrict x _, Signal.hammingNorm_threshold_le x k, fun z hz hcount => ?_⟩
  refine energy_sub_threshold_le_of_card (n := x.size) (v := Signal.coords x.size z) rfl hcount ?_
  intro i hi
  simpa using hi

open Classical in
/-- Two entries of modulus five compete for one place. -/
theorem Signal.sum_normSq_sub_threshold_le_tie :
    let x : Signal (ComplexOver ℝ) := #[⟨3, 4⟩, ⟨0, -5⟩, ⟨1, 1⟩]
    let z : Signal (ComplexOver ℝ) := #[0, ⟨0, -5⟩, 0]
    z.size = x.size ∧ hammingNorm (Signal.coords x.size z) ≤ 1 ∧
      ∑ i : Fin x.size, (Scalar.normSq (x.getD i 0 - (x.threshold 1).getD i 0) : ℝ)
        ≤ ∑ i : Fin x.size, Scalar.normSq (x.getD i 0 - z.getD i 0) := by
  intro x z
  have hcount : hammingNorm (Signal.coords x.size z) ≤ 1 := by
    refine Finset.card_le_one.2 fun i hi j hj => ?_
    have hsecond (l : Fin x.size)
        (hl : l ∈ ({l | Signal.coords x.size z l ≠ 0} : Finset (Fin x.size))) : l = 1 := by
      fin_cases l
      · exact absurd rfl (Finset.mem_filter.1 hl).2
      · rfl
      · exact absurd rfl (Finset.mem_filter.1 hl).2
    rw [hsecond i hi, hsecond j hj]
  exact ⟨rfl, hcount, (Signal.sum_normSq_sub_threshold_le x 1).2.2 z rfl hcount⟩

end CompressedSensing
