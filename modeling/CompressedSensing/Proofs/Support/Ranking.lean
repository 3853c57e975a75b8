import Mathlib
import CompressedSensing.Proofs.Scalar.Ordered
import CompressedSensing.Proofs.Support.Selection
/-!
# What a selection selects

If comparisons are a linear order apart from NaN, the ranking is a linear order of the indices:
numbers before NaN, larger moduli first, lower indices first among equals. A selection of `k`
candidates then leads: each of its entries is ranked before every candidate that is left out.
There is only one ascending support of its size that does.

Ranks are kept when a signal is read at an ascending support, because places in the support are
ordered like the indices there. So what leads among all indices is selected again from any
ascending support that contains it.
-/

namespace CompressedSensing
namespace Support

variable {T R : Type} [RealLike R] [Scalar T R] {n k : ℕ}

/-! ## The ranking -/

section Order

variable [OrderLaws R] {p q r : ℕ × R}

/-- Between numbers the larger one comes first; among equals the lower index does. -/
lemma ranksBefore_iff (hp : RealLike.isNaN p.2 = false) (hq : RealLike.isNaN q.2 = false) :
    ranksBefore p q = true ↔
      RealLike.lt q.2 p.2 = true ∨ RealLike.le q.2 p.2 = true ∧ p.1 ≤ q.1 := by
  have hle : RealLike.lt p.2 q.2 = false ↔ RealLike.le q.2 p.2 = true :=
    ⟨OrderLaws.le_of_not_lt hp hq, OrderLaws.not_lt_of_le⟩
  simp only [ranksBefore, hp, hq, Bool.or_eq_true, Bool.and_eq_true, Bool.not_eq_true',
    decide_eq_true_eq, hle]

omit [OrderLaws R] in
/-- A NaN is ranked behind all numbers. -/
lemma ranksBefore_of_isNaN (hq : RealLike.isNaN q.2 = true) :
    ranksBefore p q = true ↔ RealLike.isNaN p.2 = true → p.1 ≤ q.1 := by
  cases hp : RealLike.isNaN p.2 <;> simp [ranksBefore, hp, hq]

omit [OrderLaws R] in
lemma not_ranksBefore_of_isNaN (hp : RealLike.isNaN p.2 = true)
    (hq : RealLike.isNaN q.2 = false) : ranksBefore p q = false := by
  simp only [ranksBefore, hp, hq]

/-- Any two candidates are ranked. -/
lemma ranksBefore_total (p q : ℕ × R) : ranksBefore p q = true ∨ ranksBefore q p = true := by
  cases hp : RealLike.isNaN p.2 with
  | true =>
    cases hq : RealLike.isNaN q.2 with
    | true =>
      rw [ranksBefore_of_isNaN hq, ranksBefore_of_isNaN hp]
      exact (le_total p.1 q.1).imp (fun h _ => h) fun h _ => h
    | false => exact .inr ((ranksBefore_of_isNaN hp).2 fun h => by rw [hq] at h; cases h)
  | false =>
    cases hq : RealLike.isNaN q.2 with
    | true => exact .inl ((ranksBefore_of_isNaN hq).2 fun h => by rw [hp] at h; cases h)
    | false =>
      rw [ranksBefore_iff hp hq, ranksBefore_iff hq hp]
      by_cases hlt : RealLike.lt q.2 p.2 = true
      · exact .inl (.inl hlt)
      · have hpq := OrderLaws.le_of_not_lt hq hp (eq_false_of_ne_true hlt)
        by_cases hlt' : RealLike.lt p.2 q.2 = true
        · exact .inr (.inl hlt')
        · have hqp := OrderLaws.le_of_not_lt hp hq (eq_false_of_ne_true hlt')
          exact (le_total p.1 q.1).imp (fun h => .inr ⟨hqp, h⟩) fun h => .inr ⟨hpq, h⟩

/-- The ranking is transitive. -/
lemma ranksBefore_trans (hpq : ranksBefore p q = true) (hqr : ranksBefore q r = true) :
    ranksBefore p r = true := by
  cases hr : RealLike.isNaN r.2 with
  | true =>
    rw [ranksBefore_of_isNaN hr] at hqr ⊢
    intro hp
    cases hq : RealLike.isNaN q.2 with
    | true => exact ((ranksBefore_of_isNaN hq).1 hpq hp).trans (hqr hq)
    | false =>
      rw [not_ranksBefore_of_isNaN hp hq] at hpq
      cases hpq
  | false =>
    cases hq : RealLike.isNaN q.2 with
    | true =>
      rw [not_ranksBefore_of_isNaN hq hr] at hqr
      cases hqr
    | false =>
      cases hp : RealLike.isNaN p.2 with
      | true =>
        rw [not_ranksBefore_of_isNaN hp hq] at hpq
        cases hpq
      | false =>
        -- three numbers
        rw [ranksBefore_iff hp hr]
        rw [ranksBefore_iff hp hq] at hpq
        rw [ranksBefore_iff hq hr] at hqr
        rcases hpq with hlt | ⟨hle, hi⟩
        · left
          rcases hqr with hlt' | ⟨hle', -⟩
          · exact OrderLaws.lt_of_lt_of_le hlt' ((OrderLaws.lt_iff _ _).1 hlt).1
          · exact OrderLaws.lt_of_le_of_lt hle' hlt
        · rcases hqr with hlt' | ⟨hle', hi'⟩
          · exact .inl (OrderLaws.lt_of_lt_of_le hlt' hle)
          · exact .inr ⟨OrderLaws.le_trans _ _ _ hle' hle, hi.trans hi'⟩

lemma ranksBefore_antisymm (hpq : ranksBefore p q = true) (hqp : ranksBefore q p = true) :
    p.1 = q.1 := by
  cases hp : RealLike.isNaN p.2 with
  | true =>
    cases hq : RealLike.isNaN q.2 with
    | true =>
      exact le_antisymm ((ranksBefore_of_isNaN hq).1 hpq hp) ((ranksBefore_of_isNaN hp).1 hqp hq)
    | false =>
      rw [not_ranksBefore_of_isNaN hp hq] at hpq
      cases hpq
  | false =>
    cases hq : RealLike.isNaN q.2 with
    | true =>
      rw [not_ranksBefore_of_isNaN hq hp] at hqp
      cases hqp
    | false =>
      -- of two numbers neither can be the larger, so the indices decide both ways
      rw [ranksBefore_iff hp hq] at hpq
      rw [ranksBefore_iff hq hp] at hqp
      rcases hpq with hlt | ⟨hle, hi⟩
      · have hnot := ((OrderLaws.lt_iff _ _).1 hlt).2
        rcases hqp with hlt' | ⟨hle', -⟩
        · rw [((OrderLaws.lt_iff _ _).1 hlt').1] at hnot
          cases hnot
        · rw [hle'] at hnot
          cases hnot
      · rcases hqp with hlt' | ⟨-, hi'⟩
        · have hnot := ((OrderLaws.lt_iff _ _).1 hlt').2
          rw [hle] at hnot
          cases hnot
        · exact le_antisymm hi hi'

end Order

/-- Of the indices a ranking only looks at which is lower. -/
lemma ranksBefore_of_le_imp {i j i' j' : ℕ} {a b : R} (h : ranksBefore (i, a) (j, b) = true)
    (hij : i ≤ j → i' ≤ j') : ranksBefore (i', a) (j', b) = true := by
  unfold ranksBefore at h ⊢
  dsimp only at h ⊢
  cases ha : RealLike.isNaN a with
  | true =>
    cases hb : RealLike.isNaN b with
    | true =>
      rw [ha, hb] at h
      exact decide_eq_true (hij (of_decide_eq_true h))
    | false =>
      rw [ha, hb] at h
      cases h
  | false =>
    cases hb : RealLike.isNaN b with
    | true => rfl
    | false =>
      -- the index decides only if neither modulus is larger
      rw [ha, hb] at h
      simp only [Bool.or_eq_true, Bool.and_eq_true, decide_eq_true_eq] at h ⊢
      exact h.imp_right fun hle => ⟨hle.1, hij hle.2⟩

/-! ## Selections lead -/

/-- Index `i` of a signal is ranked no later than `j`. -/
def Precedes (x : Signal T) (i j : ℕ) : Prop :=
  ranksBefore (i, Scalar.modulus (x.getD i 0)) (j, Scalar.modulus (x.getD j 0)) = true

/-- All entries of `s` are ranked before the other candidates. -/
def Leads (x : Signal T) (s : Array ℕ) (candidate : ℕ → Prop) : Prop :=
  ∀ i ∈ s, ∀ j, candidate j → j ∉ s → Precedes x i j

lemma Leads.mono {x : Signal T} {s : Array ℕ} {candidate candidate' : ℕ → Prop}
    (h : Leads x s candidate) (hsub : ∀ j, candidate' j → candidate j) :
    Leads x s candidate' := fun i hi j hj hjs => h i hi j (hsub j hj) hjs

lemma mem_select {x : Signal T} {candidates : List ℕ} {j : ℕ} :
    j ∈ select x k candidates ↔
      j ∈ (((keyed x candidates).mergeSort ranksBefore).take k).map Prod.fst := by
  rw [select_eq_firstIndices, mem_firstIndices]

/-- Selecting more keeps what is selected. -/
lemma mem_select_of_le {x : Signal T} {candidates : List ℕ} {j l : ℕ} (hkl : k ≤ l)
    (h : j ∈ select x k candidates) : j ∈ select x l candidates := by
  rw [mem_select] at h ⊢
  exact ((List.take_sublist_take_left hkl).map Prod.fst).subset h

/-- Nothing is excluded by the empty support, and selecting more keeps the largest entries. -/
lemma mem_largestExcluding_empty {x : Signal T} {count l : ℕ} (hcount : k ≤ count)
    (hl : l ∈ largest x k) : l ∈ largestExcluding x count #[] := by
  have hall : ((List.range x.size).filter fun i => !contains #[] i) = List.range x.size :=
    List.filter_eq_self.2 fun _ _ => rfl
  rw [largestExcluding, hall]
  exact mem_select_of_le hcount hl

/-- Pairs that are put in front of the others lead. -/
lemma firstIndices_leads {x : Signal T} {candidates : List ℕ} {l : List (ℕ × R)}
    (hl : l.Perm (keyed x candidates))
    (hfront : ∀ p ∈ l.take k, ∀ q ∈ l.drop k, ranksBefore p q = true) :
    Leads x (firstIndices l k) (· ∈ candidates) := by
  intro i hi j hj hjs
  rw [mem_firstIndices] at hi hjs
  obtain ⟨p, hp, rfl⟩ := List.mem_map.1 hi
  -- every candidate is somewhere in the list, with its modulus
  have hp' : p = (p.1, Scalar.modulus (x.getD p.1 0)) := by
    obtain ⟨i, -, rfl⟩ := List.mem_map.1 (hl.subset (List.mem_of_mem_take hp))
    rfl
  have hq : (j, Scalar.modulus (x.getD j 0)) ∈ l := hl.mem_iff.2 (List.mem_map_of_mem hj)
  rw [← List.take_append_drop k l] at hq
  rcases List.mem_append.1 hq with hq | hq
  · exact absurd (List.mem_map_of_mem hq) hjs
  · rw [Precedes, ← hp']
    exact hfront p hp _ hq

section Leading

variable [OrderLaws R] {x : Signal T} {s t : Array ℕ}

/-- A selection is ranked before what it leaves out. -/
theorem select_leads (x : Signal T) (k : ℕ) (candidates : List ℕ) :
    Leads x (select x k candidates) (· ∈ candidates) := by
  refine firstIndices_leads (List.mergeSort_perm _ _) ?_
  have hsorted : ((keyed x candidates).mergeSort ranksBefore).Pairwise
      fun p q => ranksBefore p q = true := by
    have htotal (p q : ℕ × R) : (ranksBefore p q || ranksBefore q p) = true := by
      rw [Bool.or_eq_true]
      exact ranksBefore_total p q
    have htrans (p q r : ℕ × R) : ranksBefore p q = true → ranksBefore q r = true →
        ranksBefore p r = true := ranksBefore_trans
    exact List.pairwise_mergeSort htrans htotal _
  rw [← List.take_append_drop k ((keyed x candidates).mergeSort ranksBefore)] at hsorted
  exact (List.pairwise_append.1 hsorted).2.2

/-- The largest entries lead all the others. -/
theorem largest_leads (x : Signal T) (k : ℕ) : Leads x (largest x k) (· < x.size) :=
  (select_leads x k _).mono fun _ hj => List.mem_range.2 hj

omit [RealLike R] [Scalar T R] [OrderLaws R] in
/-- An ascending support is determined by its entries. -/
lemma Ascending.eq_of_subset {m : ℕ} (hs : Ascending n s) (ht : Ascending m t)
    (hsize : t.size ≤ s.size) (hsub : ∀ j ∈ s, j ∈ t) : s = t := by
  have hperm : s.toList.Perm t.toList := by
    refine (hs.nodup.subperm fun j hj => ?_).perm_of_length_le ?_
    · exact Array.mem_toList_iff.2 (hsub j (Array.mem_toList_iff.1 hj))
    · rwa [Array.length_toList, Array.length_toList]
  exact Array.toList_inj.1 (hperm.eq_of_pairwise
    (fun _ _ _ _ h h' => absurd h (not_lt_of_gt h')) hs.sorted ht.sorted)

/-- Among supports of one size only one leads. -/
theorem Leads.eq {candidate : ℕ → Prop} (hs : Ascending n s) (ht : Ascending n t)
    (hsize : s.size = t.size) (hsc : ∀ j ∈ s, candidate j) (htc : ∀ j ∈ t, candidate j)
    (hsl : Leads x s candidate) (htl : Leads x t candidate) : s = t := by
  by_cases hsub : ∀ j ∈ s, j ∈ t
  · exact hs.eq_of_subset ht hsize.ge hsub
  · by_cases hsub' : ∀ j ∈ t, j ∈ s
    · exact (ht.eq_of_subset hs hsize.le hsub').symm
    · -- each has an entry that the other one leaves out
      simp only [not_forall] at hsub hsub'
      obtain ⟨i, his, hit⟩ := hsub
      obtain ⟨j, hjt, hjs⟩ := hsub'
      have hij := hsl i his j (htc j hjt) hjs
      have hji := htl j hjt i (hsc i his) hit
      obtain rfl : i = j := ranksBefore_antisymm hij hji
      exact absurd hjt hit

/-- Ranks are kept when a signal is read at an ascending support. -/
theorem leads_map_largest (hs : Ascending x.size s) (k : ℕ) :
    Leads x ((largest (s.map fun i => x.getD i 0) k).map fun l => s.getD l 0) (· ∈ s) := by
  intro i hi j hj hjs
  obtain ⟨l, hl, rfl⟩ := Array.mem_map.1 hi
  obtain ⟨l', hl', rfl⟩ := Array.mem_iff_getElem.1 hj
  have hls : l < s.size := by
    have h := (largest_ascending _ _).lt l hl
    rwa [Array.size_map] at h
  have hleft : l' ∉ largest (s.map fun i => x.getD i 0) k := by
    intro hmem
    refine hjs (Array.mem_map.2 ⟨l', hmem, ?_⟩)
    simp [hl']
  -- the place `l` comes before the place `l'`, and both hold what `x` has there
  have hprec := largest_leads (s.map fun i => x.getD i 0) k l hl l' (by simpa using hl') hleft
  simp only [Precedes, Array.getD_eq_getD_getElem?, Array.getElem?_map,
    Array.getElem?_eq_getElem hls, Array.getElem?_eq_getElem hl', Option.map_some,
    Option.getD_some] at hprec ⊢
  refine ranksBefore_of_le_imp hprec fun hle => ?_
  rcases hle.eq_or_lt with rfl | hlt
  · exact le_rfl
  · exact (hs.getElem_lt_getElem hlt hl').le

end Leading

end Support
end CompressedSensing
