import Mathlib
import CompressedSensing.Proofs.Scalar.Extended
import CompressedSensing.Proofs.Support.Ranking
/-!
# The largest entries

`IsLargest x k excluded s` says what the `k` largest entries of a signal outside a list are, without
a ranking function and without a sort: `s` is ascending, it holds as many candidates as it can up to
`k`, and each of them is ahead of every candidate that is left out. Numbers are ahead of NaN, larger
moduli of smaller ones, and lower indices decide between equals.

If comparisons are a linear order apart from NaN, this determines `s`, so it does not matter how the
candidates are rearranged before the first `k` of them are taken. They can be sorted. They can as
well be partitioned around place `k - 1`, which leaves an arbitrary order on both sides of it.
-/

namespace CompressedSensing

/-! ## Partial sorts -/

/-- A comparison that is total and transitive. Ties are allowed. -/
structure Ranks {α : Type} (le : α → α → Bool) : Prop where
  total (p q : α) : le p q = true ∨ le q p = true
  trans (p q r : α) : le p q = true → le q r = true → le p r = true

/-- Rearranges lists around a place: what stands before it ranks no later than its entry, what
stands behind it no earlier. Nothing is promised of the order on either side, or of comparisons
that do not rank. -/
structure PartialSort where
  arrange {α : Type} (le : α → α → Bool) (place : ℕ) (l : List α) : List α
  perm {α : Type} {le : α → α → Bool} (hle : Ranks le) {place : ℕ} {l : List α}
    (h : place < l.length) : (arrange le place l).Perm l
  before {α : Type} {le : α → α → Bool} (hle : Ranks le) {place : ℕ} {l : List α}
    (h : place < l.length) (p q : α) : p ∈ (arrange le place l).take place →
      (arrange le place l)[place]? = some q → le p q = true
  behind {α : Type} {le : α → α → Bool} (hle : Ranks le) {place : ℕ} {l : List α}
    (h : place < l.length) (q r : α) : (arrange le place l)[place]? = some q →
      r ∈ (arrange le place l).drop (place + 1) → le q r = true

namespace PartialSort

variable {α : Type} {le : α → α → Bool} {place : ℕ} {l : List α}

/-- Up to the place and with it, nothing ranks behind what comes later. -/
lemma front (sort : PartialSort) (hle : Ranks le) (h : place < l.length) {p r : α}
    (hp : p ∈ (sort.arrange le place l).take (place + 1))
    (hr : r ∈ (sort.arrange le place l).drop (place + 1)) : le p r = true := by
  have hplace : place < (sort.arrange le place l).length := by
    rwa [(sort.perm hle h).length_eq]
  have hget := List.getElem?_eq_getElem hplace
  have hbehind := sort.behind hle h _ r hget hr
  rw [List.take_succ_eq_append_getElem hplace, List.mem_append, List.mem_singleton] at hp
  rcases hp with hp | rfl
  · exact hle.trans _ _ _ (sort.before hle h p _ hp hget) hbehind
  · exact hbehind

lemma pairwise_mergeSort (hle : Ranks le) (l : List α) :
    (l.mergeSort le).Pairwise fun p q => le p q = true := by
  refine List.pairwise_mergeSort hle.trans (fun p q => ?_) l
  rw [Bool.or_eq_true]
  exact hle.total p q

/-- A partial sort that is no sort: what comes before the place is left in descending order. -/
def reversing : PartialSort where
  arrange le place l := ((l.mergeSort le).take place).reverse ++ (l.mergeSort le).drop place
  perm := by
    intro α le _ place l _
    refine ((List.reverse_perm _).append_right _).trans ?_
    rw [List.take_append_drop]
    exact List.mergeSort_perm l _
  before := by
    intro α le hle place l h p q hp hq
    have hlength : ((l.mergeSort le).take place).reverse.length = place := by simp; omega
    -- the front is reversed in itself, so the sorted list splits at the same place
    have hsorted := pairwise_mergeSort hle l
    rw [← List.take_append_drop place (l.mergeSort le), List.pairwise_append] at hsorted
    rw [List.take_append_of_le_length hlength.ge, List.take_of_length_le hlength.le,
      List.mem_reverse] at hp
    rw [List.getElem?_append_right hlength.le] at hq
    exact hsorted.2.2 p hp q (List.mem_of_getElem? hq)
  behind := by
    intro α le hle place l h q r hq hr
    have hlength : ((l.mergeSort le).take place).reverse.length = place := by simp; omega
    have hplace : place < (l.mergeSort le).length := by rwa [List.length_mergeSort]
    have hsorted := (pairwise_mergeSort hle l).sublist (List.drop_sublist place _)
    rw [List.getElem?_append_right hlength.le, hlength, Nat.sub_self, List.getElem?_drop,
      Nat.add_zero, List.getElem?_eq_getElem hplace, Option.some.injEq] at hq
    rw [List.drop_append, hlength, List.drop_of_length_le (by omega), List.nil_append,
      Nat.add_sub_cancel_left, List.drop_drop] at hr
    rw [List.drop_eq_getElem_cons hplace, List.pairwise_cons, hq] at hsorted
    exact hsorted.1 r hr

end PartialSort

namespace Support

variable {T R : Type} [RealLike R] [Scalar T R] {k : ℕ}

/-! ## Selecting by a partial sort -/

/-- The `k` candidates of the first ranks, found by a partial sort. It is not asked for if all
candidates are taken. -/
def selectBy (sort : PartialSort) (x : Signal T) (k : ℕ) (candidates : List ℕ) : Array ℕ :=
  let pairs : List (ℕ × R) := keyed x candidates
  if k = 0 then #[]
  else if k < pairs.length then firstIndices (sort.arrange ranksBefore (k - 1) pairs) k
  else ((pairs.map Prod.fst).mergeSort).toArray

section

variable [OrderLaws R] {x : Signal T}

lemma ranks_ranksBefore : Ranks (ranksBefore : ℕ × R → ℕ × R → Bool) :=
  ⟨ranksBefore_total, fun _ _ _ => ranksBefore_trans⟩

/-- Taking the first pairs gives the selection, however the pairs in front are arranged. -/
lemma firstIndices_eq_select {n : ℕ} {candidates : List ℕ} {l : List (ℕ × R)}
    (hl : l.Perm (keyed x candidates)) (hnd : candidates.Nodup) (hlt : ∀ j ∈ candidates, j < n)
    (hfront : ∀ p ∈ l.take k, ∀ q ∈ l.drop k, ranksBefore p q = true) :
    firstIndices l k = select x k candidates := by
  have hsize : (firstIndices l k).size = (select x k candidates).size := by
    rw [size_firstIndices hl, size_select]
  have hsub (j : ℕ) (hj : j ∈ firstIndices l k) : j ∈ candidates :=
    (firstIndices_subperm hl k).subset (Array.mem_toList_iff.2 hj)
  have hsub' (j : ℕ) (hj : j ∈ select x k candidates) : j ∈ candidates :=
    (select_subperm x k candidates).subset (Array.mem_toList_iff.2 hj)
  exact Leads.eq (firstIndices_ascending hl k hnd hlt) (select_ascending x k hnd hlt) hsize hsub
    hsub' (firstIndices_leads hl hfront) (select_leads x k candidates)

/-- Every partial sort selects the same indices. -/
lemma selectBy_eq_select (sort : PartialSort) {n : ℕ} {candidates : List ℕ}
    (hnd : candidates.Nodup) (hlt : ∀ j ∈ candidates, j < n) :
    selectBy sort x k candidates = select x k candidates := by
  unfold selectBy
  dsimp only
  split
  · rename_i hk
    rw [hk, select_eq_firstIndices, firstIndices, List.take_zero, List.map_nil, List.mergeSort_nil]
  · split
    · -- the place asked for is that of the last index taken
      rename_i hk hlen
      have hplace : k - 1 < (keyed x candidates).length := by omega
      have hsucc : k - 1 + 1 = k := by omega
      refine firstIndices_eq_select (sort.perm ranks_ranksBefore hplace) hnd hlt fun p hp q hq => ?_
      rw [← hsucc] at hp hq
      exact sort.front ranks_ranksBefore hplace hp hq
    · -- all candidates are taken, so nothing is left to lead
      rename_i hlen
      have hall : (keyed x candidates).take k = keyed x candidates :=
        List.take_of_length_le (not_lt.1 hlen)
      rw [← firstIndices_eq_select (.refl (keyed x candidates)) hnd hlt, firstIndices, hall]
      rw [List.drop_of_length_le (not_lt.1 hlen)]
      intro p _ q hq
      cases hq

end

/-! ## The order of the entries -/

/-- Index `i` is ahead of index `j`: numbers are ahead of NaN, larger moduli of smaller ones, and
lower indices decide where both are NaN or neither is larger. -/
def Ahead (x : Signal T) (i j : ℕ) : Prop :=
  let p : R := Scalar.modulus (x.getD i 0)
  let q : R := Scalar.modulus (x.getD j 0)
  (RealLike.isNaN p = false ∧ RealLike.isNaN q = true) ∨ RealLike.lt q p = true ∨
    ((RealLike.isNaN p = true ∧ RealLike.isNaN q = true) ∨
      (RealLike.le p q = true ∧ RealLike.le q p = true)) ∧ i < j

section

variable [OrderLaws R] {x : Signal T} {i j : ℕ}

lemma precedes_iff_ahead (hne : i ≠ j) : Precedes x i j ↔ Ahead x i j := by
  have hindex : i ≤ j ↔ i < j := ⟨fun h => lt_of_le_of_ne h hne, le_of_lt⟩
  unfold Precedes Ahead
  dsimp only
  generalize Scalar.modulus (x.getD i 0) = p
  generalize Scalar.modulus (x.getD j 0) = q
  -- a NaN takes part in no comparison
  have hleft : RealLike.le p q = true → RealLike.isNaN p = false := OrderLaws.isNaN_left p q
  have hright : RealLike.le p q = true → RealLike.isNaN q = false := OrderLaws.isNaN_right p q
  cases hq : RealLike.isNaN q with
  | true =>
    rw [ranksBefore_of_isNaN (p := (i, p)) hq, OrderLaws.not_lt_of_isNaN hq, hindex]
    rw [hq] at hright
    cases hp : RealLike.isNaN p <;> simp_all
  | false =>
    cases hp : RealLike.isNaN p with
    | true =>
      have hlt : RealLike.lt q p ≠ true := fun h => by
        have := OrderLaws.isNaN_right _ _ ((OrderLaws.lt_iff q p).1 h).1
        rw [hp] at this
        cases this
      rw [not_ranksBefore_of_isNaN (p := (i, p)) (q := (j, q)) hp hq]
      rw [hp] at hleft
      simp_all
    | false =>
      rw [ranksBefore_iff (p := (i, p)) (q := (j, q)) hp hq, hindex]
      -- what is not larger is equal, unless the first modulus is the larger one
      have hdecided : RealLike.lt q p = true ∨ RealLike.le p q = true := by
        by_cases hlt : RealLike.lt q p = true
        · exact .inl hlt
        · exact .inr (OrderLaws.le_of_not_lt hq hp (eq_false_of_ne_true hlt))
      tauto

end

/-! ## The largest entries -/

/-- The indices below `n` that are not excluded. -/
def outside (n : ℕ) (excluded : Array ℕ) : List ℕ := (List.range n).filter (· ∉ excluded)

/-- As many of the indices outside `excluded` as there are, up to `k`, in ascending order, and ahead
of those that are left out. -/
structure IsLargest (x : Signal T) (k : ℕ) (excluded s : Array ℕ) : Prop where
  sorted : s.toList.Pairwise (· < ·)
  candidate : ∀ i ∈ s, i < x.size ∧ i ∉ excluded
  size_eq : s.size = min k (outside x.size excluded).length
  ahead : ∀ i ∈ s, ∀ j < x.size, j ∉ excluded → j ∉ s → Ahead x i j

section

variable {x : Signal T} {excluded s : Array ℕ}

omit [Scalar T R] in
/-- Binary search finds what is excluded. -/
lemma filter_contains_eq_outside (hexcluded : excluded.toList.Pairwise (· ≤ ·)) (n : ℕ) :
    ((List.range n).filter fun i => !contains excluded i) = outside n excluded := by
  refine List.filter_congr fun i _ => ?_
  rw [Bool.eq_iff_iff, Bool.not_eq_true', ← Bool.not_eq_true,
    contains_iff_of_sorted hexcluded, decide_eq_true_iff]

lemma mem_outside_iff {n j : ℕ} : j ∈ outside n excluded ↔ j < n ∧ j ∉ excluded := by
  rw [outside, List.mem_filter, List.mem_range, decide_eq_true_iff]

lemma nodup_outside (n : ℕ) (excluded : Array ℕ) : (outside n excluded).Nodup :=
  List.nodup_range.filter _

variable [OrderLaws R]

/-- The selection from the candidates outside a set has the largest entries there. -/
lemma isLargest_select (x : Signal T) (k : ℕ) (excluded : Array ℕ) :
    IsLargest x k excluded (select x k (outside x.size excluded)) where
  sorted := (select_ascending x k (nodup_outside _ _) fun _ hj => (mem_outside_iff.1 hj).1).sorted
  candidate i hi :=
    mem_outside_iff.1 ((select_subperm x k _).subset (Array.mem_toList_iff.2 hi))
  size_eq := size_select x k _
  ahead i hi j hj hout hleft := by
    have hne : i ≠ j := by
      rintro rfl
      exact hleft hi
    exact (precedes_iff_ahead hne).1
      (select_leads x k _ i hi j (mem_outside_iff.2 ⟨hj, hout⟩) hleft)

/-- There is only one such support. -/
lemma IsLargest.eq {t : Array ℕ} (hs : IsLargest x k excluded s) (ht : IsLargest x k excluded t) :
    s = t := by
  have hleads {u : Array ℕ} (hu : IsLargest x k excluded u) :
      Leads x u fun j => j < x.size ∧ j ∉ excluded := by
    intro i hi j hj hju
    have hne : i ≠ j := by
      rintro rfl
      exact hju hi
    exact (precedes_iff_ahead hne).2 (hu.ahead i hi j hj.1 hj.2 hju)
  exact Leads.eq (n := x.size) ⟨hs.sorted, fun j hj => (hs.candidate j hj).1⟩
    ⟨ht.sorted, fun j hj => (ht.candidate j hj).1⟩ (hs.size_eq.trans ht.size_eq.symm)
    hs.candidate ht.candidate (hleads hs) (hleads ht)

/-- A selection takes the first candidates in the order of the entries. -/
lemma exists_sorted_candidates {candidates : List ℕ} (x : Signal T) (k : ℕ)
    (hnd : candidates.Nodup) :
    ∃ l : List ℕ, l.Perm candidates ∧ l.Pairwise (Ahead x) ∧
      select x k candidates = ((l.take k).mergeSort).toArray := by
  have hperm := List.mergeSort_perm (keyed x candidates) ranksBefore
  have hindices := hperm.map Prod.fst
  rw [map_fst_keyed] at hindices
  refine ⟨_, hindices, ?_, ?_⟩
  · have hdistinct := hindices.nodup_iff.2 hnd
    rw [List.Nodup, List.pairwise_map] at hdistinct
    rw [List.pairwise_map]
    refine ((PartialSort.pairwise_mergeSort ranks_ranksBefore (keyed x candidates)).and
      hdistinct).imp_of_mem fun {p q} hp hq hpq => ?_
    obtain ⟨i, -, rfl⟩ := List.mem_map.1 (hperm.subset hp)
    obtain ⟨j, -, rfl⟩ := List.mem_map.1 (hperm.subset hq)
    exact (precedes_iff_ahead hpq.2).1 hpq.1
  · rw [← List.map_take]
    rfl

/-- The largest entries outside a sorted list are what they are said to be, and nothing else is.
They are found by sorting the candidates, by any partial sort, and without a list to exclude they
are the largest entries of all. -/
theorem isLargest_iff (x : Signal T) (k : ℕ) (hexcluded : excluded.toList.Pairwise (· ≤ ·)) :
    (∀ s, IsLargest x k excluded s ↔ s = largestExcluding x k excluded) ∧
    (∃ l : List ℕ, l.Perm (outside x.size excluded) ∧ l.Pairwise (Ahead x) ∧
      largestExcluding x k excluded = ((l.take k).mergeSort).toArray) ∧
    (∀ sort : PartialSort,
      selectBy sort x k ((List.range x.size).filter fun i => !contains excluded i)
        = largestExcluding x k excluded) ∧
    largest x k = largestExcluding x k #[] := by
  have hselect : largestExcluding x k excluded = select x k (outside x.size excluded) := by
    rw [largestExcluding, filter_contains_eq_outside hexcluded]
  refine ⟨fun s => ⟨fun hs => ?_, ?_⟩, ?_, fun sort => ?_, ?_⟩
  · rw [hselect]
    exact hs.eq (isLargest_select x k excluded)
  · rintro rfl
    rw [hselect]
    exact isLargest_select x k excluded
  · rw [hselect]
    exact exists_sorted_candidates x k (nodup_outside _ _)
  · rw [filter_contains_eq_outside hexcluded, hselect]
    exact selectBy_eq_select sort (nodup_outside _ _) fun _ hj => (mem_outside_iff.1 hj).1
  · rw [largestExcluding, filter_contains_eq_outside List.Pairwise.nil, outside, largest]
    congr 1
    exact (List.filter_eq_self.2 fun _ _ => by simp).symm

end

/-- Numbers, infinities, a NaN and a tie. -/
def mixedSignal : Signal Extended :=
  #[.nan, .infinite false, .finite (-3), .finite 3, .infinite true, .finite 0]

/-- The lower index wins the tie behind the infinity. -/
lemma isLargest_mixedSignal : IsLargest mixedSignal 2 #[1, 1] #[2, 4] where
  sorted := by decide
  candidate := by decide +kernel
  size_eq := by decide +kernel
  ahead := by
    unfold Ahead
    decide +kernel

/-- The excluded index is listed twice, and a partial sort that does not sort selects the same two
entries. -/
theorem isLargest_iff_mixedSignal :
    (#[1, 1] : Array ℕ).toList.Pairwise (· ≤ ·) ∧
    largestExcluding mixedSignal 2 #[1, 1] = #[2, 4] ∧
    selectBy .reversing mixedSignal 2 ((List.range 6).filter fun i => !contains #[1, 1] i)
      = #[2, 4] := by
  have hexcluded : (#[1, 1] : Array ℕ).toList.Pairwise (· ≤ ·) := by decide
  obtain ⟨hiff, -, hsort, -⟩ := isLargest_iff mixedSignal 2 hexcluded
  have hlargest := (hiff #[2, 4]).1 isLargest_mixedSignal
  exact ⟨hexcluded, hlargest.symm, (hsort .reversing).trans hlargest.symm⟩

end Support
end CompressedSensing
