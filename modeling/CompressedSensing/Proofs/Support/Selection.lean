import Mathlib
import CompressedSensing.Support.Selection
import CompressedSensing.Support.Validation
/-!
# Selections are ascending supports

`Support.Ascending n s` is what the recovery algorithms keep true of every support they pass on:
distinct indices below `n` in ascending order. A selection of `k` entries is one, whatever the
entries are, because it is a part of the candidates sorted by index; how the candidates are
rearranged before the first ones are taken decides which part. Binary search is exact on sorted
lists, so the selection outside of a support is disjoint from it and misses no candidate.
-/

namespace CompressedSensing
namespace Support

variable {T R : Type} [RealLike R] [Scalar T R] {n k : ℕ}

/-- Strictly increasing indices below `n`. -/
structure Ascending (n : ℕ) (s : Array ℕ) : Prop where
  sorted : s.toList.Pairwise (· < ·)
  lt : ∀ j ∈ s, j < n

namespace Ascending

variable {s : Array ℕ}

/-- An ascending support repeats no index. -/
lemma nodup (h : Ascending n s) : s.toList.Nodup := h.sorted.imp fun hij => hij.ne

/-- An ascending support passes the check of the supports. -/
lemma valid (h : Ascending n s) : Valid n s :=
  ⟨h.nodup, fun j hj => h.lt j (Array.mem_toList_iff.1 hj)⟩

/-- An ascending support is no longer than a support that contains it. -/
lemma size_le_of_subset (h : Ascending n s) {t : Array ℕ} (hst : ∀ j ∈ s, j ∈ t) :
    s.size ≤ t.size := by
  have hsub := h.nodup.subperm fun j hj =>
    Array.mem_toList_iff.2 (hst j (Array.mem_toList_iff.1 hj))
  simpa using hsub.length_le

lemma empty (n : ℕ) : Ascending n #[] := ⟨List.Pairwise.nil, by simp⟩

/-- The full support `0, …, n - 1` is ascending. -/
lemma range (n : ℕ) : Ascending n (Array.range n) := by
  refine ⟨?_, by simp⟩
  rw [Array.toList_range]
  exact List.pairwise_lt_range

/-- An ascending support below `n` has at most `n` indices. -/
lemma size_le (h : Ascending n s) : s.size ≤ n := by
  have hle := h.size_le_of_subset fun j hj => Array.mem_range.2 (h.lt j hj)
  rwa [Array.size_range] at hle

lemma getElem_lt_getElem (h : Ascending n s) {i j : ℕ} (hij : i < j) (hj : j < s.size) :
    s[i] < s[j] := by
  have := List.pairwise_iff_getElem.1 h.sorted i j (by simp; omega) (by simpa using hj) hij
  simpa using this

end Ascending

/-! ## Selection -/

/-- The candidates with their moduli. -/
def keyed (x : Signal T) (candidates : List ℕ) : List (ℕ × R) :=
  candidates.map fun i => (i, Scalar.modulus (x.getD i 0))

/-- The indices of the first `k` pairs, ascending. -/
def firstIndices (l : List (ℕ × R)) (k : ℕ) : Array ℕ :=
  (((l.take k).map Prod.fst).mergeSort).toArray

/-- The selection takes the first indices of the ranked candidates. -/
lemma select_eq_firstIndices (x : Signal T) (k : ℕ) (candidates : List ℕ) :
    select x k candidates = firstIndices ((keyed x candidates).mergeSort ranksBefore) k := rfl

omit [RealLike R] in
/-- Forgetting the keys gives the candidates back. -/
@[simp] lemma map_fst_keyed (x : Signal T) (candidates : List ℕ) :
    (keyed x candidates).map Prod.fst = candidates := by
  rw [keyed, List.map_map,
    show Prod.fst ∘ (fun i => (i, Scalar.modulus (x.getD i 0))) = id from rfl,
    List.map_id]

omit [RealLike R] in
/-- The first indices are those of the first `k` keyed candidates. -/
lemma mem_firstIndices {l : List (ℕ × R)} {j : ℕ} :
    j ∈ firstIndices l k ↔ j ∈ (l.take k).map Prod.fst := by
  rw [firstIndices, List.mem_toArray, List.mem_mergeSort]

section FirstIndices

variable {x : Signal T} {candidates : List ℕ} {l : List (ℕ × R)}

omit [RealLike R] in
/-- What is taken from rearranged candidates is a part of the candidates. -/
lemma firstIndices_subperm (hl : l.Perm (keyed x candidates)) (k : ℕ) :
    (firstIndices l k).toList.Subperm candidates := by
  -- sorting by index, taking the first pairs and rearranging only move and drop
  rw [firstIndices, List.toList_toArray]
  refine (List.mergeSort_perm _ _).subperm.trans ?_
  refine ((List.take_sublist _ _).map _).subperm.trans ?_
  have hindices := (hl.map Prod.fst).subperm
  rwa [map_fst_keyed] at hindices

omit [RealLike R] in
/-- From any order of the candidates, `k` of them are taken, or all if there are fewer. -/
lemma size_firstIndices (hl : l.Perm (keyed x candidates)) (k : ℕ) :
    (firstIndices l k).size = min k candidates.length := by
  simp [firstIndices, hl.length_eq, keyed]

omit [RealLike R] in
/-- The indices taken are sorted, whatever the order of the candidates. -/
lemma firstIndices_ascending (hl : l.Perm (keyed x candidates)) (k : ℕ)
    (hnd : candidates.Nodup) (hlt : ∀ j ∈ candidates, j < n) :
    Ascending n (firstIndices l k) := by
  have hsub := firstIndices_subperm hl k
  constructor
  · -- sorted with repetitions allowed, and there are none
    have hnodup : (firstIndices l k).toList.Nodup := by
      rcases hsub with ⟨l', hl', hl''⟩
      exact hl'.nodup_iff.1 (hnd.sublist hl'')
    have hle : (firstIndices l k).toList.Pairwise (· ≤ ·) := by
      rw [firstIndices, List.toList_toArray]
      exact List.pairwise_mergeSort' _ _
    exact (hle.and hnodup).imp fun h => lt_of_le_of_ne h.1 h.2
  · intro j hj
    exact hlt j (hsub.subset (Array.mem_toList_iff.2 hj))

end FirstIndices

/-- A selection is a part of the candidates. -/
lemma select_subperm (x : Signal T) (k : ℕ) (candidates : List ℕ) :
    (select x k candidates).toList.Subperm candidates :=
  firstIndices_subperm (List.mergeSort_perm _ _) k

/-- The selection has `k` indices, or all the candidates if there are fewer. -/
@[simp] lemma size_select (x : Signal T) (k : ℕ) (candidates : List ℕ) :
    (select x k candidates).size = min k candidates.length :=
  size_firstIndices (List.mergeSort_perm _ _) k

/-- A selection from distinct candidates below `n` is an ascending support below `n`. -/
lemma select_ascending (x : Signal T) (k : ℕ) {candidates : List ℕ} (hnd : candidates.Nodup)
    (hlt : ∀ j ∈ candidates, j < n) : Ascending n (select x k candidates) :=
  firstIndices_ascending (List.mergeSort_perm _ _) k hnd hlt

/-- The largest entries number `k`, or the length of a shorter signal. -/
@[simp] lemma size_largest (x : Signal T) (k : ℕ) : (largest x k).size = min k x.size := by
  simp [largest]

/-- The largest entries form an ascending support of the signal. -/
lemma largest_ascending (x : Signal T) (k : ℕ) : Ascending x.size (largest x k) :=
  select_ascending x k List.nodup_range fun _ => List.mem_range.1

/-- One of two entries. -/
lemma largest_two (a b : T) :
    largest #[a, b] 1
      = if ranksBefore (0, (Scalar.modulus a : R)) (1, Scalar.modulus b) then #[0] else #[1] := by
  have hkeys : (List.range (#[a, b] : Signal T).size).map
      (fun i => (i, (Scalar.modulus ((#[a, b] : Signal T).getD i 0) : R)))
      = [(0, Scalar.modulus a), (1, Scalar.modulus b)] := rfl
  unfold largest select
  simp only [hkeys]
  split
  · rename_i hfirst
    simp [List.mergeSort, hfirst]
  · rename_i hsecond
    simp [List.mergeSort, eq_false_of_ne_true hsecond]

/-! ## Binary search -/

/-- In a list that is sorted, entries may repeat, the search ends at the last entry that is at most
the target, or at the first entry if all are greater. -/
lemma floorIndex_spec {s : Array ℕ} (hs : s.toList.Pairwise (· ≤ ·)) (target fuel base size : ℕ)
    (hfuel : size ≤ fuel + 1) (hsize : 0 < size) (hbound : base + size ≤ s.size)
    (hlow : base = 0 ∨ s.getD base 0 ≤ target)
    (hhigh : ∀ i, base + size ≤ i → ∀ hi : i < s.size, target < s[i]) :
    floorIndex s target fuel base size < s.size ∧
      (floorIndex s target fuel base size = 0 ∨
        s.getD (floorIndex s target fuel base size) 0 ≤ target) ∧
      ∀ i, floorIndex s target fuel base size < i → ∀ hi : i < s.size, target < s[i] := by
  -- the window keeps that entry while it shrinks by half
  induction fuel generalizing base size with
  | zero =>
    unfold floorIndex
    exact ⟨by omega, hlow, fun i hi => hhigh i (by omega)⟩
  | succ fuel ih =>
    unfold floorIndex
    by_cases hone : 1 < size
    · rw [if_pos hone]
      have hmid : base + size / 2 < s.size := by omega
      dsimp only
      by_cases hlt : target < s.getD (base + size / 2) 0
      · rw [if_pos hlt]
        -- what stands from the middle on is greater than the target
        have hmiddle : target < s[base + size / 2] := by simpa [hmid] using hlt
        refine ih _ _ (by omega) (by omega) (by omega) hlow fun i hi hi' => ?_
        rcases Nat.eq_or_lt_of_le (show base + size / 2 ≤ i by omega) with rfl | hbehind
        · exact hmiddle
        · have hle := List.pairwise_iff_getElem.1 hs (base + size / 2) i (by simpa using hmid)
            (by simpa using hi') hbehind
          rw [Array.getElem_toList, Array.getElem_toList] at hle
          omega
      · rw [if_neg hlt]
        exact ih _ _ (by omega) (by omega) (by omega) (.inr (not_lt.1 hlt))
          fun i hi => hhigh i (by omega)
    · rw [if_neg hone]
      exact ⟨by omega, hlow, fun i hi => hhigh i (by omega)⟩

/-- Binary search in a sorted list is exact. -/
theorem contains_iff_of_sorted {s : Array ℕ} (hs : s.toList.Pairwise (· ≤ ·)) (target : ℕ) :
    contains s target = true ↔ target ∈ s := by
  unfold contains
  by_cases hempty : s.isEmpty
  · rw [if_pos hempty, Array.isEmpty_iff.1 hempty]
    simp
  · have hpos : 0 < s.size := by
      rw [Array.isEmpty_iff_size_eq_zero] at hempty
      omega
    obtain ⟨hlt, hlow, hhigh⟩ := floorIndex_spec hs target s.size 0 s.size (by omega) hpos
      (by omega) (.inl rfl) (by omega)
    rw [if_neg hempty, beq_iff_eq]
    generalize floorIndex s target s.size 0 s.size = found at hlt hlow hhigh ⊢
    have hget : s.getD found 0 = s[found] := by simp [hlt]
    rw [hget] at hlow ⊢
    constructor
    · intro h
      rw [← h]
      exact Array.getElem_mem hlt
    · intro h
      obtain ⟨i, hi, rfl⟩ := Array.mem_iff_getElem.1 h
      -- the target does not stand behind the entry that was found
      have hle : i ≤ found := by
        by_contra hgt
        exact absurd (hhigh i (not_le.1 hgt) hi) (lt_irrefl _)
      rcases Nat.eq_or_lt_of_le hle with rfl | hbefore
      · rfl
      · have hsorted := List.pairwise_iff_getElem.1 hs i found (by simpa using hi)
          (by simpa using hlt) hbefore
        rw [Array.getElem_toList, Array.getElem_toList] at hsorted
        omega

/-- Bisection finds exactly the indices of an ascending support. -/
theorem contains_iff {s : Array ℕ} (hs : Ascending n s) (target : ℕ) :
    contains s target = true ↔ target ∈ s :=
  contains_iff_of_sorted (hs.sorted.imp le_of_lt) target

/-! ## Selection outside a support -/

/-- The candidates outside a sorted list. -/
lemma mem_outside_of_sorted {s : Array ℕ} (hs : s.toList.Pairwise (· ≤ ·)) (size j : ℕ) :
    j ∈ (List.range size).filter (fun i => !contains s i) ↔ j < size ∧ j ∉ s := by
  rw [List.mem_filter, List.mem_range, Bool.not_eq_true', ← Bool.not_eq_true,
    contains_iff_of_sorted hs]

/-- The candidates outside a support are the other indices in range. -/
lemma mem_outside {s : Array ℕ} (hs : Ascending n s) (size j : ℕ) :
    j ∈ (List.range size).filter (fun i => !contains s i) ↔ j < size ∧ j ∉ s :=
  mem_outside_of_sorted (hs.sorted.imp le_of_lt) size j

/-- The candidates outside an ascending support number `n - s.size`. -/
lemma length_outside {s : Array ℕ} (hs : Ascending n s) :
    ((List.range n).filter (fun i => !contains s i)).length = n - s.size := by
  -- the candidates inside the support are the support itself, in some order
  have hinside : ((List.range n).filter (fun i => contains s i)).length = s.size := by
    rw [← Array.length_toList]
    apply List.Perm.length_eq
    rw [List.perm_ext_iff_of_nodup (List.nodup_range.filter _) hs.nodup]
    intro j
    rw [List.mem_filter, List.mem_range, contains_iff hs, Array.mem_toList_iff]
    exact ⟨fun h => h.2, fun h => ⟨hs.lt j h, h⟩⟩
  have hsplit := List.length_eq_length_filter_add (l := List.range n) (fun i => contains s i)
  rw [hinside, List.length_range] at hsplit
  omega

/-- The largest entries outside a support number `k`, or all that are left. -/
lemma size_largestExcluding (x : Signal T) (k : ℕ) {s : Array ℕ} (hs : Ascending x.size s) :
    (largestExcluding x k s).size = min k (x.size - s.size) := by
  rw [largestExcluding, size_select, length_outside hs]

/-- The largest entries outside a support form an ascending support of the signal. -/
lemma largestExcluding_ascending (x : Signal T) (k : ℕ) {s : Array ℕ}
    (hs : Ascending x.size s) : Ascending x.size (largestExcluding x k s) :=
  select_ascending x k (List.nodup_range.filter _) fun j hj => ((mem_outside hs _ j).1 hj).1

/-- The largest entries outside a support avoid it. -/
lemma notMem_of_mem_largestExcluding (x : Signal T) (k : ℕ) {s : Array ℕ}
    (hs : Ascending x.size s) {j : ℕ} (hj : j ∈ largestExcluding x k s) : j ∉ s := by
  have hmem := (select_subperm x k _).subset (Array.mem_toList_iff.2 hj)
  exact ((mem_outside hs _ j).1 hmem).2

end Support
end CompressedSensing
