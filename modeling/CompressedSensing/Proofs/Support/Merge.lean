import Mathlib
import CompressedSensing.Support.Merge
import CompressedSensing.Proofs.Support.Selection
/-!
# The merge of two supports

The walk along two ascending supports gives their union, ascending again. For disjoint supports
no entry is dropped, so the sizes add up.
-/

namespace CompressedSensing
namespace Support

/-- The merge of two lists holds the entries of both. -/
lemma mem_mergeLists (a b : List ℕ) (t : ℕ) : t ∈ mergeLists a b ↔ t ∈ a ∨ t ∈ b := by
  fun_induction mergeLists a b with
  | case1 b => simp
  | case2 a => simp
  | case3 i a j b h ih =>
    rw [List.mem_cons, ih, List.mem_cons (a := t) (b := i), or_assoc]
  | case4 i a j b h h' ih =>
    rw [List.mem_cons, ih, List.mem_cons (a := t) (b := j), or_left_comm]
  | case5 i a j b h h' ih =>
    have : i = j := by omega
    subst this
    simp only [List.mem_cons, ih]
    tauto

/-- The merge of two strictly increasing lists is strictly increasing: an index in both is kept
once. -/
lemma mergeLists_sorted (a b : List ℕ) (ha : a.Pairwise (· < ·)) (hb : b.Pairwise (· < ·)) :
    (mergeLists a b).Pairwise (· < ·) := by
  fun_induction mergeLists a b with
  | case1 b => exact hb
  | case2 a => exact ha
  | case3 i a j b h ih =>
    rw [List.pairwise_cons] at ha
    refine List.pairwise_cons.2 ⟨fun t ht => ?_, ih ha.2 hb⟩
    -- what follows comes after `i` in its own list, or from `j` on in the other
    rcases (mem_mergeLists _ _ t).1 ht with ht | ht
    · exact ha.1 t ht
    · rcases List.mem_cons.1 ht with rfl | ht
      · exact h
      · exact h.trans ((List.pairwise_cons.1 hb).1 t ht)
  | case4 i a j b h h' ih =>
    rw [List.pairwise_cons] at hb
    refine List.pairwise_cons.2 ⟨fun t ht => ?_, ih ha hb.2⟩
    -- the same with the two lists exchanged
    rcases (mem_mergeLists _ _ t).1 ht with ht | ht
    · rcases List.mem_cons.1 ht with rfl | ht
      · exact h'
      · exact h'.trans ((List.pairwise_cons.1 ha).1 t ht)
    · exact hb.1 t ht
  | case5 i a j b h h' ih =>
    have : i = j := by omega
    subst this
    rw [List.pairwise_cons] at ha hb
    refine List.pairwise_cons.2 ⟨fun t ht => ?_, ih ha.2 hb.2⟩
    rcases (mem_mergeLists _ _ t).1 ht with ht | ht
    · exact ha.1 t ht
    · exact hb.1 t ht

/-- Lists with no entry in common merge to a list of their joint length. -/
lemma length_mergeLists (a b : List ℕ) (h : ∀ t ∈ b, t ∉ a) :
    (mergeLists a b).length = a.length + b.length := by
  fun_induction mergeLists a b with
  | case1 b => simp
  | case2 a => simp
  | case3 i a j b hij ih =>
    rw [List.length_cons, ih fun t ht hta => h t ht (List.mem_cons_of_mem _ hta)]
    simp only [List.length_cons]
    omega
  | case4 i a j b hij hji ih =>
    rw [List.length_cons, ih fun t ht => h t (List.mem_cons_of_mem _ ht)]
    simp only [List.length_cons]
    omega
  | case5 i a j b hij hji ih =>
    -- equal heads are excluded
    have : i = j := by omega
    exact absurd (List.mem_cons.2 (.inl this.symm)) (h j List.mem_cons_self)

variable {n : ℕ} {a b : Array ℕ}

/-- The merged support holds the indices of both supports. -/
lemma mem_merge {j : ℕ} : j ∈ merge a b ↔ j ∈ a ∨ j ∈ b := by
  rw [merge, List.mem_toArray, mem_mergeLists, Array.mem_toList_iff, Array.mem_toList_iff]

/-- The merge of two sorted supports is sorted. -/
lemma merge_sorted (ha : a.toList.Pairwise (· < ·)) (hb : b.toList.Pairwise (· < ·)) :
    (merge a b).toList.Pairwise (· < ·) := mergeLists_sorted _ _ ha hb

/-- Two ascending supports below `n` merge to an ascending support below `n`. -/
lemma merge_ascending (ha : Ascending n a) (hb : Ascending n b) : Ascending n (merge a b) := by
  refine ⟨merge_sorted ha.sorted hb.sorted, fun j hj => ?_⟩
  exact (mem_merge.1 hj).elim (ha.lt j) (hb.lt j)

/-- Disjoint supports merge to a support of their joint size. -/
lemma size_merge (h : ∀ j ∈ b, j ∉ a) : (merge a b).size = a.size + b.size := by
  rw [merge, List.size_toArray, length_mergeLists]
  · rw [Array.length_toList, Array.length_toList]
  · intro t ht
    rw [Array.mem_toList_iff] at ht ⊢
    exact h t ht

end Support
end CompressedSensing
