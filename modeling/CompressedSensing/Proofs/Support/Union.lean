import Mathlib
import CompressedSensing.Proofs.Support.Merge
/-!
# Merging is the union of sets

An ascending list of indices is determined by the set of its entries, and the merge of two such
lists is the ascending list of the union. Sizes, the exchange of the operands and a change of
brackets are then read off the algebra of sets.

The walk along two lists is that of two cursors: what they have passed is written out, and once one
list is used up the rest of the other is appended.
-/

namespace CompressedSensing
namespace Support

variable {a b c : Array ℕ}

/-! ## Two cursors -/

/-- The walk with cursors at `i` and `j`, where `out` has been written before. -/
def mergeFrom (a b : Array ℕ) (i j : ℕ) (out : Array ℕ) : Array ℕ :=
  if _h : i < a.size ∧ j < b.size then
    if a[i] < b[j] then mergeFrom a b (i + 1) j (out.push a[i])
    else if b[j] < a[i] then mergeFrom a b i (j + 1) (out.push b[j])
    else mergeFrom a b (i + 1) (j + 1) (out.push a[i])
  else out ++ a.extract i ++ b.extract j
termination_by a.size - i + (b.size - j)

lemma drop_toList_eq_cons {i : ℕ} (h : i < a.size) :
    a.toList.drop i = a[i] :: a.toList.drop (i + 1) :=
  List.drop_eq_getElem_cons (by simpa using h)

/-- Merging with the empty list changes nothing. -/
lemma mergeLists_nil_right (l : List ℕ) : mergeLists l [] = l := by
  cases l with
  | nil => rw [mergeLists]
  | cons i l => rw [mergeLists]; exact List.cons_ne_nil i l

/-- What is still to be written is the merge of what the cursors have not passed. -/
lemma mergeFrom_eq (a b : Array ℕ) (i j : ℕ) (out : Array ℕ) :
    mergeFrom a b i j out
      = out ++ (mergeLists (a.toList.drop i) (b.toList.drop j)).toArray := by
  fun_induction mergeFrom a b i j out with
  | case1 i j out h hlt ih =>
    rw [ih, drop_toList_eq_cons h.1, drop_toList_eq_cons h.2, mergeLists, if_pos hlt]
    simp
  | case2 i j out h hlt hgt ih =>
    rw [ih, drop_toList_eq_cons h.1, drop_toList_eq_cons h.2, mergeLists, if_neg hlt, if_pos hgt]
    simp
  | case3 i j out h hlt hgt ih =>
    rw [ih, drop_toList_eq_cons h.1, drop_toList_eq_cons h.2, mergeLists, if_neg hlt, if_neg hgt]
    simp
  | case4 i j out h =>
    -- one of the two rests is empty, and the other is what is appended
    rcases not_and_or.1 h with hi | hj
    · have hrest : a.toList.drop i = [] := List.drop_eq_nil_of_le (by simpa using hi)
      rw [hrest, mergeLists]
      apply Array.toList_inj.1
      simp [hrest]
    · have hrest : b.toList.drop j = [] := List.drop_eq_nil_of_le (by simpa using hj)
      rw [hrest, mergeLists_nil_right]
      apply Array.toList_inj.1
      simp [hrest]

/-- The merge is the walk from the front of both lists. -/
lemma merge_eq_mergeFrom (a b : Array ℕ) : merge a b = mergeFrom a b 0 0 #[] := by
  rw [mergeFrom_eq, merge]
  simp

/-! ## Sets of indices -/

/-- The entries of a list as a set. -/
def indexSet (a : Array ℕ) : Finset ℕ := a.toList.toFinset

/-- The index set of a support holds its indices. -/
lemma mem_indexSet {j : ℕ} : j ∈ indexSet a ↔ j ∈ a := by
  rw [indexSet, List.mem_toFinset, Array.mem_toList_iff]

/-- The index set of a sorted support has as many elements as the support. -/
lemma card_indexSet (ha : a.toList.Pairwise (· < ·)) : (indexSet a).card = a.size := by
  rw [indexSet, List.toFinset_card_of_nodup (ha.imp fun h => h.ne), Array.length_toList]

/-- There is one ascending list for a set. -/
lemma eq_of_indexSet_eq (ha : a.toList.Pairwise (· < ·)) (hb : b.toList.Pairwise (· < ·))
    (h : indexSet a = indexSet b) : a = b := by
  refine Array.toList_inj.1 (ha.eq_of_mem_iff hb fun j => ?_)
  rw [Array.mem_toList_iff, Array.mem_toList_iff, ← mem_indexSet, h, mem_indexSet]

/-- The index set of a merge is the union of the index sets. -/
lemma indexSet_merge (a b : Array ℕ) : indexSet (merge a b) = indexSet a ∪ indexSet b := by
  ext j
  rw [Finset.mem_union, mem_indexSet, mem_indexSet, mem_indexSet, mem_merge]

/-- Merging ascending lists gives the ascending list of all their entries, each of them once. The
operands may be exchanged and brackets set in any way, and two cursors find the same list. -/
theorem merge_union (ha : a.toList.Pairwise (· < ·)) (hb : b.toList.Pairwise (· < ·))
    (hc : c.toList.Pairwise (· < ·)) :
    (merge a b).toList.Pairwise (· < ·) ∧
    (∀ j, j ∈ merge a b ↔ j ∈ a ∨ j ∈ b) ∧
    (merge a b).size + (indexSet a ∩ indexSet b).card = a.size + b.size ∧
    merge a b = merge b a ∧
    merge (merge a b) c = merge a (merge b c) ∧
    merge a b = mergeFrom a b 0 0 #[] := by
  have hab := merge_sorted ha hb
  refine ⟨hab, fun j => mem_merge, ?_, ?_, ?_, merge_eq_mergeFrom a b⟩
  · rw [← card_indexSet hab, ← card_indexSet ha, ← card_indexSet hb, indexSet_merge]
    exact Finset.card_union_add_card_inter _ _
  · refine eq_of_indexSet_eq hab (merge_sorted hb ha) ?_
    rw [indexSet_merge, indexSet_merge, Finset.union_comm]
  · refine eq_of_indexSet_eq (merge_sorted hab hc) (merge_sorted ha (merge_sorted hb hc)) ?_
    rw [indexSet_merge, indexSet_merge, indexSet_merge, indexSet_merge, Finset.union_assoc]

/-- The index 3 is common to all three lists, 9 ends two of them. -/
theorem merge_union_triple :
    (#[0, 3, 7] : Array ℕ).toList.Pairwise (· < ·) ∧
    (#[1, 3, 9] : Array ℕ).toList.Pairwise (· < ·) ∧
    (#[3, 9] : Array ℕ).toList.Pairwise (· < ·) ∧
    merge #[0, 3, 7] #[1, 3, 9] = #[0, 1, 3, 7, 9] ∧
    merge #[1, 3, 9] #[0, 3, 7] = #[0, 1, 3, 7, 9] ∧
    5 + (indexSet #[0, 3, 7] ∩ indexSet #[1, 3, 9]).card = 3 + 3 ∧
    merge #[0, 1, 3, 7, 9] #[3, 9] = merge #[0, 3, 7] (merge #[1, 3, 9] #[3, 9]) ∧
    mergeFrom #[0, 3, 7] #[1, 3, 9] 0 0 #[] = #[0, 1, 3, 7, 9] := by
  have ha : (#[0, 3, 7] : Array ℕ).toList.Pairwise (· < ·) := by decide
  have hb : (#[1, 3, 9] : Array ℕ).toList.Pairwise (· < ·) := by decide
  have hc : (#[3, 9] : Array ℕ).toList.Pairwise (· < ·) := by decide
  have hmerge : merge #[0, 3, 7] #[1, 3, 9] = #[0, 1, 3, 7, 9] := by simp [merge, mergeLists]
  obtain ⟨-, -, hsize, hcomm, hassoc, hcursors⟩ := merge_union ha hb hc
  rw [hmerge] at hsize hcomm hassoc hcursors
  exact ⟨ha, hb, hc, hmerge, hcomm.symm, hsize, hassoc, hcursors.symm⟩

end Support
end CompressedSensing
