import Mathlib
import CompressedSensing.Signal.Basic
/-!
# Writing values at a support

What `scatter`, `embed` and `gather` leave in a vector, entry by entry. Writing at distinct
indices puts each value where its index says and touches nothing else; nothing about the scalars
is needed for that.
-/

namespace CompressedSensing
namespace Signal

variable {T : Type} {k : ℕ}

/-- Writes the pairs of a list in order. -/
private def writeAll (x : Vector T k) (l : List (ℕ × T)) : Vector T k :=
  l.foldl (fun x p => x.setIfInBounds p.1 p.2) x

private lemma writeAll_of_notMem (l : List (ℕ × T)) (x : Vector T k) {j : ℕ} (hj : j < k)
    (h : j ∉ l.map Prod.fst) : (writeAll x l)[j] = x[j] := by
  induction l generalizing x with
  | nil => rfl
  | cons p l ih =>
    rw [List.map_cons, List.mem_cons, not_or] at h
    rw [writeAll, List.foldl_cons, ← writeAll, ih _ h.2, Vector.getElem_setIfInBounds_ne]
    exact fun hp => h.1 hp.symm

private lemma writeAll_of_mem (l : List (ℕ × T)) (x : Vector T k) {j : ℕ} {v : T} (hj : j < k)
    (hnd : (l.map Prod.fst).Nodup) (h : (j, v) ∈ l) : (writeAll x l)[j] = v := by
  induction l generalizing x with
  | nil => cases h
  | cons p l ih =>
    rw [List.map_cons, List.nodup_cons] at hnd
    rw [writeAll, List.foldl_cons, ← writeAll]
    rcases List.mem_cons.1 h with rfl | h
    · -- the first pair is not overwritten by the later ones
      rw [writeAll_of_notMem l _ hj hnd.1, Vector.getElem_setIfInBounds_self]
    · exact ih _ hnd.2 h

private lemma scatter_eq_writeAll (x : Vector T k) (support : Array ℕ) (values : Signal T) :
    scatter x support values = writeAll x (support.toList.zip values.toList) := by
  rw [scatter, writeAll, ← Array.foldl_toList, Array.toList_zip]

/-- An entry outside the support stays. -/
theorem getElem_scatter_of_notMem (x : Vector T k) (support : Array ℕ) (values : Signal T)
    {j : ℕ} (hj : j < k) (h : j ∉ support) : (scatter x support values)[j] = x[j] := by
  rw [scatter_eq_writeAll]
  refine writeAll_of_notMem _ _ hj fun hmem => h ?_
  obtain ⟨⟨i, v⟩, hp, rfl⟩ := List.mem_map.1 hmem
  exact Array.mem_toList_iff.1 (List.of_mem_zip hp).1

/-- On distinct indices every value is written to its place. -/
theorem getElem_scatter (x : Vector T k) (support : Array ℕ) (values : Signal T)
    (hnd : support.toList.Nodup) (hsize : support.size = values.size) {i : ℕ}
    (hi : i < support.size) (hk : support[i] < k) :
    (scatter x support values)[support[i]] = values[i] := by
  rw [scatter_eq_writeAll]
  refine writeAll_of_mem _ _ hk ?_ ?_
  · rwa [List.map_fst_zip (by simp [hsize])]
  · rw [List.mem_iff_getElem]
    exact ⟨i, by simp [hi, ← hsize], by simp⟩

end Signal
end CompressedSensing
