import Mathlib
import CompressedSensing.Proofs.Operator.MatrixForm
import CompressedSensing.Proofs.Signal.Supported
/-!
# The restriction of a signal to a support

`restrict x s` keeps the entries of `x` at `s` and sets the others to zero. Thresholding restricts
to the largest entries, and embedding the values that were read at a support restricts to it.
-/

namespace CompressedSensing
namespace Signal

variable {T R : Type} [Scalar T R] {n : ℕ} {x : Signal T} {s : Array ℕ}

/-- The entries at a support, in its order. -/
def valuesAt (x : Signal T) (s : Array ℕ) : Signal T := s.map fun i => x.getD i 0

/-- The entries at a support, with zeros elsewhere. -/
def restrict (x : Signal T) (s : Array ℕ) : Signal T :=
  (scatter (Vector.replicate x.size 0) s (x.valuesAt s)).toArray

@[simp] lemma size_valuesAt (x : Signal T) (s : Array ℕ) : (x.valuesAt s).size = s.size :=
  Array.size_map

@[simp] lemma size_restrict (x : Signal T) (s : Array ℕ) : (x.restrict s).size = x.size :=
  Vector.size_toArray _

/-- Gathering on a valid support reads the values there. -/
lemma gather_eq (hs : Support.Valid x.size s) : x.gather s = .ok (x.valuesAt s) :=
  if_pos hs.inBounds

/-- Embedding the values on a valid support gives the restriction. -/
lemma embed_valuesAt (hs : Support.Valid x.size s) :
    embed x.size s (x.valuesAt s) = .ok (x.restrict s) :=
  if_pos ⟨(size_valuesAt x s).symm, hs.inBounds⟩

lemma threshold_eq_restrict [RealLike R] (x : Signal T) (k : ℕ) :
    x.threshold k = x.restrict (Support.largest x k) := rfl

lemma zeros_eq_ofFn : (zeros n : Signal T) = Array.ofFn (0 : Fin n → T) :=
  Array.ext (by simp [zeros]) (by simp [zeros])

/-- Two signals of one length with the same coordinates are the same. -/
lemma ext_coords {y : Signal T} (hx : x.size = n) (hy : y.size = n)
    (h : ∀ i, coords n x i = coords n y i) : x = y := by
  rw [← ofFn_coords x hx, ← ofFn_coords y hy, funext h]

lemma coords_toArray (v : Vector T n) {i : ℕ} (hi : i < n) :
    coords n v.toArray ⟨i, hi⟩ = v[i] := by
  rw [coords_eq_getElem _ _ (by simpa using hi)]
  exact Vector.getElem_toArray _

/-- The coordinates outside the support are zero. -/
lemma SupportedOn.coords_eq_zero (h : SupportedOn n x s) {i : Fin n} (hi : i.val ∉ s) :
    coords n x i = 0 := by
  have hlt : i.val < x.size := h.size_eq ▸ i.isLt
  rw [coords_eq_getElem x i hlt]
  exact h.eq_zero i hlt hi

/-- A restriction keeps the coordinates on the support and zeroes the others. -/
lemma coords_restrict (hs : Support.Valid n s) (hx : x.size = n) (i : Fin n) :
    coords n (x.restrict s) i = if i.val ∈ s then coords n x i else 0 := by
  subst hx
  unfold restrict
  rw [coords_toArray]
  by_cases hmem : i.val ∈ s
  · -- the value that was read at this index is written there
    rw [if_pos hmem]
    obtain ⟨l, hl, heq⟩ := Array.mem_iff_getElem.1 hmem
    have hvalue := getElem_scatter (Vector.replicate x.size (0 : T)) s (x.valuesAt s) hs.nodup
      (size_valuesAt x s).symm hl (hs.getElem_lt hl)
    simp only [heq] at hvalue
    rw [hvalue]
    simp only [valuesAt, Array.getElem_map, heq]
    rfl
  · rw [if_neg hmem, getElem_scatter_of_notMem _ _ _ i.isLt hmem, Vector.getElem_replicate]

/-- What is written at distinct indices is read there again. -/
lemma eq_valuesAt_of_embed {z : Signal T} (hs : Support.Valid n s) (hz : z.size = s.size)
    (h : embed n s z = .ok x) : z = x.valuesAt s := by
  unfold embed at h
  split at h
  · cases h
    refine Array.ext (by rw [size_valuesAt, hz]) fun l hl hl' => ?_
    have hls : l < s.size := by rwa [size_valuesAt] at hl'
    have hread := getElem_scatter (Vector.replicate n (0 : T)) s z hs.nodup hz.symm hls
      (hs.getElem_lt hls)
    have hlt := hs.getElem_lt hls
    simp [valuesAt, hlt, hread]
  · cases h

lemma getD_restrict (hs : Support.Valid x.size s) (i : ℕ) :
    (x.restrict s).getD i 0 = if i ∈ s then x.getD i 0 else 0 := by
  by_cases hi : i < x.size
  · exact coords_restrict hs rfl ⟨i, hi⟩
  · simp [hi]

/-- The inner one of two nested supports decides what is kept. -/
lemma restrict_restrict {t : Array ℕ} (hs : Support.Valid x.size s) (ht : Support.Valid x.size t)
    (hts : ∀ i ∈ t, i ∈ s) : (x.restrict s).restrict t = x.restrict t := by
  refine ext_coords (n := x.size) (by simp) (by simp) fun i => ?_
  rw [coords_restrict ht (size_restrict x s), coords_restrict ht rfl, coords_restrict hs rfl]
  by_cases hi : i.val ∈ t
  · rw [if_pos hi, if_pos hi, if_pos (hts i hi)]
  · rw [if_neg hi, if_neg hi]

/-- A support around the kept entries drops nothing more. -/
lemma restrict_restrict_of_subset {t : Array ℕ} (hs : Support.Valid x.size s)
    (ht : Support.Valid x.size t) (hst : ∀ i ∈ s, i ∈ t) :
    (x.restrict s).restrict t = x.restrict s := by
  refine ext_coords (n := x.size) (by simp) (by simp) fun i => ?_
  rw [coords_restrict ht (size_restrict x s), coords_restrict hs rfl]
  by_cases hi : i.val ∈ s
  · rw [if_pos hi, if_pos (hst i hi)]
  · rw [if_neg hi, ite_self]

/-- Nothing is lost if the signal vanishes elsewhere. -/
lemma restrict_eq_self (hs : Support.Valid x.size s) (h : ∀ l ∉ s, x.getD l 0 = 0) :
    x.restrict s = x := by
  refine ext_coords (size_restrict x s) rfl fun i => ?_
  rw [coords_restrict hs rfl]
  split
  · rfl
  · rename_i hi
    exact (h i hi).symm

lemma restrict_empty (x : Signal T) : x.restrict #[] = zeros x.size := by
  refine ext_coords (size_restrict x _) (by simp [zeros]) fun i => ?_
  rw [coords_restrict (Support.Ascending.empty _).valid rfl, if_neg (by simp)]
  simp [coords, zeros]

/-- Nothing is left out. -/
lemma restrict_range (x : Signal T) : x.restrict (Array.range x.size) = x := by
  refine ext_coords (size_restrict x _) rfl fun i => ?_
  rw [coords_restrict (Support.Ascending.range _).valid rfl,
    if_pos (Array.mem_range.2 i.isLt)]

open Matrix
open scoped ExactScalar

variable [ExactScalar T]

/-- Reading at a support is the product with its selection. -/
lemma coords_valuesAt (hs : Support.Valid n s) (hx : x.size = n) :
    coords s.size (x.valuesAt s) = Support.selection T s n *ᵥ coords n x := by
  subst hx
  funext i
  rw [Support.selection_mulVec hs, coords_eq_getElem _ i (by simp)]
  exact Array.getElem_map _ _

end Signal
end CompressedSensing
