import Mathlib
import CompressedSensing.Proofs.Signal.Scatter
import CompressedSensing.Proofs.Support.Selection
/-!
# Signals on a support

`SupportedOn n x s` says that `x` has length `n` and vanishes outside the ascending support `s`.
The zero signal, an embedded signal and a thresholded signal are like that, over any scalars:
what is written outside of a support is the literal zero.
-/

namespace CompressedSensing

variable {T R : Type} [Scalar T R] {n : ℕ}

namespace Signal

/-- A signal of length `n` that is zero outside an ascending support. -/
structure SupportedOn (n : ℕ) (x : Signal T) (s : Array ℕ) : Prop where
  size_eq : x.size = n
  ascending : Support.Ascending n s
  eq_zero : ∀ (j : ℕ) (hj : j < x.size), j ∉ s → x[j] = 0

lemma SupportedOn.getD_eq_zero {x : Signal T} {s : Array ℕ} (h : SupportedOn n x s) {l : ℕ}
    (hl : l ∉ s) : x.getD l 0 = 0 := by
  by_cases hlt : l < x.size
  · rw [← h.eq_zero l hlt hl]
    simp [hlt]
  · simp [hlt]

lemma zeros_supportedOn (n : ℕ) : SupportedOn n (zeros n : Signal T) #[] where
  size_eq := by simp [zeros]
  ascending := Support.Ascending.empty n
  eq_zero j hj _ := by simp [zeros]

/-- A scatter into zeros is supported on its indices. -/
lemma scatter_supportedOn {s : Array ℕ} (hs : Support.Ascending n s) (v : Signal T) :
    SupportedOn n (scatter (Vector.replicate n 0) s v).toArray s where
  size_eq := by simp
  ascending := hs
  eq_zero j hj hjs := by
    have hjn : j < n := by simpa using hj
    rw [Vector.getElem_toArray, getElem_scatter_of_notMem _ _ _ hjn hjs, Vector.getElem_replicate]

/-- An embedded signal is supported on its indices. -/
lemma embed_supportedOn {s : Array ℕ} {v x : Signal T} (hs : Support.Ascending n s)
    (h : embed n s v = .ok x) : SupportedOn n x s := by
  unfold embed at h
  split at h
  · rw [Except.ok.injEq] at h
    rw [← h]
    exact scatter_supportedOn hs v
  · cases h

/-! ## Hard thresholding -/

variable [RealLike R]

/-- A thresholded signal is supported on the indices it keeps. -/
lemma hardThreshold_supportedOn (x : Signal T) (k : ℕ) :
    SupportedOn x.size (hardThreshold x k).toDense (hardThreshold x k).indices := by
  unfold Thresholded.toDense
  exact scatter_supportedOn (Support.largest_ascending x k) _

/-- The dense form is what `embed` writes: no index is out of range, and each has its value. -/
lemma embed_hardThreshold (x : Signal T) (k : ℕ) :
    embed (hardThreshold x k).length (hardThreshold x k).indices (hardThreshold x k).values
      = .ok (hardThreshold x k).toDense := by
  have hbounds : inBounds (hardThreshold x k).indices (hardThreshold x k).length = true :=
    Array.all_eq_true'.2 fun j hj => decide_eq_true ((Support.largest_ascending x k).lt j hj)
  exact if_pos ⟨(Array.size_map).symm, hbounds⟩

/-- A threshold keeps `k` indices, or all of a shorter signal. -/
lemma size_hardThreshold_indices (x : Signal T) (k : ℕ) :
    (hardThreshold x k).indices.size = min k x.size :=
  Support.size_largest x k

end Signal

end CompressedSensing
