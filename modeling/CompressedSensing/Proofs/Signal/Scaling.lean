import Mathlib
import CompressedSensing.Proofs.Scalar.Normed
import CompressedSensing.Proofs.Signal.Energy
import CompressedSensing.Proofs.Signal.Restriction
/-!
# Multiples of signals

How the operations on signals respond to a common factor. Sums, values at a support and embeddings
are multiplied by it, squared norms by its squared modulus. The ranking of the entries does not
change unless the factor is zero, so the same entries are selected.
-/

namespace CompressedSensing

open Reals
open scoped ExactScalar

namespace Signal

section

variable {T R : Type} [Scalar T R] [ExactScalar T] {n : ℕ} (a : T)

omit [ExactScalar T] in
/-- Scaling keeps the length. -/
@[simp] lemma size_scale (x : Signal T) : (scale a x).size = x.size := Array.size_map

/-- An entry of the scaled signal is the entry times the factor, also past the end. -/
lemma getD_scale (x : Signal T) (i : ℕ) : (scale a x).getD i 0 = x.getD i 0 * a := by
  by_cases hi : i < x.size
  · simp [scale, hi]
  · simp [scale, hi]

/-- Scaling a signal scales its coordinates. -/
lemma coords_scale (x : Signal T) : coords n (scale a x) = a • coords n x := by
  funext i
  rw [Pi.smul_apply, smul_eq_mul, mul_comm]
  exact getD_scale a x i

lemma scale_ofFn (v : Fin n → T) : scale a (Array.ofFn v) = Array.ofFn (a • v) := by
  have hsize : (scale a (Array.ofFn v)).size = n := (size_scale a _).trans Array.size_ofFn
  refine ext_coords hsize Array.size_ofFn fun i => ?_
  rw [coords_scale, coords_ofFn, coords_ofFn]

/-- Scaling keeps the zero signal. -/
@[simp] lemma scale_zeros : scale a (zeros n : Signal T) = zeros n := by
  simp [scale, zeros]

/-- Scaling twice is scaling by the product. -/
lemma scale_scale (b : T) (x : Signal T) : scale a (scale b x) = scale (b * a) x := by
  simp [scale, Function.comp_def, mul_assoc]

@[simp] lemma scale_one (x : Signal T) : scale 1 x = x := by
  simp [scale]

omit [ExactScalar T] in
/-- What combines entries to their multiples combines signals to theirs. -/
lemma zipWith_scale {f g : T → T → T} {b c : T} (x y : Signal T)
    (h : ∀ u v, f (u * b) (v * c) = g u v * a) :
    Array.zipWith f (scale b x) (scale c y) = scale a (Array.zipWith g x y) := by
  unfold scale
  rw [Array.zipWith_map, Array.map_zipWith]
  exact congrArg (fun w => Array.zipWith w x y) (funext fun u => funext fun v => h u v)

/-! ## Supports -/

/-- The values read on a support scale with the signal. -/
lemma valuesAt_scale (x : Signal T) (s : Array ℕ) :
    (scale a x).valuesAt s = scale a (x.valuesAt s) := by
  simp only [valuesAt, getD_scale]
  simp only [scale, Array.map_map, Function.comp_def]

/-- A gather that succeeds succeeds on the scaled signal, with the scaled values. -/
lemma gather_scale {x v : Signal T} {s : Array ℕ} (h : x.gather s = .ok v) :
    (scale a x).gather s = .ok (scale a v) := by
  unfold gather at h ⊢
  rw [size_scale]
  split at h
  · rename_i hs
    cases h
    rw [if_pos hs]
    exact congrArg _ (valuesAt_scale a x s)
  · cases h

omit [ExactScalar T] in
/-- Scattering scaled values into a scaled vector scales the result. -/
lemma scatter_map (s : Array ℕ) (v : Signal T) (x : Vector T n) :
    scatter (x.map (· * a)) s (scale a v) = (scatter x s v).map (· * a) := by
  unfold scatter
  rw [scale, Array.zip_map_right, ← Array.foldl_toList, ← Array.foldl_toList, Array.toList_map]
  -- value by value
  generalize (s.zip v).toList = l
  induction l generalizing x with
  | nil => rfl
  | cons p l ih =>
    simp only [List.map_cons, List.foldl_cons, Prod.map_fst, Prod.map_snd, id_eq]
    rw [← ih, Vector.map_setIfInBounds]

/-- Scattering scaled values into zeros scales the result. -/
lemma scatter_scale (n : ℕ) (s : Array ℕ) (v : Signal T) :
    (scatter (Vector.replicate n 0) s (scale a v)).toArray
      = scale a (scatter (Vector.replicate n 0) s v).toArray := by
  have hzero : Vector.replicate n (0 : T) = (Vector.replicate n 0).map (· * a) := by simp
  conv_lhs => rw [hzero, scatter_map, Vector.toArray_map]
  rfl

/-- An embedding that succeeds succeeds on the scaled values, with the scaled signal. -/
lemma embed_scale {s : Array ℕ} {v x : Signal T} (h : embed n s v = .ok x) :
    embed n s (scale a v) = .ok (scale a x) := by
  unfold embed at h ⊢
  rw [size_scale]
  split at h
  · rename_i hs
    cases h
    rw [if_pos hs, scatter_scale]
  · cases h

end

variable {T : Type} [Scalar T ℝ] [NormedScalar T] {a : T}

/-- The squared norm scales with the squared modulus of the factor. -/
lemma normSq_scale (a : T) (x : Signal T) :
    (normSq (scale a x) : ℝ) = Scalar.normSq a * normSq x := by
  rw [normSq_eq_energy (size_scale a x), normSq_eq_energy rfl, coords_scale, energy_smul]

end Signal

/-! ## Rankings -/

variable {T : Type} [Scalar T ℝ] [NormedScalar T] {a : T}

namespace Support

/-- A positive factor on both keys keeps the order of two candidates. -/
lemma ranksBefore_mul {c : ℝ} (hc : 0 < c) (i j : ℕ) (u v : ℝ) :
    ranksBefore (i, u * c) (j, v * c) = ranksBefore (i, u) (j, v) := by
  have hlt (s t : ℝ) : RealLike.lt (s * c) (t * c) = RealLike.lt s t :=
    decide_eq_decide.2 (mul_lt_mul_iff_left₀ hc)
  show (RealLike.lt (v * c) (u * c) || (!RealLike.lt (u * c) (v * c) && decide (i ≤ j)))
    = (RealLike.lt v u || (!RealLike.lt u v && decide (i ≤ j)))
  rw [hlt, hlt]

/-- A common factor does not change what is selected. -/
lemma select_scale (ha : a ≠ 0) (x : Signal T) (k : ℕ) (candidates : List ℕ) :
    select (Signal.scale a x) k candidates = select x k candidates := by
  -- the sorted keys differ in the factor of their moduli alone
  have hkeys : candidates.map (fun i => (i, (Scalar.modulus ((Signal.scale a x).getD i 0) : ℝ)))
      = (candidates.map fun i => (i, (Scalar.modulus (x.getD i 0) : ℝ))).map
        fun p => (p.1, p.2 * Scalar.modulus a) := by
    rw [List.map_map]
    refine List.map_congr_left fun i _ => ?_
    rw [Signal.getD_scale, NormedScalar.modulus_mul]
    rfl
  have hrank : ∀ p q : ℕ × ℝ, ranksBefore p q
      = ranksBefore (p.1, p.2 * Scalar.modulus a) (q.1, q.2 * Scalar.modulus a) :=
    fun p q => (ranksBefore_mul (NormedScalar.modulus_pos ha) p.1 q.1 p.2 q.2).symm
  unfold select
  dsimp only
  rw [hkeys, ← List.map_mergeSort (r := ranksBefore) fun p _ q _ => hrank p q, ← List.map_take,
    List.map_map]
  rfl

/-- A nonzero factor keeps the largest entries. -/
lemma largest_scale (ha : a ≠ 0) (x : Signal T) (k : ℕ) :
    largest (Signal.scale a x) k = largest x k := by
  rw [largest, Signal.size_scale, select_scale ha]
  rfl

/-- A nonzero factor keeps the largest entries outside a support. -/
lemma largestExcluding_scale (ha : a ≠ 0) (x : Signal T) (k : ℕ) (s : Array ℕ) :
    largestExcluding (Signal.scale a x) k s = largestExcluding x k s := by
  rw [largestExcluding, Signal.size_scale, select_scale ha]
  rfl

end Support

/-! ## Hard thresholding -/

/-- The multiple of a sparse signal. -/
def Thresholded.scale {T R : Type} [Scalar T R] (a : T) (t : Thresholded T) : Thresholded T where
  indices := t.indices
  values := Signal.scale a t.values
  length := t.length

/-- Scaling the kept values scales the dense signal. -/
lemma Thresholded.toDense_scale {T R : Type} [Scalar T R] [ExactScalar T] (a : T)
    (t : Thresholded T) : (t.scale a).toDense = Signal.scale a t.toDense :=
  Signal.scatter_scale a t.length t.indices t.values

/-- Thresholding commutes with a nonzero factor. -/
lemma Signal.hardThreshold_scale (ha : a ≠ 0) (x : Signal T) (k : ℕ) :
    hardThreshold (scale a x) k = (hardThreshold x k).scale a := by
  unfold hardThreshold
  dsimp only
  rw [Support.largest_scale ha, size_scale]
  exact congrArg (Thresholded.mk _ · _) (valuesAt_scale a x _)

end CompressedSensing
