import Mathlib
import CompressedSensing.Proofs.Operator.TransformMatrix
import CompressedSensing.Proofs.Recovery.Solving
/-!
# The butterfly in place

A level of the Walsh-Hadamard transform can be run inside its buffer: block after block, pair after
pair, each pair of entries is replaced by its sum and its difference, and every index is checked
against the length of the buffer. No entry belongs to two pairs of a level, so no pair reads what
another one has written, and a level in place is the level that reads the old entries throughout.

For a size that is a power of two all indices are below the size. The transform therefore fails on
a buffer shorter than its size and on no other, which is the check that `run` makes beforehand.
-/

namespace CompressedSensing
namespace WalshHadamard

variable {T R : Type} [Scalar T R] {k n h : ℕ}

/-! ## One level, pair after pair -/

/-- Puts the sum of the entries `i` and `i + h` in place of the one and their difference in place
of the other. -/
def pair (h : ℕ) (x : Vector T k) (i : ℕ) : Except Error (Vector T k) :=
  if hi : i + h < k then
    .ok ((x.set i (x[i] + x[i + h])).set (i + h) (x[i] - x[i + h]))
  else .error .misuse

/-- The lower indices of the pairs at distance `h`: the first half of each block of `2 h`. -/
def lowers (n h : ℕ) : List ℕ :=
  (List.range ((n + 2 * h - 1) / (2 * h))).flatMap fun block => List.range' (block * (2 * h)) h

/-- All levels in place. -/
def inPlace (n : ℕ) (x : Vector T k) : Except Error (Vector T k) :=
  (List.range n.log2).foldlM (fun x l => (lowers n (2 ^ l)).foldlM (pair (2 ^ l)) x) x

/-- A butterfly writes the sum at `i` and the difference at `i + h`, and nothing else. -/
lemma getElem_of_pair {x x' : Vector T k} {i : ℕ} (hi : i + h < k) (hx : pair h x i = .ok x') :
    ∀ j (_ : j < k), x'[j] = if j = i + h then x[i] - x[i + h]
      else if j = i then x[i] + x[i + h] else x[j] := by
  intro j hj
  obtain rfl := Except.ok.inj ((dif_pos hi).symm.trans hx)
  rw [Vector.getElem_set, Vector.getElem_set]
  simp only [eq_comm]

/-- What pairs without a common entry do to an entry, in terms of the entries before all of them. -/
lemma foldlM_pair {lower : List ℕ} (hnodup : lower.Nodup)
    (hapart : ∀ i ∈ lower, ∀ j ∈ lower, i ≠ j + h) (hlt : ∀ i ∈ lower, i + h < k)
    (x : Vector T k) :
    lower.foldlM (pair h) x = .ok (x.mapIdx fun i a =>
      if i ∈ lower then a + x.toArray.getD (i + h) 0
      else if h ≤ i ∧ i - h ∈ lower then x.toArray.getD (i - h) 0 - a
      else a) := by
  induction lower generalizing x with
  | nil =>
    refine congrArg Except.ok (Vector.ext fun j hj => ?_)
    simp
  | cons i rest ih =>
    obtain ⟨hnew, hnodup⟩ := List.nodup_cons.1 hnodup
    simp only [List.forall_mem_cons] at hapart hlt
    obtain ⟨hi, hlt⟩ := hlt
    obtain ⟨x', hx'⟩ : ∃ x', pair h x i = .ok x' := ⟨_, dif_pos hi⟩
    have hentry := getElem_of_pair hi hx'
    rw [List.foldlM_cons, hx', Except.ok_bind, ih hnodup (fun j hj => (hapart.2 j hj).2) hlt]
    have hread {j : ℕ} (hj : j < k) (z : Vector T k) : z.toArray.getD j 0 = z[j] := by simp [hj]
    refine congrArg Except.ok (Vector.ext fun j hj => ?_)
    simp only [Vector.getElem_mapIdx, List.mem_cons]
    -- the entry is the lower or the upper one of the first pair, of a later pair, or of none
    by_cases hlower : j = i
    · have hno : ¬ (h ≤ j ∧ j - h ∈ rest) := fun hj => hapart.1.2 _ hj.2 (by omega)
      rw [if_neg (hlower ▸ hnew), if_neg hno, if_pos (Or.inl hlower), hread (by omega),
        hentry j hj, if_neg (by omega), if_pos hlower]
      simp only [hlower]
    by_cases hupper : j = i + h
    · have hno : j ∉ rest := fun hj => (hapart.2 j hj).1 hupper
      have hno' : j - h ∉ rest := by rwa [hupper, Nat.add_sub_cancel]
      rw [if_neg hno, if_neg fun hj => hno' hj.2, if_neg (by tauto), if_pos (by omega),
        hread (by omega), hentry j hj, if_pos hupper]
      simp only [hupper, Nat.add_sub_cancel]
    by_cases hlater : j ∈ rest
    · have hne : j + h ≠ i := fun e => hapart.1.2 j hlater e.symm
      rw [if_pos hlater, if_pos (Or.inr hlater), hread (hlt j hlater), hread (hlt j hlater),
        hentry j hj, if_neg hupper, if_neg hlower, hentry (j + h) _, if_neg (by omega),
        if_neg hne]
    by_cases hlater' : h ≤ j ∧ j - h ∈ rest
    · have hne : j - h ≠ i + h := (hapart.2 _ hlater'.2).1
      rw [if_neg hlater, if_pos hlater', if_neg (by tauto), if_pos (by tauto), hread (by omega),
        hread (by omega), hentry j hj, if_neg hupper, if_neg hlower, hentry (j - h) _,
        if_neg hne, if_neg (by omega)]
    · have hne : ¬ (h ≤ j ∧ j - h = i) := fun hj => hupper (by omega)
      rw [if_neg hlater, if_neg hlater', if_neg (by tauto), if_neg (by tauto), hentry j hj,
        if_neg hupper, if_neg hlower]

/-- Where an index lies outside the buffer, the level fails. -/
lemma foldlM_pair_fails {lower : List ℕ} (houtside : ∃ i ∈ lower, k ≤ i + h) (x : Vector T k) :
    lower.foldlM (pair h) x = .error .misuse := by
  induction lower generalizing x with
  | nil => simp at houtside
  | cons i rest ih =>
    rw [List.foldlM_cons]
    by_cases hi : i + h < k
    · obtain ⟨x', hx'⟩ : ∃ x', pair h x i = .ok x' := ⟨_, dif_pos hi⟩
      rw [hx', Except.ok_bind]
      obtain ⟨j, hj, hle⟩ := houtside
      rcases List.mem_cons.1 hj with rfl | hj
      · omega
      · exact ih ⟨j, hj, hle⟩ x'
    · have hpair : pair h x i = .error .misuse := dif_neg hi
      rw [hpair]
      rfl

/-! ## The pairs of a level -/

/-- In whole blocks the lower indices are those whose block of `h` has an even number. -/
lemma mem_lowers {c i : ℕ} (hpos : 0 < h) :
    i ∈ lowers (c * (2 * h)) h ↔ i < c * (2 * h) ∧ i / h % 2 = 0 := by
  have hcount : (c * (2 * h) + 2 * h - 1) / (2 * h) = c := by
    rw [Nat.add_sub_assoc (by omega), Nat.mul_comm, Nat.mul_add_div (by omega),
      Nat.div_eq_of_lt (by omega), Nat.add_zero]
  have hsplit : i = i / h / 2 * (2 * h) + i / h % 2 * h + i % h := by
    conv_lhs => rw [← Nat.div_add_mod i h, ← Nat.div_add_mod (i / h) 2]
    ring
  have hmod := Nat.mod_lt i hpos
  rw [lowers, hcount]
  simp only [List.mem_flatMap, List.mem_range, List.mem_range'_1]
  constructor
  · rintro ⟨block, hblock, hle, hlt⟩
    have hdiv : i / h = block * 2 := by
      rw [Nat.div_eq_of_lt_le] <;> nlinarith
    have hend : (block + 1) * (2 * h) ≤ c * (2 * h) := Nat.mul_le_mul_right _ hblock
    exact ⟨by nlinarith, by omega⟩
  · rintro ⟨hi, heven⟩
    rw [heven] at hsplit
    refine ⟨i / h / 2, ?_, by omega, by omega⟩
    rw [Nat.div_div_eq_div_mul, Nat.mul_comm h 2]
    exact Nat.div_lt_of_lt_mul (by rwa [Nat.mul_comm])

/-- No lower index of a pass is visited twice. -/
lemma nodup_lowers (hpos : 0 < h) (n : ℕ) : (lowers n h).Nodup := by
  rw [lowers, List.nodup_flatMap]
  refine ⟨fun block _ => List.nodup_range', ?_⟩
  refine List.pairwise_lt_range.imp fun {block block'} hlt => ?_
  have hstart : (block + 1) * (2 * h) ≤ block' * (2 * h) := Nat.mul_le_mul_right _ hlt
  rw [Function.onFun, List.disjoint_left]
  intro i hi hi'
  rw [List.mem_range'_1] at hi hi'
  nlinarith

/-- In whole blocks the partner of a lower index is in the same block. -/
lemma add_lt_of_even {c i : ℕ} (hpos : 0 < h) (hi : i < c * (2 * h)) (heven : i / h % 2 = 0) :
    i + h < c * (2 * h) := by
  have hblock : i / h < c * 2 := by
    rw [Nat.div_lt_iff_lt_mul hpos]
    linarith
  have hnext : (i + h) / h < c * 2 := by
    rw [Nat.add_div_right _ hpos]
    omega
  rw [Nat.div_lt_iff_lt_mul hpos] at hnext
  linarith

/-- An index that is no lower one is the partner of a lower one. -/
lemma even_sub_of_odd {i : ℕ} (hpos : 0 < h) (hodd : ¬ i / h % 2 = 0) :
    h ≤ i ∧ (i - h) / h % 2 = 0 := by
  have hle : h ≤ i := by
    by_contra hlt
    exact hodd (by rw [Nat.div_eq_of_lt (by omega)])
  rw [← Nat.sub_add_cancel hle, Nat.add_div_right _ hpos] at hodd
  exact ⟨hle, by omega⟩

/-- A level in place is a level. -/
lemma foldlM_pair_eq_level {c : ℕ} (hpos : 0 < h) (hk : c * (2 * h) ≤ k) (x : Vector T k) :
    (lowers (c * (2 * h)) h).foldlM (pair h) x = .ok (level (c * (2 * h)) h x) := by
  rw [foldlM_pair (nodup_lowers hpos _)]
  · refine congrArg Except.ok (Vector.ext fun i hi => ?_)
    simp only [level, Vector.getElem_mapIdx, mem_lowers hpos]
    by_cases hin : i < c * (2 * h)
    · rw [if_pos hin]
      by_cases heven : i / h % 2 = 0
      · rw [if_pos ⟨hin, heven⟩, if_pos heven]
      · obtain ⟨hle, hlower⟩ := even_sub_of_odd hpos heven
        rw [if_neg (by tauto), if_pos ⟨hle, by omega, hlower⟩, if_neg heven]
    · -- entries past the last block belong to no pair
      have hno : ¬ (h ≤ i ∧ i - h < c * (2 * h) ∧ (i - h) / h % 2 = 0) := by
        rintro ⟨hle, hlt, heven⟩
        have := add_lt_of_even hpos hlt heven
        omega
      rw [if_neg (by tauto), if_neg hno, if_neg hin]
  · -- two lower indices at distance `h` would be in blocks of different parity
    intro i hi j hj e
    rw [mem_lowers hpos] at hi hj
    rw [e, Nat.add_div_right _ hpos] at hi
    omega
  · intro i hi
    rw [mem_lowers hpos] at hi
    exact (add_lt_of_even hpos hi.1 hi.2).trans_le hk

/-! ## All levels -/

/-- Below the logarithm of the size the levels split the entries into whole blocks. -/
lemma size_eq_blocks (t : WalshHadamard) {l : ℕ} (hl : l < t.size.log2) :
    t.size = 2 ^ (t.size.log2 - (l + 1)) * (2 * 2 ^ l) := by
  conv_lhs => rw [t.size_eq]
  rw [← pow_succ', ← pow_add]
  congr 1
  omega

/-- On a buffer that holds all entries the levels in place are the levels. -/
lemma inPlace_eq (t : WalshHadamard) (hk : t.size ≤ k) (x : Vector T k) :
    inPlace t.size x = .ok (butterfly t.size x) := by
  have hlevels (m : ℕ) (hm : m ≤ t.size.log2) :
      (List.range m).foldlM (fun x l => (lowers t.size (2 ^ l)).foldlM (pair (2 ^ l)) x) x
        = .ok (levels t.size m x) := by
    induction m with
    | zero => rfl
    | succ m ih =>
      have hsize := t.size_eq_blocks hm
      rw [List.range_succ, List.foldlM_append, ih (by omega), Except.ok_bind, levels_succ,
        List.foldlM_cons]
      rw [hsize] at hk ⊢
      rw [foldlM_pair_eq_level (Nat.two_pow_pos m) hk]
      rfl
  exact hlevels _ le_rfl

/-- Where an entry is missing the first level runs into it. -/
lemma inPlace_fails (t : WalshHadamard) (hsize : 1 < t.size) (hk : k < t.size)
    (x : Vector T k) : inPlace t.size x = .error .misuse := by
  have hlog : 0 < t.size.log2 := by
    rw [Nat.pos_iff_ne_zero]
    intro h0
    have := t.size_eq
    rw [h0, pow_zero] at this
    omega
  have hblocks := t.size_eq_blocks hlog
  obtain ⟨m, hm⟩ := Nat.exists_eq_succ_of_ne_zero hlog.ne'
  -- its last pair is at the end of the entries
  have hlast : ∃ i ∈ lowers t.size (2 ^ 0), k ≤ i + 2 ^ 0 := by
    refine ⟨t.size - 2, ?_, by omega⟩
    rw [hblocks, mem_lowers (Nat.two_pow_pos 0)]
    constructor <;> omega
  rw [inPlace, hm, List.range_succ_eq_map, List.foldlM_cons, foldlM_pair_fails hlast]
  rfl

/-- The transform is a copy, the levels in place and the scaling, with an index check at every
pair and no other. -/
theorem run_eq_inPlace {W : Type} [Trigonometric W] [Precision R W]
    (t : WalshHadamard) (x : Signal T) (y : Vector T k) :
    t.run (W := W) x y = do
      let y ← inPlace t.size (← copyInto x y)
      return y.map (· * factor (W := W) t.size) := by
  unfold run
  refine Except.bind_congr fun z _ => ?_
  by_cases hfails : 1 < t.size ∧ k < t.size
  · rw [if_pos hfails, t.inPlace_fails hfails.1 hfails.2]
    rfl
  · rw [if_neg hfails]
    have hlevels : inPlace t.size z = .ok (butterfly t.size z) := by
      by_cases hk : t.size ≤ k
      · exact t.inPlace_eq hk z
      · -- a single entry has no levels
        have hpos : 0 < t.size := t.size_eq ▸ Nat.two_pow_pos _
        have hone : t.size = 1 := by omega
        rw [inPlace, butterfly, hone]
        rfl
    rw [hlevels]
    rfl

end WalshHadamard
end CompressedSensing
