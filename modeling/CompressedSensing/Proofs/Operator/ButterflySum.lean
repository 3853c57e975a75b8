import Mathlib
import CompressedSensing.Ensemble.Basis
import CompressedSensing.Proofs.Scalar.Exact
/-!
# What the butterfly computes

The levels of the Walsh-Hadamard transform are local: each combines entries whose indices differ
in one bit. After `l` levels entry `i` holds the signed sum of its block of `2 ^ l` entries, where
entry `j` of the block has the sign `(-1)^popcount(i AND j)`, the bits counted below `l`. One more
level joins two neighbouring blocks, with the opposite sign on the upper one where bit `l` of `i`
is set. After all levels there is one block, and the sum is the product with a symmetric matrix of
signs.
-/

namespace CompressedSensing

open scoped ExactScalar

namespace Basis

variable {T R : Type} [Scalar T R]

/-! ## Parity, from the other end -/

/-- The parity of one more bit, added at the top. -/
lemma oddParity_succ (l n : ℕ) : oddParity (l + 1) n = (oddParity l n ^^ n.testBit l) := by
  induction l generalizing n with
  | zero => simp [oddParity, Nat.testBit_zero, Bool.beq_eq_decide_eq]
  | succ l ih => rw [oddParity, ih, oddParity, Nat.testBit_add_one, Bool.xor_assoc]

/-- The parity of the low bits depends on the low bits. -/
lemma oddParity_congr {l n m : ℕ} (h : ∀ t < l, n.testBit t = m.testBit t) :
    oddParity l n = oddParity l m := by
  induction l with
  | zero => rfl
  | succ l ih =>
    rw [oddParity_succ, oddParity_succ, ih fun t ht => h t (by omega), h l (by omega)]

/-- The sign `(-1)^popcount(n)`, with the bits of `n` counted below `l`. -/
def sign (T : Type) {R : Type} [Scalar T R] (l n : ℕ) : T := if oddParity l n then -1 else 1

/-- Signs are real. -/
@[simp] lemma conj_sign [ExactScalar T] (l n : ℕ) : Scalar.conj (sign T l n) = sign T l n := by
  show star (sign T l n) = sign T l n
  rw [sign]
  split
  · rw [star_neg, star_one]
  · rw [star_one]

/-- In the lower half of a block the top bit of `i` has no say. -/
lemma sign_and_lower {l j : ℕ} (i : ℕ) (hj : j < 2 ^ l) :
    sign T (l + 1) (i &&& j) = sign T l (i &&& j) := by
  rw [sign, sign, oddParity_succ, Nat.testBit_and, Nat.testBit_lt_two_pow hj, Bool.and_false,
    Bool.xor_false]

/-- In the upper half of a block the sign turns where the top bit of `i` is set. -/
lemma sign_and_upper [ExactScalar T] {l j : ℕ} (i : ℕ) (hj : j < 2 ^ l) :
    sign T (l + 1) (i &&& (2 ^ l + j))
      = if i.testBit l then -sign T l (i &&& j) else sign T l (i &&& j) := by
  have hlow : oddParity l (i &&& (2 ^ l + j)) = oddParity l (i &&& j) :=
    oddParity_congr fun t ht => by
      rw [Nat.testBit_and, Nat.testBit_and, Nat.testBit_two_pow_add_gt ht]
  rw [sign, sign, oddParity_succ, hlow, Nat.testBit_and, Nat.testBit_two_pow_add_eq,
    Nat.testBit_lt_two_pow hj, Bool.not_false, Bool.and_true]
  cases i.testBit l <;> cases oddParity l (i &&& j) <;> simp

/-- The sign within a block does not see the bits that number the block. -/
lemma sign_two_pow_add_and (l i j : ℕ) :
    sign T l ((2 ^ l + i) &&& j) = sign T l (i &&& j) := by
  rw [sign, sign, oddParity_congr fun t ht => ?_]
  rw [Nat.testBit_and, Nat.testBit_and, Nat.testBit_two_pow_add_gt ht]

end Basis

namespace WalshHadamard

variable {T R : Type} [Scalar T R]

/-! ## Levels -/

/-- The first `l` levels. -/
def levels {k : ℕ} (n l : ℕ) (x : Vector T k) : Vector T k :=
  (List.range l).foldl (fun x l => level n (2 ^ l) x) x

/-- One level more is one more pass, with twice the distance. -/
lemma levels_succ {k : ℕ} (n l : ℕ) (x : Vector T k) :
    levels n (l + 1) x = level n (2 ^ l) (levels n l x) := by
  rw [levels, List.range_succ, List.foldl_append]
  rfl

/-! ## Blocks -/

variable [ExactScalar T]

/-- The signed sum of the block of `2 ^ l` entries around `i`. -/
def blockSum (x : ℕ → T) (l i : ℕ) : T :=
  ∑ j ∈ Finset.range (2 ^ l), Basis.sign T l (i &&& j) * x (i / 2 ^ l * 2 ^ l + j)

/-- A block and the next one make up a block of twice the size. -/
lemma blockSum_succ (x : ℕ → T) (l i : ℕ) (h : i / 2 ^ l % 2 = 0) :
    blockSum x (l + 1) i = blockSum x l i + blockSum x l (2 ^ l + i) := by
  have hbit : i.testBit l = false := by
    rw [Nat.testBit_eq_decide_div_mod_eq]; simp [h]
  have hblock : i / 2 ^ (l + 1) * 2 ^ (l + 1) = i / 2 ^ l * 2 ^ l := by
    rw [pow_succ, ← Nat.div_div_eq_div_mul, ← mul_assoc, mul_right_comm, Nat.div_mul_cancel]
    exact Nat.dvd_of_mod_eq_zero h
  have hnext : (2 ^ l + i) / 2 ^ l * 2 ^ l = i / 2 ^ l * 2 ^ l + 2 ^ l := by
    rw [Nat.add_div_left _ (Nat.two_pow_pos l), add_mul, one_mul]
  rw [blockSum, hblock, pow_succ, mul_two, Finset.sum_range_add, blockSum, blockSum, hnext]
  congr 1
  · refine Finset.sum_congr rfl fun j hj => ?_
    rw [Basis.sign_and_lower i (Finset.mem_range.1 hj)]
  · refine Finset.sum_congr rfl fun j hj => ?_
    rw [Basis.sign_and_upper i (Finset.mem_range.1 hj), hbit, Basis.sign_two_pow_add_and, add_assoc]
    rfl

/-- The same for an index in the upper block, where the upper block has the opposite sign. -/
lemma blockSum_succ_upper (x : ℕ → T) (l i : ℕ) (h : i / 2 ^ l % 2 = 0) :
    blockSum x (l + 1) (2 ^ l + i) = blockSum x l i - blockSum x l (2 ^ l + i) := by
  have hbit : (2 ^ l + i).testBit l = true := by
    rw [Nat.testBit_two_pow_add_eq, Nat.testBit_eq_decide_div_mod_eq]; simp [h]
  have hdiv : (2 ^ l + i) / 2 ^ l = i / 2 ^ l + 1 := Nat.add_div_left _ (Nat.two_pow_pos l)
  have hblock : (2 ^ l + i) / 2 ^ (l + 1) * 2 ^ (l + 1) = i / 2 ^ l * 2 ^ l := by
    have hhalf : (i / 2 ^ l + 1) / 2 * 2 = i / 2 ^ l := by omega
    rw [pow_succ, ← Nat.div_div_eq_div_mul, hdiv, mul_comm (2 ^ l) 2, ← mul_assoc, hhalf]
  rw [blockSum, hblock, pow_succ, mul_two, Finset.sum_range_add, blockSum, blockSum, hdiv,
    add_mul, one_mul, sub_eq_add_neg, ← Finset.sum_neg_distrib]
  congr 1
  · refine Finset.sum_congr rfl fun j hj => ?_
    rw [Basis.sign_and_lower _ (Finset.mem_range.1 hj), Basis.sign_two_pow_add_and]
  · refine Finset.sum_congr rfl fun j hj => ?_
    rw [Basis.sign_and_upper _ (Finset.mem_range.1 hj), if_pos hbit, neg_mul, add_assoc]

/-! ## The sums that the levels compute -/

/-- The stage invariant: after `l` levels every entry is the signed sum of its block. -/
lemma getElem_levels {m l : ℕ} (hl : l ≤ m) (x : Vector T (2 ^ m)) (i : ℕ) (hi : i < 2 ^ m) :
    (levels (2 ^ m) l x)[i] = blockSum (fun t => x.toArray.getD t 0) l i := by
  induction l generalizing i with
  | zero => simp [levels, blockSum, Basis.sign, Basis.oddParity, hi]
  | succ l ih =>
    specialize ih (by omega)
    have hpos := Nat.two_pow_pos l
    have hm : 2 ^ m = 2 ^ (m - (l + 1)) * 2 * 2 ^ l := by
      rw [mul_assoc, ← pow_succ', ← pow_add]; congr 1; omega
    rw [levels_succ, level, Vector.getElem_mapIdx, if_pos hi]
    by_cases hbit : i / 2 ^ l % 2 = 0
    · -- the number of blocks is even, so the next block is still inside
      have hnext : 2 ^ l + i < 2 ^ m := by
        have hlt : i / 2 ^ l < 2 ^ (m - (l + 1)) * 2 := by
          rw [Nat.div_lt_iff_lt_mul hpos, ← hm]; exact hi
        have hlt' : i / 2 ^ l + 1 < 2 ^ (m - (l + 1)) * 2 := by omega
        rw [hm, ← Nat.div_lt_iff_lt_mul hpos, Nat.add_div_left _ hpos]
        exact hlt'
      rw [if_pos hbit, blockSum_succ _ l i hbit, ih i hi, ← ih _ hnext]
      simp [Nat.add_comm i, hnext]
    · -- `i` is `2 ^ l` above an index of the lower block
      obtain ⟨j, rfl⟩ : ∃ j, i = 2 ^ l + j := by
        refine Nat.exists_eq_add_of_le (Nat.le_of_not_lt fun hlt => hbit ?_)
        rw [Nat.div_eq_of_lt hlt]
      have hj : j / 2 ^ l % 2 = 0 := by
        rw [Nat.add_div_left _ hpos] at hbit; omega
      have hjm : j < 2 ^ m := by omega
      rw [if_neg hbit, blockSum_succ_upper _ l j hj, ih _ hi, ← ih _ hjm]
      simp [hjm]

/-- All levels together sum over all entries. -/
theorem getElem_butterfly {m : ℕ} (x : Vector T (2 ^ m)) {i : ℕ} (hi : i < 2 ^ m) :
    (butterfly (2 ^ m) x)[i] = ∑ j : Fin (2 ^ m), Basis.sign T m (i &&& j) * x[j] := by
  have h : (butterfly (2 ^ m) x)[i] = blockSum (fun t => x.toArray.getD t 0) m i := by
    rw [butterfly, Nat.log2_two_pow]
    exact getElem_levels le_rfl x i hi
  rw [h, blockSum, Nat.div_eq_of_lt hi, Finset.sum_range]
  refine Finset.sum_congr rfl fun j _ => ?_
  simp

end WalshHadamard
end CompressedSensing
