import Mathlib
import CompressedSensing.Proofs.Operator.TransformMatrix
import CompressedSensing.Proofs.Recovery.Solving
import CompressedSensing.Proofs.Scalar.Reals
/-!
# Circular convolutions commute

A circular convolution is the product with a circulant matrix: its entry `(i, j)` is the entry
`(i - j) mod n` of the kernel, which is zero behind the kernel's end. Circulant matrices commute and
their product is circulant again, so two convolutions one after the other are a single one. Its
kernel has the entries `p_i = Σ h_l g_q` over the pairs with `l + q ≡ i (mod n)`; for kernels
shorter than the signal the indices that are missing contribute nothing.
-/

namespace CompressedSensing

open Matrix
open scoped ExactScalar

variable {T R : Type} [Scalar T R] [ExactScalar T] {n : ℕ}

namespace Signal

/-- The one entry at a given index, zero behind the end. -/
lemma sum_ite_eq_getD (x : Signal T) (d : ℕ) :
    ∑ l : Fin x.size, (if d = l.val then x[l] else 0) = x.getD d 0 := by
  by_cases hd : d < x.size
  · rw [Finset.sum_eq_single ⟨d, hd⟩]
    · simp [hd]
    · intro l _ hne
      exact if_neg fun e => hne (Fin.ext e.symm)
    · simp
  · rw [Finset.sum_eq_zero fun l _ => if_neg fun e : d = l.val => hd (e ▸ l.isLt)]
    simp [hd]

/-- A sum over the entries of a shorter signal reaches no further than the signal. -/
lemma sum_mul_coords {x : Signal T} (hx : x.size ≤ n) (f : ℕ → T) :
    ∑ k : Fin n, f k * coords n x k = ∑ q : Fin x.size, f q * x[q] := by
  have hentry (q : Fin x.size) : f q * x[q] = f q * x.getD q 0 := by simp
  show ∑ k : Fin n, f k * x.getD k 0 = _
  rw [Finset.sum_congr rfl fun q _ => hentry q,
    Fin.sum_univ_eq_sum_range (fun k => f k * x.getD k 0),
    Fin.sum_univ_eq_sum_range (fun k => f k * x.getD k 0)]
  symm
  refine Finset.sum_subset (Finset.range_mono hx) fun k _ hk => ?_
  rw [Finset.mem_range] at hk
  simp [hk]

end Signal

/-- One operator after the other. -/
lemma Operator.HasMatrix.times_bind_times {a b : Operator T} {N M : Matrix (Fin n) (Fin n) T}
    (ha : a.HasMatrix N) (hb : b.HasMatrix M) {x : Signal T} (hx : x.size = n)
    (y z : Vector T n) :
    (b.times x y >>= fun v => a.times v.toArray z)
      = .ok (Vector.ofFn ((N * M) *ᵥ Signal.coords n x)) := by
  rw [hb.times_eq x y hx, Except.ok_bind, ha.times_eq _ z (Vector.size_toArray _),
    Signal.coords_toArray_ofFn, mulVec_mulVec]

namespace CircularConvolution

/-! ## Circulant matrices -/

/-- The circulant matrix of a kernel, which is padded with zeros: entry `(i, j)` is the entry
`(i - j) mod n` of the kernel. -/
def circulantMatrix (n : ℕ) (h : Signal T) : Matrix (Fin n) (Fin n) T :=
  of fun i j => h.getD ((i.val + n - j.val) % n) 0

/-- The kernel of two convolutions in a row: entry `i` is the sum of the products `h_l g_q` with
`l + q ≡ i (mod n)`. -/
def cyclicProduct (n : ℕ) (h g : Signal T) : Signal T :=
  Array.ofFn fun i : Fin n =>
    ∑ p : Fin h.size × Fin g.size with p.1.val + p.2.val ≡ i.val [MOD n], h[p.1] * g[p.2]

omit [ExactScalar T] in
/-- The matrix of a kernel is the circulant one of its coordinates. -/
lemma circulantMatrix_eq_circulant (n : ℕ) (h : Signal T) :
    circulantMatrix n h = circulant (Signal.coords n h) := by
  ext i j
  show h.getD ((i.val + n - j.val) % n) 0 = h.getD (i - j).val 0
  have hj := j.isLt
  rw [Fin.sub_def]
  congr 2
  omega

/-- The shifts that take `j` to `i` are a single one, by `(i - j) mod n`. -/
lemma shiftMatrix_eq_circulantMatrix (c : CircularConvolution T) :
    c.shiftMatrix = circulantMatrix c.length c.kernel := by
  ext i j
  rw [shiftMatrix, circulantMatrix, of_apply, of_apply, ← Signal.sum_ite_eq_getD]
  refine Finset.sum_congr rfl fun l _ => ?_
  have hl : l.val < c.length := l.isLt.trans_le c.fits
  have hshift : (i.val + c.length - l.val) % c.length = j
      ↔ (i.val + c.length - j.val) % c.length = l := by
    rw [mod_eq_iff hl.le i.isLt j.isLt, mod_eq_iff j.isLt.le i.isLt hl, Nat.add_comm]
  rw [Signal.coords_eq_getElem _ l l.isLt]
  exact if_congr hshift rfl rfl

/-- A circular convolution has the circulant matrix of its kernel. -/
lemma hasMatrix_circulantMatrix (c : CircularConvolution T) :
    c.toOperator.HasMatrix (circulantMatrix c.length c.kernel) :=
  c.shiftMatrix_eq_circulantMatrix ▸ c.hasMatrix

/-! ## Products -/

/-- The circulant matrix of one kernel maps the other kernel to the cyclic product. -/
lemma circulantMatrix_mulVec {h g : Signal T} (hh : h.size ≤ n) (hg : g.size ≤ n) :
    circulantMatrix n h *ᵥ Signal.coords n g = Signal.coords n (cyclicProduct n h g) := by
  funext i
  rw [cyclicProduct, Signal.coords_ofFn, Finset.sum_filter, Fintype.sum_prod_type_right]
  show ∑ k : Fin n, h.getD ((i.val + n - k.val) % n) 0 * Signal.coords n g k = _
  rw [Signal.sum_mul_coords hg fun k => h.getD ((i.val + n - k) % n) 0]
  refine Finset.sum_congr rfl fun q _ => ?_
  rw [← Signal.sum_ite_eq_getD, Finset.sum_mul]
  refine Finset.sum_congr rfl fun l _ => ?_
  have hq : q.val < n := q.isLt.trans_le hg
  have hl : l.val < n := l.isLt.trans_le hh
  have hpair : (i.val + n - q.val) % n = l ↔ l.val + q.val ≡ i.val [MOD n] := by
    rw [mod_eq_iff hq.le i.isLt hl, Nat.ModEq, Nat.mod_eq_of_lt i.isLt]
  rw [ite_mul, zero_mul]
  exact if_congr hpair rfl rfl

/-- The product of two circulant matrices is that of the cyclic product. -/
lemma circulantMatrix_mul {h g : Signal T} (hh : h.size ≤ n) (hg : g.size ≤ n) :
    circulantMatrix n h * circulantMatrix n g = circulantMatrix n (cyclicProduct n h g) := by
  rw [circulantMatrix_eq_circulant n g, circulantMatrix_eq_circulant n (cyclicProduct n h g),
    ← circulantMatrix_mulVec hh hg, circulantMatrix_eq_circulant, Fin.circulant_mul]

/-- Circulant matrices of kernels commute. -/
lemma circulantMatrix_mul_comm (n : ℕ) (h g : Signal T) :
    circulantMatrix n h * circulantMatrix n g = circulantMatrix n g * circulantMatrix n h := by
  rw [circulantMatrix_eq_circulant, circulantMatrix_eq_circulant, Fin.circulant_mul_comm]

/-- Convolutions with kernels that fit commute, and together they are the convolution with the
cyclic product of the kernels. Each of them is the product with the circulant matrix of its
kernel. -/
theorem times_comm {h g : Signal T} (hh : h.size ≤ n) (hg : g.size ≤ n) :
    ∃ ch cg cp : CircularConvolution T, ofKernel? h n = .ok ch ∧ ofKernel? g n = .ok cg ∧
      ofKernel? (cyclicProduct n h g) n = .ok cp ∧
      ∀ (x : Signal T) (y z : Vector T n), x.size = n →
        (∃ w : Vector T n,
          (cg.toOperator.times x y >>= fun v => ch.toOperator.times v.toArray z) = .ok w ∧
          (ch.toOperator.times x y >>= fun v => cg.toOperator.times v.toArray z) = .ok w ∧
          cp.toOperator.times x z = .ok w) ∧
        ch.toOperator.times x y
          = .ok (Vector.ofFn (circulantMatrix n h *ᵥ Signal.coords n x)) := by
  have hp : (cyclicProduct n h g).size ≤ n := Array.size_ofFn.le
  refine ⟨⟨h, n, hh⟩, ⟨g, n, hg⟩, ⟨_, n, hp⟩, dif_pos hh, dif_pos hg, dif_pos hp,
    fun x y z hx => ?_⟩
  have hmatrixh := hasMatrix_circulantMatrix ⟨h, n, hh⟩
  have hmatrixg := hasMatrix_circulantMatrix ⟨g, n, hg⟩
  have hmatrixp := hasMatrix_circulantMatrix ⟨_, n, hp⟩
  refine ⟨⟨_, hmatrixh.times_bind_times hmatrixg hx y z, ?_, ?_⟩, hmatrixh.times_eq x y hx⟩
  · rw [hmatrixg.times_bind_times hmatrixh hx, circulantMatrix_mul_comm]
  · rw [hmatrixp.times_eq x z hx, circulantMatrix_mul hh hg]

open Reals in
/-- Kernels of different lengths on three entries. The product `2 · 5` wraps around to the entry
zero. -/
theorem times_comm_three :
    (#[1, 2] : Signal ℝ).size ≤ 3 ∧ (#[0, 1, 5] : Signal ℝ).size ≤ 3 ∧
    cyclicProduct 3 (#[1, 2] : Signal ℝ) #[0, 1, 5] = #[10, 1, 7] ∧
    ∃ ch cg cp : CircularConvolution ℝ, ofKernel? #[1, 2] 3 = .ok ch ∧
      ofKernel? #[0, 1, 5] 3 = .ok cg ∧ ofKernel? #[10, 1, 7] 3 = .ok cp ∧
      ∃ w : Vector ℝ 3,
        (cg.toOperator.times #[3, 1, 4] (Vector.replicate 3 1) >>= fun v =>
          ch.toOperator.times v.toArray (Vector.replicate 3 0)) = .ok w ∧
        (ch.toOperator.times #[3, 1, 4] (Vector.replicate 3 1) >>= fun v =>
          cg.toOperator.times v.toArray (Vector.replicate 3 0)) = .ok w ∧
        cp.toOperator.times #[3, 1, 4] (Vector.replicate 3 0) = .ok w := by
  have hh : (#[1, 2] : Signal ℝ).size ≤ 3 := by decide
  have hg : (#[0, 1, 5] : Signal ℝ).size ≤ 3 := by decide
  have hproduct : cyclicProduct 3 (#[1, 2] : Signal ℝ) #[0, 1, 5] = #[10, 1, 7] := by
    have hentries : (fun i : Fin 3 => ∑ p : Fin 2 × Fin 3 with p.1.val + p.2.val ≡ i.val [MOD 3],
        (![1, 2] p.1 : ℝ) * ![0, 1, 5] p.2) = ![10, 1, 7] := by
      funext i
      rw [Finset.sum_filter, Fintype.sum_prod_type]
      fin_cases i <;> norm_num [Fin.sum_univ_succ, Nat.ModEq]
    exact congrArg Array.ofFn hentries
  obtain ⟨ch, cg, cp, hch, hcg, hcp, htimes⟩ := times_comm hh hg
  rw [hproduct] at hcp
  obtain ⟨hsame, -⟩ := htimes #[3, 1, 4] (Vector.replicate 3 1) (Vector.replicate 3 0) rfl
  exact ⟨hh, hg, hproduct, ch, cg, cp, hch, hcg, hcp, hsame⟩

end CircularConvolution
end CompressedSensing
