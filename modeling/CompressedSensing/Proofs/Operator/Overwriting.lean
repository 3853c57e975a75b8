import Mathlib
import CompressedSensing.Proofs.Operator.Constructed
import CompressedSensing.Proofs.Operator.Total
import CompressedSensing.Scalar.Machine
/-!
# Operators that fill their buffer

`Overwrites a` says that on a vector of the right length a map of the operator succeeds and that
what it hands back is the same for every buffer. The elementary operators owe it to a loop that
reaches every entry: copies and sums replace the buffer, diagonals and selections run along their
list, and that list is as long as the buffer. A combinator that adds to or multiplies what its
operand left behind owes it to that operand.

By induction this covers the operator language, also where the support of a restriction repeats an
index. Scalars obey no law here: an entry may be infinite or not a number.
-/

namespace CompressedSensing

variable {T R : Type} [Scalar T R]

namespace Signal

lemma inBounds_of_forall {s : Array ℕ} {n : ℕ} (h : ∀ j ∈ s, j < n) : inBounds s n = true :=
  Array.all_eq_true'.2 fun j hj => decide_eq_true (h j hj)

/-- Reading along a list as long as the buffer leaves nothing of the buffer. -/
lemma read_eq (x : Signal T) (s : Array ℕ) (y : Vector T s.size) :
    (y.mapIdx fun i old => match s[i]? with
      | some j => x.getD j 0
      | none => old)
      = Vector.ofFn fun i : Fin s.size => x.getD (s.getD i 0) 0 := by
  ext i hi
  simp [hi]

end Signal

namespace Operator

/-- On vectors of the right length the maps hand back one answer, whatever the buffer held. -/
structure Overwrites (a : Operator T) : Prop where
  times_eq (x : Signal T) : x.size = a.cols → ∃ v, ∀ y : Vector T a.rows, a.times x y = .ok v
  trans_eq (y : Signal T) : y.size = a.rows → ∃ v, ∀ x : Vector T a.cols, a.trans y x = .ok v

namespace Overwrites

variable {a b : Operator T}

/-- An operator that overwrites its output never fails on a signal of the right length. -/
lemma total (h : a.Overwrites) : a.Total where
  times_ok x y hx := (h.times_eq x hx).imp fun _ hv => hv y
  trans_ok y x hy := (h.trans_eq y hy).imp fun _ hv => hv x

/-- What is left in the buffer is the image. -/
lemma apply_eq (h : a.Overwrites) {x : Signal T} (hx : x.size = a.cols) :
    ∃ v : Vector T a.rows, a.apply x = .ok v.toArray ∧ ∀ y, a.times x y = .ok v := by
  obtain ⟨v, hv⟩ := h.times_eq x hx
  refine ⟨v, ?_, hv⟩
  unfold apply image
  rw [hv]
  rfl

/-- The adjoint image is what the backward map writes into any buffer. -/
lemma applyAdjoint_eq (h : a.Overwrites) {y : Signal T} (hy : y.size = a.rows) :
    ∃ v : Vector T a.cols, a.applyAdjoint y = .ok v.toArray ∧ ∀ x, a.trans y x = .ok v := by
  obtain ⟨v, hv⟩ := h.trans_eq y hy
  refine ⟨v, ?_, hv⟩
  unfold applyAdjoint adjointImage
  rw [hv]
  rfl

/-! ## Elementary operators -/

lemma dense {m n : ℕ} (M : DenseMatrix T m n) : (Operator.dense M).Overwrites where
  times_eq x (hx : x.size = n) := by
    refine ⟨Vector.ofFn fun i : Fin m => DenseMatrix.sumFin n fun j => M.entry i j * x[j.val],
      fun _ => dif_pos ⟨rfl, hx⟩⟩
  trans_eq y (hy : y.size = m) := by
    refine ⟨Vector.ofFn fun j : Fin n => DenseMatrix.sumFin m fun i =>
      Scalar.conj (M.entry i j) * y[i.val], fun _ => dif_pos ⟨rfl, hy⟩⟩

lemma identity (n : ℕ) : (Operator.identity n : Operator T).Overwrites where
  times_eq _ hx := ⟨_, fun _ => dif_pos hx⟩
  trans_eq _ hy := ⟨_, fun _ => dif_pos hy⟩

/-- Weighing a signal of fitting length does not read the buffer. -/
lemma weigh_eq {k : ℕ} (w : T → T) {d x : Signal T} (hd : d.size = k) (hx : x.size = k)
    (y y' : Vector T k) : Diagonal.weigh w d x y = Diagonal.weigh w d x y' := by
  ext i hi
  simp [Diagonal.weigh, hd, hx, hi]

lemma diagonal (d : Diagonal T) : d.toOperator.Overwrites where
  times_eq _ hx := ⟨_, fun y => congrArg Except.ok
    (weigh_eq id rfl hx y (Vector.replicate _ 0))⟩
  trans_eq _ hy := ⟨_, fun x => congrArg Except.ok
    (weigh_eq Scalar.conj rfl hy x (Vector.replicate _ 0))⟩

/-- The adjoint clears the buffer before it writes the selected entries. -/
lemma rowSelection (s : RowSelection) : (s.toOperator : Operator T).Overwrites where
  times_eq x hx := by
    refine ⟨Vector.ofFn fun i : Fin s.rows.size => x.getD (s.rows.getD i 0) 0, fun y => ?_⟩
    exact (if_pos (hx ▸ s.valid.inBounds_take _)).trans
      (congrArg Except.ok (Signal.read_eq x s.rows y))
  trans_eq y hy := ⟨_, fun x => if_pos (s.valid.inBounds_take _)⟩

/-! ## Transforms -/

section Transform

variable {W : Type} [Trigonometric W] [Precision R W]

/-- The butterfly levels start from the signal, whatever the buffer holds. -/
lemma run_eq (t : WalshHadamard) {x : Signal T} (hx : x.size = t.size) :
    ∃ v, ∀ y : Vector T t.size, t.run (W := W) x y = .ok v := by
  have hcopy (y : Vector T t.size) : copyInto x y = .ok ⟨x, hx⟩ := dif_pos hx
  refine ⟨(WalshHadamard.butterfly t.size ⟨x, hx⟩).map
    (· * WalshHadamard.factor (W := W) t.size), fun y => ?_⟩
  unfold WalshHadamard.run
  rw [hcopy y, Except.ok_bind, if_neg fun h => absurd h.2 (lt_irrefl _)]
  rfl

lemma walshHadamard (t : WalshHadamard) :
    (t.toOperator (W := W) : Operator T).Overwrites where
  times_eq _ hx := run_eq t hx
  trans_eq _ hy := run_eq t hy

omit [Trigonometric W] [Precision R W] in
/-- A buffer of size zero takes no sums, and no cosine is looked up for it. -/
lemma combine_eq {n : ℕ} (f : 0 < n → ℕ → ℕ → T) (x : Signal T) :
    ∃ v : Vector T n, CosineTransform.combine n f x = .ok v := by
  unfold CosineTransform.combine
  split
  · exact ⟨_, rfl⟩
  · rename_i hn
    rw [if_neg fun h => hn h.1]
    exact ⟨_, rfl⟩

lemma cosine (t : CosineTransform W) : (t.toOperator : Operator T).Overwrites where
  times_eq x _ :=
    (combine_eq (fun h k j => Scalar.ofWide (t.coefficient h k j)) x).imp fun _ h _ => h
  trans_eq y _ :=
    (combine_eq (fun h j k => Scalar.ofWide (t.coefficient h k j)) y).imp fun _ h _ => h

end Transform

/-- Indices taken modulo the length of the vector lie inside it, once there is an entry to fill. -/
lemma convolve_eq {n : ℕ} (kernel x : Signal T) (w : T → T) (shift : ℕ → ℕ → ℕ)
    (hx : x.size = n) :
    ∃ v : Vector T n,
      CircularConvolution.combine kernel x w (fun i l => shift i l % n) = .ok v := by
  refine ⟨_, if_pos (List.all_eq_true.2 fun i hi => List.all_eq_true.2 fun l _ => ?_)⟩
  have hn : 0 < n := Nat.zero_lt_of_lt (List.mem_range.1 hi)
  rw [hx]
  exact decide_eq_true (Nat.mod_lt _ hn)

lemma convolution (c : CircularConvolution T) : c.toOperator.Overwrites where
  times_eq x hx := (convolve_eq c.kernel x id _ hx).imp fun _ h _ => h
  trans_eq y hy := (convolve_eq c.kernel y Scalar.conj _ hy).imp fun _ h _ => h

/-! ## Combinators -/

/-- A product overwrites its output if both factors do. -/
lemma product (ha : a.Overwrites) (hb : b.Overwrites) (h : a.cols = b.rows) :
    (Operator.product a b).Overwrites where
  times_eq x hx := by
    obtain ⟨z, hz, hsize⟩ := hb.total.apply_ok hx
    obtain ⟨v, hv⟩ := ha.times_eq z (hsize.trans h.symm)
    refine ⟨v, fun y => ?_⟩
    show b.apply x >>= _ = _
    rw [hz]
    exact hv y
  trans_eq y hy := by
    obtain ⟨z, hz, hsize⟩ := ha.total.applyAdjoint_ok hy
    obtain ⟨v, hv⟩ := hb.trans_eq z (hsize.trans h)
    refine ⟨v, fun x => ?_⟩
    show a.applyAdjoint y >>= _ = _
    rw [hz]
    exact hv x

/-- A composition that is accepted overwrites its output. -/
lemma compose (ha : a.Overwrites) (hb : b.Overwrites) {c : Operator T}
    (h : a.compose? b = .ok c) : c.Overwrites := by
  unfold compose? at h
  split at h
  · rename_i hshape
    cases h
    exact ha.product hb hshape
  · cases h

/-- A sum overwrites its output if both terms do. -/
lemma plus (ha : a.Overwrites) (hb : b.Overwrites) (h : a.shape = b.shape) :
    (Operator.plus a b).Overwrites where
  times_eq x hx := by
    obtain ⟨left, hleft⟩ := ha.times_eq x hx
    obtain ⟨right, hright, -⟩ := hb.total.apply_ok (hx.trans (congrArg Prod.snd h))
    refine ⟨Signal.overlay (· + ·) left right, fun (y : Vector T a.rows) => ?_⟩
    show (a.times x y >>= fun left => b.apply x >>= fun right =>
      pure (Signal.overlay (· + ·) left right)) = Except.ok (Signal.overlay _ left right)
    rw [hleft y, hright]
    rfl
  trans_eq y hy := by
    obtain ⟨left, hleft⟩ := ha.trans_eq y hy
    obtain ⟨right, hright, -⟩ := hb.total.applyAdjoint_ok (hy.trans (congrArg Prod.fst h))
    refine ⟨Signal.overlay (· + ·) left right, fun (x : Vector T a.cols) => ?_⟩
    show (a.trans y x >>= fun left => b.applyAdjoint y >>= fun right =>
      pure (Signal.overlay (· + ·) left right)) = _
    rw [hleft x, hright]
    rfl

/-- A sum that is accepted overwrites its output. -/
lemma add (ha : a.Overwrites) (hb : b.Overwrites) {c : Operator T}
    (h : a.add? b = .ok c) : c.Overwrites := by
  unfold add? at h
  split at h
  · rename_i hshape
    cases h
    exact ha.plus hb hshape
  · cases h

/-- A scaled operator overwrites its output if the operator does. -/
lemma scaled (ha : a.Overwrites) (α : T) : (Scaled.toOperator ⟨a, α⟩).Overwrites where
  times_eq x hx := by
    obtain ⟨v, hv⟩ := ha.times_eq x hx
    refine ⟨v.map (· * α), fun (y : Vector T a.rows) => ?_⟩
    show (a.times x y >>= fun v => pure (v.map (· * α))) = Except.ok (v.map _)
    rw [hv y]
    rfl
  trans_eq y hy := by
    obtain ⟨v, hv⟩ := ha.trans_eq y hy
    refine ⟨v.map (· * Scalar.conj α), fun (x : Vector T a.cols) => ?_⟩
    show (a.trans y x >>= fun v => pure (v.map (· * Scalar.conj α))) = Except.ok (v.map _)
    rw [hv x]
    rfl

/-- The adjoint exchanges the two maps, and both overwrite. -/
lemma adjoint (ha : a.Overwrites) : (Adjoint.toOperator ⟨a⟩).Overwrites where
  times_eq := ha.trans_eq
  trans_eq := ha.times_eq

/-- A repeated index is read twice, and of its two values the later one is written. -/
lemma columnSubset (ha : a.Overwrites) {support : Array ℕ} (h : ∀ j ∈ support, j < a.cols) :
    (ColumnSubset.toOperator ⟨a, support⟩).Overwrites where
  times_eq z hz := by
    have hembed : Signal.embed a.cols support z = .ok _ :=
      if_pos ⟨hz.symm, Signal.inBounds_of_forall h⟩
    obtain ⟨v, hv⟩ := ha.times_eq _ (Signal.size_embed hembed)
    refine ⟨v, fun y => ?_⟩
    show Signal.embed a.cols support z >>= _ = _
    rw [hembed]
    exact hv y
  trans_eq y hy := by
    obtain ⟨full, hfull, hsize⟩ := ha.total.applyAdjoint_ok hy
    have hbounds : Signal.inBounds (support.take support.size) full.size = true := by
      rw [Array.take_eq_extract, Array.extract_size, hsize]
      exact Signal.inBounds_of_forall h
    refine ⟨Vector.ofFn fun i : Fin support.size => full.getD (support.getD i 0) 0,
      fun z => ?_⟩
    show a.applyAdjoint y >>= _ = _
    rw [hfull]
    exact (if_pos hbounds).trans (congrArg Except.ok (Signal.read_eq full support z))

end Overwrites

/-! ## The operator language -/

section Language

variable {W : Type} [Trigonometric W] [Precision R W]

/-- Every operator of the language fills its buffer, a repeated index of a support included. -/
lemma Accepted.overwrites {a : Operator T} (ha : a.Accepted (W := W)) : a.Overwrites := by
  induction ha with
  | dense M => exact .dense M
  | identity n => exact .identity n
  | diagonal d => exact .diagonal d
  | rowSelection s => exact .rowSelection s
  | walshHadamard t => exact .walshHadamard t
  | cosine n => exact .cosine _
  | convolution c => exact .convolution c
  | compose _ _ h iha ihb => exact iha.compose ihb h
  | add _ _ h iha ihb => exact iha.add ihb h
  | scale _ α iha => exact iha.scaled α
  | negate _ iha => exact iha.scaled _
  | adjoint _ iha => exact iha.adjoint
  | columnSubset _ h iha => exact iha.columnSubset h

/-- The checks of the constructors are enough: on vectors and buffers of the right lengths the
maps of an accepted operator succeed and leave the image in the buffer, whatever it held and
whatever the scalars are. -/
theorem Accepted.leaves_image {a : Operator T} (ha : a.Accepted (W := W)) :
    (∀ x : Signal T, x.size = a.cols → ∃ v : Vector T a.rows,
      a.apply x = .ok v.toArray ∧ ∀ y : Vector T a.rows, a.times x y = .ok v) ∧
    ∀ y : Signal T, y.size = a.rows → ∃ v : Vector T a.cols,
      a.applyAdjoint y = .ok v.toArray ∧ ∀ x : Vector T a.cols, a.trans y x = .ok v :=
  ⟨fun _ hx => ha.overwrites.apply_eq hx, fun _ hy => ha.overwrites.applyAdjoint_eq hy⟩

lemma isPowerOfTwo_four : isPowerOfTwo 4 := by decide

/-- Two rows of a transform of four entries less a half of themselves, restricted to two columns,
one of them named twice. -/
def repeatedColumn : Operator Float :=
  let rows : RowSelection := ⟨#[3, 1], 4, ⟨by decide, by decide⟩⟩
  let transform : WalshHadamard := ⟨4, isPowerOfTwo_four⟩
  let a := product rows.toOperator (transform.toOperator (W := Float))
  let half : Scaled Float := ⟨a, 0.5⟩
  ColumnSubset.toOperator ⟨plus a (Scaled.negate half.toOperator).toOperator, #[2, 0, 2]⟩

/-- A column that is listed twice is in range twice. -/
lemma accepted_repeatedColumn : repeatedColumn.Accepted (W := Float) := by
  let rows : RowSelection := ⟨#[3, 1], 4, ⟨by decide, by decide⟩⟩
  have hrows : (rows.toOperator : Operator Float).Accepted (W := Float) := .rowSelection rows
  have ha := hrows.product (.walshHadamard ⟨4, isPowerOfTwo_four⟩) rfl
  have hsum := ha.add (.negate (.scale ha 0.5)) (if_pos rfl)
  exact hsum.columnSubset (by decide)

/-- Entries and buffers may be infinite or not a number. -/
theorem leaves_image_repeatedColumn :
    repeatedColumn.Accepted (W := Float) ∧
    (∃ v : Vector Float 2, repeatedColumn.apply #[1, 0 / 0, 2] = .ok v.toArray ∧
      ∀ y : Vector Float 2, repeatedColumn.times #[1, 0 / 0, 2] y = .ok v) ∧
    ∃ v : Vector Float 3, repeatedColumn.applyAdjoint #[1 / 0, -1] = .ok v.toArray ∧
      ∀ x : Vector Float 3, repeatedColumn.trans #[1 / 0, -1] x = .ok v :=
  have h := Accepted.leaves_image accepted_repeatedColumn
  ⟨accepted_repeatedColumn, h.1 _ rfl, h.2 _ rfl⟩

end Language

end Operator
end CompressedSensing
