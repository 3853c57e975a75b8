import CompressedSensing.Signal.Basic
/-!
# Dense matrices

An `m × n` matrix is its `n` columns. The size is part of the type, so an entry is asked for by
an index that is in range by its own type.
-/

namespace CompressedSensing

/-- An `m × n` matrix, held by columns. -/
structure DenseMatrix (T : Type) (m n : Nat) where
  columns : Vector (Vector T m) n

/-- A matrix with its size. -/
structure SizedMatrix (T : Type) where
  rows : Nat
  cols : Nat
  matrix : DenseMatrix T rows cols

namespace DenseMatrix

variable {T R : Type} {l m n : Nat}

/-- The matrix with entry `f i j` in row `i` and column `j`. -/
def ofFn (f : Fin m → Fin n → T) : DenseMatrix T m n :=
  ⟨Vector.ofFn fun j => Vector.ofFn fun i => f i j⟩

/-- The entry in row `i` and column `j`. -/
@[inline] def entry (a : DenseMatrix T m n) (i : Fin m) (j : Fin n) : T := a.columns[j][i]

@[simp] theorem entry_ofFn (f : Fin m → Fin n → T) (i : Fin m) (j : Fin n) :
    (ofFn f).entry i j = f i j := by
  simp [entry, ofFn]

/-- Column `j` as a signal. -/
def column (a : DenseMatrix T m n) (j : Fin n) : Signal T := a.columns[j].toArray

/-- The transpose `Aᵀ`. -/
def transpose (a : DenseMatrix T m n) : DenseMatrix T n m := ofFn fun i j => a.entry j i

variable [RealLike R] [Scalar T R]

/-- The conjugate transpose `Aᴴ`. -/
@[specialize] def adjoint (a : DenseMatrix T m n) : DenseMatrix T n m :=
  ofFn fun i j => Scalar.conj (a.entry j i)

/-- The sum `Σⱼ f j`, from `j = 0` upwards. -/
@[inline] def sumFin (n : Nat) (f : Fin n → T) : T := Fin.foldl n (fun acc j => acc + f j) 0

/-- The product `A · B`. -/
@[specialize] def mul (a : DenseMatrix T l m) (b : DenseMatrix T m n) : DenseMatrix T l n :=
  ofFn fun i j => sumFin m fun k => a.entry i k * b.entry k j

/-- Whether no entry is infinite or a NaN. -/
@[specialize] def isFinite (a : DenseMatrix T m n) : Bool :=
  a.columns.all fun c => c.all Scalar.isFinite

/-- The matrix filled column by column from `data`. -/
def ofColumnMajor? (m n : Nat) (data : Signal T) : Except Error (DenseMatrix T m n) :=
  if data.size = m * n then
    .ok (ofFn fun i j => data.getD (j * m + i) 0)
  else .error (.cannotFill data.size m n)

end DenseMatrix

namespace SizedMatrix

variable {T R : Type} [RealLike R] [Scalar T R]

/-- The matrix with the given rows, which must be as long as the first one. -/
def ofRows? (rows : Array (Signal T)) : Except Error (SizedMatrix T) :=
  let n := (rows[0]?.map Array.size).getD 0
  match rows.findIdx? (fun r => r.size ≠ n) with
  | some i => .error (.raggedRow i ((rows[i]?.map Array.size).getD 0) n)
  | none => .ok ⟨rows.size, n, DenseMatrix.ofFn fun i j => (rows[i].getD j 0)⟩

/-- The transpose `Aᵀ`. -/
def transpose (a : SizedMatrix T) : SizedMatrix T := ⟨a.cols, a.rows, a.matrix.transpose⟩

/-- The conjugate transpose `Aᴴ`. -/
def adjoint (a : SizedMatrix T) : SizedMatrix T := ⟨a.cols, a.rows, a.matrix.adjoint⟩

end SizedMatrix
end CompressedSensing
