import CompressedSensing.Operator.Basic
import CompressedSensing.Support.Validation
/-!
# Identity, diagonals and selections of rows

The three operators that move or weigh single entries. On vectors and buffers of unexpected
length a diagonal acts as far as the shortest of its operands reaches, a selection reads and
writes as many entries as the buffer and its list of rows have in common, and the identity
fails.
-/

namespace CompressedSensing

variable {T R : Type} [RealLike R] [Scalar T R]

/-- The buffer replaced by a vector of the same length. -/
def copyInto {k : Nat} (x : Signal T) (_ : Vector T k) : Except Error (Vector T k) :=
  if h : x.size = k then .ok ⟨x, h⟩ else .error .misuse

/-- The identity on signals of length `n`. -/
def Operator.identity (n : Nat) : Operator T where
  rows := n
  cols := n
  times x _ y := copyInto x y
  trans y _ x := copyInto y x

/-! ## Diagonals -/

/-- Multiplication entry by entry. -/
structure Diagonal (T : Type) where
  entries : Signal T

namespace Diagonal

/-- The products `w dᵢ · xᵢ`, wherever all three of buffer, diagonal and vector have an entry. -/
@[specialize] def weigh {k : Nat} (w : T → T) (d x : Signal T) (y : Vector T k) : Vector T k :=
  y.mapIdx fun i old => match d[i]?, x[i]? with
    | some di, some xi => w di * xi
    | _, _ => old

/-- The map `yᵢ = dᵢ xᵢ`. -/
@[specialize] def toOperator (d : Diagonal T) : Operator T where
  rows := d.entries.size
  cols := d.entries.size
  times x _ y := .ok (weigh id d.entries x y)
  trans y _ x := .ok (weigh Scalar.conj d.entries y x)

end Diagonal

/-! ## Selections of rows -/

/-- Distinct entries of a signal of length `length`, in the order in which they are measured. -/
structure RowSelection where
  rows : Array Nat
  length : Nat
  valid : Support.Valid length rows

namespace RowSelection

/-- The selection, if the rows are distinct and below `length`. -/
def ofRows? (rows : Array Nat) (length : Nat) : Except Error RowSelection :=
  match h : Support.validate rows length with
  | .ok () => .ok ⟨rows, length, (Support.validate_eq_ok_iff rows length).1 h⟩
  | .error e => .error e

/-- Reads the selected entries; the adjoint writes them back among zeros. -/
@[specialize] def toOperator (s : RowSelection) : Operator T where
  rows := s.rows.size
  cols := s.length
  times x {k} y :=
    if Signal.inBounds (s.rows.take k) x.size then
      .ok (y.mapIdx fun i old => match s.rows[i]? with
        | some r => x.getD r 0
        | none => old)
    else .error .misuse
  trans y {k} _ :=
    if Signal.inBounds (s.rows.take y.size) k then
      .ok (Signal.scatter (Vector.replicate k 0) s.rows y)
    else .error .misuse

end RowSelection
end CompressedSensing
