import CompressedSensing.Signal.Basic
/-!
# Selecting the largest entries

Entries are ranked by a total order: numbers before NaN, larger modulus first, lower index first
among equals. A selection of `k` entries sorts the candidates by rank, takes the first `k` and
reports them in ascending order of their indices.
-/

namespace CompressedSensing

namespace Support

variable {T R : Type} [RealLike R] [Scalar T R]

/-- Whether an index with modulus `p.2` is ranked no later than another one. -/
def ranksBefore (p q : Nat × R) : Bool :=
  match RealLike.isNaN p.2, RealLike.isNaN q.2 with
  | true, true => p.1 ≤ q.1
  | true, false => false
  | false, true => true
  | false, false =>
    RealLike.lt q.2 p.2 || (!RealLike.lt p.2 q.2 && p.1 ≤ q.1)

/-- The `k` candidates of the first ranks, ascending. -/
@[specialize] def select (x : Signal T) (k : Nat) (candidates : List Nat) : Array Nat :=
  let keyed : List (Nat × R) := candidates.map fun i => (i, Scalar.modulus (x.getD i 0))
  let first := (keyed.mergeSort ranksBefore).take k
  -- the ranks say which are taken, not in what order they are listed
  ((first.map Prod.fst).mergeSort).toArray

/-- The indices of the `k` largest entries, ascending; all of them if there are no more. -/
@[specialize] def largest (x : Signal T) (k : Nat) : Array Nat :=
  select x k (List.range x.size)

/-! ## Excluding a support -/

/-- The last place, from `base` on and within `size`, whose entry is at most `target`, or `base`
if there is none, found by halving; `fuel` bounds the number of halvings. -/
def floorIndex (sorted : Array Nat) (target : Nat) : (fuel : Nat) → (base size : Nat) → Nat
  | 0, base, _ => base
  | fuel + 1, base, size =>
    if 1 < size then
      let half := size / 2
      let middle := base + half
      let base := if target < sorted.getD middle 0 then base else middle
      floorIndex sorted target fuel base (size - half)
    else base

/-- Whether binary search finds `target`. In a list that is not ascending it may miss it. -/
def contains (sorted : Array Nat) (target : Nat) : Bool :=
  if sorted.isEmpty then false
  else sorted.getD (floorIndex sorted target sorted.size 0 sorted.size) 0 == target

/-- The indices of the `k` largest entries outside the ascending list `excluded`. -/
@[specialize] def largestExcluding (x : Signal T) (k : Nat) (excluded : Array Nat) :
    Array Nat :=
  select x k ((List.range x.size).filter fun i => !contains excluded i)

end Support

/-! ## Hard thresholding -/

/-- A sparse signal: its length, its support, and the values on it. -/
structure Thresholded (T : Type) where
  /-- The support, ascending. -/
  indices : Array Nat
  /-- The values at `indices`. -/
  values : Signal T
  /-- The length of the dense signal. -/
  length : Nat

namespace Thresholded

variable {T R : Type} [RealLike R] [Scalar T R]

/-- The dense signal. -/
@[specialize] def toDense (t : Thresholded T) : Signal T :=
  (Signal.scatter (Vector.replicate t.length 0) t.indices t.values).toArray

def isEmpty (t : Thresholded T) : Bool := t.indices.isEmpty

end Thresholded

namespace Signal

variable {T R : Type} [RealLike R] [Scalar T R]

/-- Keeps the `k` largest entries. -/
@[specialize] def hardThreshold (x : Signal T) (k : Nat) : Thresholded T :=
  let indices := Support.largest x k
  ⟨indices, indices.map fun i => x.getD i 0, x.size⟩

/-- Keeps the `k` largest entries and sets the others to zero. -/
@[specialize] def threshold (x : Signal T) (k : Nat) : Signal T := (hardThreshold x k).toDense

end Signal
end CompressedSensing
