import CompressedSensing.Matrix.Basic
/-!
# Elimination with full pivoting

A square system is reduced by its largest remaining entry, row by row, and solved backwards. A
pivot of zero divides all the same: over machine numbers the answer then holds an infinity or a
NaN, which is how a caller learns that the system was singular.
-/

namespace CompressedSensing
namespace Elimination

variable {T R : Type} [RealLike R] [Scalar T R]

/-- An equation `Σ coefficients · x = value`. -/
structure Equation (T : Type) where
  coefficients : Signal T
  value : T

/-- An equation that was used to eliminate one unknown. -/
structure Solved (T : Type) where
  unknown : Nat
  equation : Equation T

/-- The position of the largest coefficient: equation, unknown, magnitude. -/
def pivot (system : Array (Equation T)) : Nat × Nat × R :=
  let start : Nat × Nat × R := (0, 0, 0)
  system.zipIdx.foldl
    (fun best e => e.1.coefficients.zipIdx.foldl
      (fun (best : Nat × Nat × R) (c : T × Nat) =>
        let size := Scalar.modulus c.1
        if RealLike.lt best.2.2 size then (e.2, c.2, size) else best)
      best)
    start

/-- Removes unknown `j` from equation `e` by means of `p`. -/
def eliminate (p : Equation T) (j : Nat) (e : Equation T) : Equation T :=
  let factor := e.coefficients.getD j 0 / p.coefficients.getD j 0
  -- rounding may leave something of the coefficient, so it is set
  ⟨(Array.zipWith (fun a b => a - factor * b) e.coefficients p.coefficients).setIfInBounds j 0,
   e.value - factor * p.value⟩

/-- The equations in the order of elimination; `fuel` bounds their number. Once every remaining
coefficient is zero the unknowns left over are taken in order, with a pivot of zero. -/
def forward : (fuel : Nat) → (unknowns : List Nat) → Array (Equation T) → List (Solved T)
  | 0, _, _ => []
  | fuel + 1, unknowns, system =>
    if system.isEmpty then []
    else
      let (i, j, size) := pivot system
      let j := if RealLike.isZero size then unknowns.headD 0 else j
      let p := system.getD i noTerms
      ⟨j, p⟩ :: forward fuel (unknowns.erase j) ((system.eraseIdxIfInBounds i).map (eliminate p j))
where
  /-- An equation without terms. -/
  noTerms : Equation T := ⟨#[], 0⟩

/-- The unknowns, from the last equation to the first. -/
def backward (n : Nat) (solved : List (Solved T)) : Signal T :=
  solved.foldr
    (fun s x =>
      -- the coefficients include that of the unknown itself
      let rest := x.setIfInBounds s.unknown 0
      let known : T := Signal.sum (Array.zipWith (· * ·) s.equation.coefficients rest)
      x.setIfInBounds s.unknown
        ((s.equation.value - known) / s.equation.coefficients.getD s.unknown 0))
    (Signal.zeros n)

/-- A solution of `A x = b`. -/
def solve {n : Nat} (a : DenseMatrix T n n) (b : Signal T) : Signal T :=
  let system := Array.ofFn fun i : Fin n =>
    (⟨Array.ofFn fun j : Fin n => a.entry i j, b.getD i 0⟩ : Equation T)
  backward n (forward n (List.range n) system)

end Elimination
end CompressedSensing
