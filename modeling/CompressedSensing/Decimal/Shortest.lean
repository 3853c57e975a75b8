import CompressedSensing.Decimal.Binary
/-!
# The shortest decimal that reads back

Reading a decimal gives the machine number nearest to it, so the decimals that read back as `v`
fill the interval between the midpoints to the two neighbours of `v`, ends included when the
mantissa of `v` is even. Among the decimals in that interval `Format.shortest` takes one with
the fewest digits, and of those the nearest to `v`, the greater one of two.

It walks the grids `10 ^ p` from coarse to fine. If a grid has a point in the interval, then one
of the two grid points around `v` lies in it, so each grid costs two tests.
-/

namespace CompressedSensing

/-- The decimal `digits · 10 ^ exponent`. -/
structure Decimal where
  digits : Nat
  exponent : Int
deriving DecidableEq, Repr

namespace Format

/-- The decimals that read back as a number, as fractions of one denominator. -/
structure Interval where
  low : Nat
  value : Nat
  high : Nat
  denominator : Nat
  closed : Bool

/-- The interval of a nonzero magnitude. Below a power of two the neighbours lie half as far
apart, so the lower midpoint moves up. -/
def interval (f : Format) (v : Floating) : Interval :=
  let narrowBelow := v.mantissa = Nat.pow 2 f.fractionBits ∧ f.minExponent < v.exponent
  let m := 4 * v.mantissa
  let low := if narrowBelow then m - 1 else m - 2
  let closed := v.mantissa % 2 = 0
  if 0 ≤ v.exponent then
    let s := Nat.pow 2 v.exponent.toNat
    ⟨low * s, m * s, (m + 2) * s, 4, closed⟩
  else ⟨low, m, m + 2, 4 * Nat.pow 2 (-v.exponent).toNat, closed⟩

/-- Whether the point `c · 10 ^ p`, given as a numerator over the denominator, reads back. -/
def Interval.covers (i : Interval) (scale point : Nat) : Bool :=
  if i.closed then i.low * scale ≤ point ∧ point ≤ i.high * scale
  else i.low * scale < point ∧ point < i.high * scale

/-- The point of the grid `10 ^ p` that reads back and is nearest to the value, if any; halfway
between two points it is the greater one. -/
def Interval.onGrid (i : Interval) (p : Int) : Option Decimal :=
  -- numerators times `scale` are multiples of `step` on the grid
  let scale := if 0 ≤ p then 1 else Nat.pow 10 (-p).toNat
  let step := i.denominator * (if 0 ≤ p then Nat.pow 10 p.toNat else 1)
  let c := i.value * scale / step
  let below := c * step
  let above := below + step
  let hit (point : Nat) : Bool := i.covers scale point
  match hit below, hit above with
  | true, true =>
    if i.value * scale - below < above - i.value * scale then some ⟨c, p⟩ else some ⟨c + 1, p⟩
  | true, false => some ⟨c, p⟩
  | false, true => some ⟨c + 1, p⟩
  | false, false => none

/-- The first grid at or below `10 ^ p` with a point that reads back; `grids` bounds the walk. -/
def Interval.firstGrid (i : Interval) : (grids : Nat) → (p : Int) → Decimal
  | 0, p => ⟨0, p⟩
  | grids + 1, p =>
    match i.onGrid p with
    | some d => d
    | none => i.firstGrid grids (p - 1)

/-- The exponent of a power of ten above the magnitude: `0.30103` is `log₁₀ 2` with an error too
small to lose a whole power over the range of any format here. -/
def startingGrid (v : Floating) : Int :=
  let magnitude : Int := v.exponent + Int.ofNat (Nat.log2 v.mantissa) + 1
  magnitude * 30103 / 100000 + 1

/-- The shortest decimal that reads back as the magnitude of `v`. Twenty-four grids reach from
above the first digit to below the last digit that any format here needs. -/
def shortest (f : Format) (v : Floating) : Decimal :=
  if v.mantissa = 0 then ⟨0, 0⟩
  else (f.interval v).firstGrid 24 (startingGrid v)

end Format
end CompressedSensing
