import CompressedSensing.Decimal.Binary
/-!
# Correctly rounded decimals

A binary number to a given number of significant digits or of decimal places, rounded from its
exact value, a tie going to the even neighbour.
-/

namespace CompressedSensing

/-- The natural number nearest to `n / d`, the even one of two. -/
def roundQuotient (n d : Nat) : Nat :=
  let q := n / d
  let r := n % d
  if 2 * r < d then q else if d < 2 * r then q + 1 else q + q % 2

namespace Floating

/-- The magnitude times `10 ^ (-p)`, rounded. -/
def roundAt (v : Floating) (p : Int) : Nat :=
  let (n, d) := v.quotient (if p < 0 then Nat.pow 10 (-p).toNat else 1)
  roundQuotient n (if p < 0 then d else d * Nat.pow 10 p.toNat)

/-- The exponent of the leading decimal digit of a nonzero magnitude: the greatest `e` with
`10 ^ e ≤ |v|`, searched downwards from an estimate that is never too small. -/
def leadingExponent (v : Floating) : Int :=
  let magnitude : Int := v.exponent + Int.ofNat (Nat.log2 v.mantissa) + 1
  let start : Int := magnitude * 30103 / 100000 + 1
  let (n, d) := v.quotient 1
  let reached (e : Int) : Bool :=
    if 0 ≤ e then d * Nat.pow 10 e.toNat ≤ n else d ≤ n * Nat.pow 10 (-e).toNat
  ((List.range 4).map (fun i : Nat => start - i)).find? reached |>.getD (start - 4)

/-- The magnitude to `n` significant digits: digits and the exponent of the first one. Rounding
up to a power of ten moves that exponent. -/
def significant (v : Floating) (n : Nat) : Nat × Int :=
  if v.mantissa = 0 then (0, 0)
  else
    let e := v.leadingExponent
    let digits := v.roundAt (e - n + 1)
    if digits = Nat.pow 10 n then (Nat.pow 10 (n - 1), e + 1) else (digits, e)

/-- The magnitude in units of `10 ^ (-places)`. -/
def fixed (v : Floating) (places : Nat) : Nat := v.roundAt (-(places : Int))

end Floating
end CompressedSensing
