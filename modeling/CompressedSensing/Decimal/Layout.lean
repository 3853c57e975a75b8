import CompressedSensing.Decimal.Shortest
/-!
# Decimal text

Two ways of writing the shortest decimal of a number.

* `Binary.plainText` never uses an exponent and gives an integer no point: `0.000001`, `-1`.
* `Binary.pointedText` marks every number as fractional: a point with at least one digit behind
  it from `10 ^ (-4)` up to below `10 ^ 16`, an exponent elsewhere: `1.0`, `1e-6`, `1.5e16`.

Both write `NaN`, `inf`, `-inf`, and keep the sign of zero.
-/

namespace CompressedSensing
namespace Decimal

/-- The decimal digits. -/
def digitText (d : Decimal) : List Char := (Nat.repr d.digits).toList

/-- The exponent of the leading digit. -/
def leadingExponent (d : Decimal) : Int := d.exponent + d.digitText.length - 1

/-- Digits in their places, zeros filling the gap to the point; an integer has no point. -/
def positional (d : Decimal) : List Char :=
  let digits := d.digitText
  if 0 ≤ d.exponent then digits ++ List.replicate d.exponent.toNat '0'
  else
    let places := (-d.exponent).toNat
    -- the point is among the digits, or in front of all of them
    if places < digits.length then
      let whole := digits.length - places
      digits.take whole ++ '.' :: digits.drop whole
    else '0' :: '.' :: List.replicate (places - digits.length) '0' ++ digits

/-- One digit before the point, the others behind it, then the exponent. -/
def scientific (d : Decimal) : List Char :=
  let fraction := match d.digitText with
    | first :: [] => [first]
    | first :: rest => first :: '.' :: rest
    | [] => []
  fraction ++ 'e' :: (toString d.leadingExponent).toList

/-- Zero and magnitudes from `10 ^ (-4)` to below `10 ^ 16` are positional and get a point. -/
def pointed (d : Decimal) : List Char :=
  if d.digits = 0 then ['0', '.', '0']
  else if -4 ≤ d.leadingExponent ∧ d.leadingExponent < 16 then
    if 0 ≤ d.exponent then d.positional ++ ['.', '0'] else d.positional
  else d.scientific

end Decimal

namespace Binary

/-- A number written by `layout`, which sees its shortest decimal. -/
def textBy (layout : Decimal → List Char) (f : Format) : Binary → String
  | nan => "NaN"
  | infinite negative => if negative then "-inf" else "inf"
  | finite v =>
    let text := String.ofList (layout (f.shortest v))
    if v.negative then "-" ++ text else text

/-- Never with an exponent. -/
def plainText (b : Binary) (f : Format) : String := textBy Decimal.positional f b

/-- Always with a point or an exponent. -/
def pointedText (b : Binary) (f : Format) : String := textBy Decimal.pointed f b

end Binary
end CompressedSensing
