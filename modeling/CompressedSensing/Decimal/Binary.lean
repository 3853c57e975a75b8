/-!
# Binary numbers, exactly

A machine number is a sign, a natural mantissa and a power of two. `Format.decode` reads the
bits of a format as such a number; everything about decimal text is then exact arithmetic on
natural numbers.
-/

namespace CompressedSensing

/-- The number `(-1) ^ negative · mantissa · 2 ^ exponent`. -/
structure Floating where
  negative : Bool
  mantissa : Nat
  exponent : Int
deriving DecidableEq, Repr

/-- What the bits of a binary format stand for. -/
inductive Binary where
  | nan
  | infinite (negative : Bool)
  | finite (value : Floating)
deriving DecidableEq, Repr

/-- The layout of a binary format: sign, then exponent, then fraction. -/
structure Format where
  exponentBits : Nat
  fractionBits : Nat
deriving DecidableEq, Repr

namespace Format

/-- Double precision. -/
def double : Format := ⟨11, 52⟩

/-- Single precision. -/
def single : Format := ⟨8, 23⟩

/-- The exponent of the last bit of the least numbers. -/
def minExponent (f : Format) : Int := 2 - Nat.pow 2 (f.exponentBits - 1) - f.fractionBits

/-- The number that a pattern of bits stands for. -/
def decode (f : Format) (bits : Nat) : Binary :=
  let negative := bits.testBit (f.exponentBits + f.fractionBits)
  let biased := bits / Nat.pow 2 f.fractionBits % Nat.pow 2 f.exponentBits
  let fraction := bits % Nat.pow 2 f.fractionBits
  -- the greatest exponent marks what is no finite number, the least one a missing leading bit
  if biased = Nat.pow 2 f.exponentBits - 1 then
    if fraction = 0 then .infinite negative else .nan
  else if biased = 0 then .finite ⟨negative, fraction, f.minExponent⟩
  else
    .finite ⟨negative, Nat.pow 2 f.fractionBits + fraction, f.minExponent + (biased - 1 : Nat)⟩

end Format

namespace Floating

/-- The magnitude times `scale`, as a quotient of natural numbers. -/
def quotient (v : Floating) (scale : Nat) : Nat × Nat :=
  if 0 ≤ v.exponent then (v.mantissa * scale * Nat.pow 2 v.exponent.toNat, 1)
  else (v.mantissa * scale, Nat.pow 2 (-v.exponent).toNat)

end Floating
end CompressedSensing
