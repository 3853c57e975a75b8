/-!
# Merging supports

The union of two ascending index lists, by one walk along both: the smaller head goes first, and
of two equal heads only one is kept. Lists that are not ascending are walked all the same.
-/

namespace CompressedSensing
namespace Support

/-- The walk along two lists. -/
def mergeLists : List Nat → List Nat → List Nat
  | [], b => b
  | a, [] => a
  | i :: a, j :: b =>
    if i < j then i :: mergeLists a (j :: b)
    else if j < i then j :: mergeLists (i :: a) b
    else i :: mergeLists a b
termination_by a b => a.length + b.length

/-- The union of two supports. -/
def merge (a b : Array Nat) : Array Nat := (mergeLists a.toList b.toList).toArray

end Support
end CompressedSensing
