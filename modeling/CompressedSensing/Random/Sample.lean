import CompressedSensing.Random.Source
/-!
# Sampling without replacement

`k` distinct indices below `n`. A dense sample shuffles the front of the list of all indices; a
sparse one walks through the last `k` candidates and replaces a repetition by the candidate
itself. Which of the two is used is decided by their expected cost.
-/

namespace CompressedSensing
namespace Sample

/-- The bound on rejected words of one draw; a word is rejected with a chance of at most one
half. -/
def attempts : Nat := 10000

/-- The number of leading zero bits of a positive 32-bit number. -/
def leadingZeros (r : Nat) : Nat := 31 - r.log2

/-- An offset below `r`, `0 < r < 2 ^ 32`, within `fuel` words: the high half of the product of a
word and `r`, if the low half lies in the zone that treats all offsets alike. -/
def offsetBelow (r : Nat) : (fuel : Nat) → Draw Nat
  | 0 => return 0
  | fuel + 1 => do
    -- as many multiples of `r` as fit below `2 ^ 32` in a power of two, less one
    let zone := r * 2 ^ leadingZeros r - 1
    let p := (← word32).toNat * r
    if p % 2 ^ 32 ≤ zone then return p / 2 ^ 32 else offsetBelow r fuel

/-- A number from `low` to `high`, ends included. -/
def between (low high : Nat) : Draw Nat := return low + (← offsetBelow (high - low + 1) attempts)

/-- The first `k` entries of a shuffle of all indices below `n`. -/
def shuffled (n k : Nat) : Draw (Array Nat) := do
  let all ← (List.range k).foldlM
    (fun (a : Array Nat) i => return a.swapIfInBounds i (← between i (n - 1)))
    (Array.range n)
  return all.take k

/-- One index for each of the last `k` candidates `j`: a number up to `j`, or `j` itself if that
number is taken. A longer list is shuffled afterwards. -/
def replacing (n k : Nat) : Draw (Array Nat) := do
  let picked ← (List.range k).foldlM
    (fun (a : Array Nat) i => do
      let j := n - k + i
      let t ← between 0 j
      return a.push (if a.contains t then j else t))
    #[]
  if k < 50 then return picked
  else
    (List.range (k - 1)).foldlM
      (fun (a : Array Nat) d => do
        let i := k - 1 - d
        return a.swapIfInBounds i (← between 0 i))
      picked

/-- Whether the shuffle is the cheaper way. -/
def prefersShuffle (n k : Nat) : Bool :=
  if k < 163 then
    let size := (Float.ofNat k).toFloat32
    11 < k && (Float.ofNat n).toFloat32 < (10.0 + 1.6 * size) * size
  else n < 270 * k

/-- A choice of `k` distinct indices below `n`, for `k ≤ n`, in no particular order. -/
def indices (n k : Nat) : Draw (Array Nat) :=
  if prefersShuffle n k then shuffled n k else replacing n k

end Sample
end CompressedSensing
