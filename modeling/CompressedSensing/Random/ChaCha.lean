/-!
# ChaCha words

A keyed stream of 32-bit words: block number `i` is the ChaCha permutation of twelve rounds on
the constants, a key of eight words, the 64-bit number `i` and a zero nonce, added to that same
input. The key is expanded from a 64-bit seed by a permuted congruential generator.
-/

namespace CompressedSensing
namespace ChaCha

/-- The sixteen words under permutation. -/
abbrev Block := Vector UInt32 16

/-- The word `x` turned left by `r` bits, `0 < r < 32`. -/
@[inline] def rotateLeft (x r : UInt32) : UInt32 := (x <<< r) ||| (x >>> (32 - r))

/-- One quarter round on the words at four places. -/
def quarterRound (s : Block) (i j k l : Fin 16) : Block :=
  let a := s[i] + s[j]
  let d := rotateLeft (s[l] ^^^ a) 16
  let c := s[k] + d
  let b := rotateLeft (s[j] ^^^ c) 12
  let a := a + b
  let d := rotateLeft (d ^^^ a) 8
  let c := c + d
  let b := rotateLeft (b ^^^ c) 7
  (((s.set i a).set j b).set k c).set l d

/-- Four quarter rounds on the columns, then four on the diagonals. -/
def doubleRound (s : Block) : Block :=
  let s := quarterRound s 0 4 8 12
  let s := quarterRound s 1 5 9 13
  let s := quarterRound s 2 6 10 14
  let s := quarterRound s 3 7 11 15
  let s := quarterRound s 0 5 10 15
  let s := quarterRound s 1 6 11 12
  let s := quarterRound s 2 7 8 13
  quarterRound s 3 4 9 14

/-- The input of block number `counter`. -/
def input (key : Vector UInt32 8) (counter : UInt64) : Block :=
  -- the constant of the cipher, the key, the counter, and a stream number of zero
  (#v[0x61707865, 0x3320646e, 0x79622d32, 0x6b206574] : Vector UInt32 4) ++ key
    ++ (#v[counter.toUInt32, (counter >>> 32).toUInt32, 0, 0] : Vector UInt32 4)

/-- Block number `counter` of the stream: six double rounds, then the input added. -/
def block (key : Vector UInt32 8) (counter : UInt64) : Block :=
  let start := input key counter
  Vector.zipWith (· + ·) (Nat.repeat doubleRound 6 start) start

/-- One step of the seed's expansion: the next state and the word it gives. -/
def expandStep (state : UInt64) : UInt64 × UInt32 :=
  let state := state * 6364136223846793005 + 11634580027462260723
  let mixed := (((state >>> 18) ^^^ state) >>> 27).toUInt32
  -- the top five bits of the state say how far the word is turned
  let turn := (state >>> 59).toUInt32
  (state, (mixed >>> turn) ||| (mixed <<< ((32 - turn) &&& 31)))

/-- The key of a 64-bit seed. -/
def keyOfSeed (seed : UInt64) : Vector UInt32 8 :=
  (Fin.foldl 8
    (fun (acc : UInt64 × Vector UInt32 8) i =>
      let (state, word) := expandStep acc.1
      (state, acc.2.set i word))
    (seed, Vector.replicate 8 0)).2

/-- A place in the stream of a key: `block` is block number `number`, and its words from
`position` on come next. -/
structure Stream where
  key : Vector UInt32 8
  number : UInt64
  block : Block
  position : Nat

namespace Stream

/-- The start of the stream of a seed. -/
def ofSeed (seed : UInt64) : Stream :=
  let key := keyOfSeed seed
  ⟨key, 0, ChaCha.block key 0, 0⟩

/-- The next word. -/
def next (s : Stream) : UInt32 × Stream :=
  if h : s.position < 16 then (s.block[s.position], { s with position := s.position + 1 })
  else
    let fresh := ChaCha.block s.key (s.number + 1)
    (fresh[0], ⟨s.key, s.number + 1, fresh, 1⟩)

end Stream
end ChaCha
end CompressedSensing
