import CompressedSensing.Random.ChaCha
import CompressedSensing.Signal.Basic
/-!
# Sources of random words

A source is a value; drawing from it gives a word and the source that comes after. `Draw α` is a
computation that draws.
-/

namespace CompressedSensing

/-- Where random words come from. -/
inductive Source where
  /-- A counter scrambled by two multiplications. -/
  | splitMix (state : UInt64)
  /-- Given words in turn, over and over; `next` is the place of the next one. -/
  | cycle (words : Array UInt64) (next : Nat)
  /-- A ChaCha stream. -/
  | chacha (stream : ChaCha.Stream)

/-- A computation that draws words. -/
abbrev Draw (α : Type) := StateM Source α

namespace Source

/-- The given words in turn. -/
def ofWords (words : Array UInt64) : Source := cycle words 0

/-- The ChaCha stream of a seed. -/
def ofSeed (seed : UInt64) : Source := chacha (ChaCha.Stream.ofSeed seed)

/-- The scrambling of a counter. -/
def scramble (z : UInt64) : UInt64 :=
  let z := (z ^^^ (z >>> 30)) * 0xbf58476d1ce4e5b9
  let z := (z ^^^ (z >>> 27)) * 0x94d049bb133111eb
  z ^^^ (z >>> 31)

/-- The next 64 bits. A stream of 32-bit words gives its low half first. -/
def next64 : Source → UInt64 × Source
  | splitMix state =>
    let state := state + 0x9e3779b97f4a7c15
    (scramble state, splitMix state)
  | cycle words next =>
    (words.getD next 0, cycle words (if next + 1 < words.size then next + 1 else 0))
  | chacha s =>
    let (low, s) := s.next
    let (high, s) := s.next
    (low.toUInt64 ||| (high.toUInt64 <<< 32), chacha s)

/-- The next 32 bits: of a source of 64-bit words the low half of a fresh word. -/
def next32 : Source → UInt32 × Source
  | chacha s =>
    let (word, s) := s.next
    (word, chacha s)
  | s =>
    let (word, s) := s.next64
    (word.toUInt32, s)

end Source

/-- Draws 64 bits. -/
def word64 : Draw UInt64 := modifyGet Source.next64

/-- Draws 32 bits. -/
def word32 : Draw UInt32 := modifyGet Source.next32

/-- A fair coin: whether 64 bits fall into the lower half of their range. -/
def coin : Draw Bool := return (← word64) < 0x8000000000000000

end CompressedSensing
