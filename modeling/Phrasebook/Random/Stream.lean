import Phrasebook.Random.ChaCha

/-!
Streams of random words.

A stream either comes from a seed, block by block, or repeats a list of words for ever.
Both are read word by word; two words make a word of 64 bits, the first one its lower half.
All that is random in this library is a function of such a stream and of how far it was
read.
-/

namespace Phrasebook

/-- An endless sequence of words; `pending` are those at hand. -/
inductive Stream where
  | seeded (key : ChaCha.Key) (counter : UInt64) (pending : List UInt32)
  | repeating (words pending : List UInt32)
  deriving DecidableEq, Repr

namespace Stream

/-- The stream of a seed. -/
def ofSeed (seed : UInt64) : Stream := seeded (ChaCha.Key.ofSeed seed) 0 []

/-- The stream that repeats a list of words; without words it is all zeros. -/
def ofWords (words : List UInt32) : Stream := repeating words words

/-- The next word and what follows it. -/
def next : Stream → UInt32 × Stream
  | seeded key counter (w :: rest) => (w, seeded key counter rest)
  | seeded key counter [] =>
    let words := (ChaCha.block key counter).words
    (words.headD 0, seeded key (counter + 1) words.tail)
  | repeating words (w :: rest) => (w, repeating words rest)
  | repeating words [] => (words.headD 0, repeating words words.tail)

end Stream

/-- What draws words from a stream. -/
abbrev Draw := StateM Stream

/-- Draws a word of 32 bits. -/
def drawWord : Draw UInt32 := Stream.next

/-- Draws a word of 64 bits. -/
def drawLongWord : Draw UInt64 := do
  let low ← drawWord
  let high ← drawWord
  return low.toUInt64 + high.toUInt64 <<< 32

end Phrasebook
