/-!
The block function of ChaCha with eight rounds.

A block is four rows of four words.  A round adds, mixes and rotates the rows as wholes,
which treats the four columns at once; turning the rows against each other brings the
diagonals into the columns, and so every second round treats the diagonals.  The first row
is constant, two rows are the key, and the last begins with the number of the block.
-/

namespace Phrasebook.ChaCha

/-- Four words side by side. -/
structure Row where
  a : UInt32
  b : UInt32
  c : UInt32
  d : UInt32
  deriving DecidableEq, Repr

namespace Row

/-- Combines two rows column by column. -/
def zip (f : UInt32 → UInt32 → UInt32) (x y : Row) : Row :=
  ⟨f x.a y.a, f x.b y.b, f x.c y.c, f x.d y.d⟩

/-- The sum of two rows. -/
def add (x y : Row) : Row := zip (· + ·) x y

/-- Mixes `y` into `x` and rotates each word to the left. -/
def mix (x y : Row) (bits : UInt32) : Row :=
  let rotate (w : UInt32) : UInt32 := w <<< bits ||| w >>> (32 - bits)
  let z := zip (· ^^^ ·) x y
  ⟨rotate z.a, rotate z.b, rotate z.c, rotate z.d⟩

/-- The row one place to the left. -/
def turn (x : Row) : Row := ⟨x.b, x.c, x.d, x.a⟩

/-- The words from left to right. -/
def words (x : Row) : List UInt32 := [x.a, x.b, x.c, x.d]

end Row

/-- Sixteen words as four rows. -/
structure Block where
  r₀ : Row
  r₁ : Row
  r₂ : Row
  r₃ : Row
  deriving DecidableEq, Repr

namespace Block

/-- One round on the columns. -/
def columns (x : Block) : Block :=
  let r₀ := x.r₀.add x.r₁
  let r₃ := x.r₃.mix r₀ 16
  let r₂ := x.r₂.add r₃
  let r₁ := x.r₁.mix r₂ 12
  let r₀ := r₀.add r₁
  let r₃ := r₃.mix r₀ 8
  let r₂ := r₂.add r₃
  let r₁ := r₁.mix r₂ 7
  ⟨r₀, r₁, r₂, r₃⟩

/-- One round on the diagonals. -/
def diagonals (x : Block) : Block :=
  let y := columns ⟨x.r₀, x.r₁.turn, x.r₂.turn.turn, x.r₃.turn.turn.turn⟩
  ⟨y.r₀, y.r₁.turn.turn.turn, y.r₂.turn.turn, y.r₃.turn⟩

/-- Two rounds: the columns, then the diagonals. -/
def doubleRound (x : Block) : Block := x.columns.diagonals

/-- The sum of two blocks. -/
def add (x y : Block) : Block :=
  ⟨x.r₀.add y.r₀, x.r₁.add y.r₁, x.r₂.add y.r₂, x.r₃.add y.r₃⟩

/-- The words row by row. -/
def words (x : Block) : List UInt32 :=
  x.r₀.words ++ x.r₁.words ++ x.r₂.words ++ x.r₃.words

end Block

/-- Eight words. -/
structure Key where
  low : Row
  high : Row
  deriving DecidableEq, Repr

/-- The block that the rounds begin with. -/
def initial (key : Key) (counter : UInt64) : Block where
  r₀ := ⟨0x61707865, 0x3320646e, 0x79622d32, 0x6b206574⟩
  r₁ := key.low
  r₂ := key.high
  r₃ := ⟨counter.toUInt32, (counter >>> 32).toUInt32, 0, 0⟩

/-- The block with a number. -/
def block (key : Key) (counter : UInt64) : Block :=
  let start := initial key counter
  start.add start.doubleRound.doubleRound.doubleRound.doubleRound

/-- The state behind `s` of the generator that spreads a seed over a key. -/
def nextSeed (s : UInt64) : UInt64 := s * 6364136223846793005 + 11634580027462260723

/-- The word that a state of that generator yields. -/
def seedWord (s : UInt64) : UInt32 :=
  let x := (((s >>> 18) ^^^ s) >>> 27).toUInt32
  let bits := (s >>> 59).toUInt32
  x >>> bits ||| x <<< ((32 - bits) % 32)

/-- The key of a seed: the words of the eight states behind it. -/
def Key.ofSeed (seed : UInt64) : Key :=
  let s₁ := nextSeed seed
  let s₂ := nextSeed s₁
  let s₃ := nextSeed s₂
  let s₄ := nextSeed s₃
  let s₅ := nextSeed s₄
  let s₆ := nextSeed s₅
  let s₇ := nextSeed s₆
  let s₈ := nextSeed s₇
  ⟨⟨seedWord s₁, seedWord s₂, seedWord s₃, seedWord s₄⟩,
    ⟨seedWord s₅, seedWord s₆, seedWord s₇, seedWord s₈⟩⟩

end Phrasebook.ChaCha
