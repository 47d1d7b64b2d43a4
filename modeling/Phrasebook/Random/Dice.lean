import Phrasebook.Binary64.Basic
import Phrasebook.Random.Stream

/-!
Random decisions: a chance, a choice by weight, an order.

Each decision draws a fixed pattern of words, because whoever draws next begins where the
decision ended.  A chance of one draws nothing.  A choice by weight draws one long word even
if there is one candidate only.  A shuffle of one thing draws nothing, and one of many things
draws one number for several of its steps, as long as the steps' ranges fit a word together.
-/

namespace Phrasebook

/-- Why no rule can be chosen. -/
inductive ChoiceError where
  | negativeWeight
  | noWeights
  | allZero
  /-- The weights add up to more than the largest finite number. -/
  | overflow
  deriving DecidableEq, Repr

namespace ChoiceError

/-- The error in words. -/
def message : ChoiceError → String
  | negativeWeight => "A weight is negative, too large or not a valid number"
  | noWeights => "Weights sequence is empty/too long/unordered"
  | allZero => "Not enough weights > zero"
  | overflow => "The weights add up to more than any number"

end ChoiceError

namespace Dice

/-- A decision that comes true with probability `p`, taken as zero or one outside of that
range: the long word drawn lies below `p` times the number of long words. -/
def chance (p : Binary64) : Draw Bool :=
  let units := p.units?.getD 0
  if unitsOfOne ≤ units then return true
  else do
    let word ← drawLongWord
    return word.toNat < units.toNat * 2 ^ (64 : Nat) / unitsOfOne

/-- The sums of the first one, two, … weights without the last sum, and the last sum; each is
rounded.  Nothing if a sum is out of range. -/
def sums? (sum : Magnitude) : List Magnitude → Option (List Magnitude × Magnitude)
  | [] => some ([], sum)
  | w :: rest => do
    let (partialSums, total) ← sums? (← sum.add? w) rest
    return (sum :: partialSums, total)

/-- How many steps the unit interval has for a choice. -/
def steps : Nat := 2 ^ (52 : Nat)

/-- The place, in units, of a step on a scale, rounded.  On a scale of few units the place
of a late step may be the end of the scale, where the last index is chosen, even one whose
weight is zero. -/
def place (scale step : Nat) : Nat := roundShort (step * scale) steps

/-- Chooses by partial sums and the total: the index of the first sum above the place drawn. -/
def chooseBySums (partialSums : List Magnitude) (total : Magnitude) : Draw Nat := do
  let word ← drawLongWord
  let chosen := place total.units (word.toNat / 2 ^ (12 : Nat))
  return (partialSums.takeWhile fun s => s.units ≤ chosen).length

/-- The sums that a choice among weights needs. -/
def sumsOf (weights : List Binary64) : Except ChoiceError (List Magnitude × Magnitude) :=
  if weights.any fun w => !Binary64.zero.le w then .error .negativeWeight
  else if weights.isEmpty then .error .noWeights
  else
    match weights.mapM Binary64.magnitude? with
    | some (w :: rest) =>
      match sums? w rest with
      | some (partialSums, total) =>
        if total.units = 0 then .error .allZero else .ok (partialSums, total)
      | none => .error .overflow
    | _ => .error .overflow

/-- Chooses an index, each with a probability in proportion to its weight.  A list that
nothing can be chosen from draws nothing. -/
def weighted (weights : List Binary64) : Draw (Except ChoiceError Nat) :=
  match sumsOf weights with
  | .error e => return .error e
  | .ok (partialSums, total) => return .ok (← chooseBySums partialSums total)

/-- Draws a number below a bound, itself below `2 ^ 32`: the upper half of a word times the
bound.  A lower half that may owe it a carry draws a second word, which settles the carry. -/
def below (bound : Nat) : Draw Nat := do
  let product := (← drawWord).toNat * bound
  let high := product / 2 ^ (32 : Nat)
  let low := product % 2 ^ (32 : Nat)
  if 2 ^ (32 : Nat) - bound < low then
    let carry := low + (← drawWord).toNat * bound / 2 ^ (32 : Nat)
    return if 2 ^ (32 : Nat) ≤ carry then high + 1 else high
  else return high

/-- The longest product `n * (n + 1) * …` below `2 ^ 32`, and the number of its factors, when
`product` has `factors` of them already; `room` more are looked at. -/
def longestProduct (product factors next : Nat) : Nat → Nat × Nat
  | 0 => (product, factors)
  | room + 1 =>
    if product * next < 2 ^ (32 : Nat) then
      longestProduct (product * next) (factors + 1) (next + 1) room
    else (product, factors)

/-- What is left of a number drawn for several steps of a shuffle. -/
structure Chunk where
  rest : Nat
  stepsLeft : Nat

/-- The place below `n` that step `n` of a shuffle swaps with. -/
def shuffleIndex (chunk : Chunk) (n : Nat) : Draw (Nat × Chunk) := do
  let chunk ←
    if chunk.stepsLeft = 0 then
      let (bound, factors) := longestProduct n 1 (n + 1) 32
      pure ⟨← below bound, factors⟩
    else pure chunk
  if chunk.stepsLeft = 1 then return (chunk.rest, ⟨chunk.rest, 0⟩)
  else return (chunk.rest % n, ⟨chunk.rest / n, chunk.stepsLeft - 1⟩)

/-- The last `left` steps of a shuffle: each swaps its place with an earlier one or itself. -/
def shuffleFrom {α : Type} (chunk : Chunk) (xs : Array α) : Nat → Draw (Array α)
  | 0 => return xs
  | left + 1 => do
    let i := xs.size - (left + 1)
    let (j, chunk) ← shuffleIndex chunk (i + 1)
    shuffleFrom chunk (xs.swapIfInBounds i j) left

/-- The items in a random order. -/
def shuffle {α : Type} (xs : List α) : Draw (List α) :=
  if xs.length ≤ 1 then return xs
  else return (← shuffleFrom ⟨0, 1⟩ xs.toArray xs.length).toList

end Dice

end Phrasebook
