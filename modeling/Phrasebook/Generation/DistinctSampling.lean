import Phrasebook.Generation.Item

/-!
Several different sentences of an item, at random.

As many are wanted as are there, at most.  If that is a large share of all sentences, they
are listed and shuffled.  Otherwise sentences are drawn, and those seen before are drawn
again, but not for ever: after a number of draws in vain that shrinks as fewer unseen
sentences are left, the remaining ones are listed and shuffled as well.

A capped count says nothing about how many sentences there are.  It then neither bounds what
is wanted nor is a share of it taken.
-/

namespace Phrasebook

/-- What changes while sentences are made: the counts, and how far the stream is read. -/
structure Progress where
  counts : Counts
  stream : Stream

/-- What makes sentences at random and may learn counts. -/
abbrev Generating := ExceptT GenerationError (StateM Progress)

namespace Generating

variable {α : Type}

/-- Counts, and leaves the stream alone. -/
def ofCounting (m : Counting α) : Generating α := ExceptT.mk fun s =>
  let (result, counts) := m.run s.counts
  (result, { s with counts := counts })

/-- Draws, and leaves the counts alone. -/
def ofSampling (m : Sampling α) : Generating α := ExceptT.mk fun s =>
  let (result, stream) := m.run s.stream
  (result, { s with stream := stream })

end Generating

/-- Examples that count as different sentences, and whether drawing them had to be given up. -/
structure Batch where
  examples : List Example
  fallback : Bool

namespace Item

/-- How many draws in vain there may be when `found` of at most `bound` sentences are known:
of the greatest number allowed the share that is left, computed in binary64, and never
none. -/
def retryBudget (maxRetries found bound : Nat) : Nat :=
  let share := roundShort (roundShort found 1 * unitsOfOne) (roundShort (max bound 1) 1)
  let rest := roundShort (unitsOfOne - share) 1
  let budget := roundShort (maxRetries * rest) 1
  max 1 ((budget + unitsOfOne - 1) / unitsOfOne)

/-- Draws until a sentence is unseen, as often as the budget allows. -/
def drawUnseen (g : Graph) (item : Item) (seen : Seen) : Nat → Sampling (Option Example)
  | 0 => return none
  | budget + 1 => do
    let e ← item.sample g
    if seen.contains e.key then drawUnseen g item seen budget else return some e

/-- Draws `missing` sentences; what was found is kept, last first, and returned with the
sentences seen and the number of those that could not be drawn. -/
def drawBatch (g : Graph) (item : Item) (budget : Nat → Nat) (seen : Seen)
    (found : List Example) : Nat → Sampling (List Example × Seen × Nat)
  | 0 => return (found, seen, 0)
  | missing + 1 => do
    match ← drawUnseen g item seen (budget found.length) with
    | some e => drawBatch g item budget (seen.insert e.key) (e :: found) missing
    | none => return (found, seen, missing + 1)

/-- Lists the unseen sentences and takes `missing` of them in a random order. -/
def enumerateUnseen (g : Graph) (item : Item) (seen : Seen) (missing : Nat) :
    Generating (List Example) := do
  let examples ← Generating.ofCounting (item.all g)
  let unseen := examples.filter fun e => !seen.contains e.key
  let shuffled ← Generating.ofSampling (liftM (Dice.shuffle unseen))
  return shuffled.take missing

/-- Whether `target` of `available` sentences are enough to list them all. -/
def coversShare (o : Options) (target available : Nat) : Bool :=
  (o.enumerationRatio.mul (.ofNat available)).le (.ofNat target)

/-- As many as `n` different sentences at random, none of which was seen. -/
def distinctUnseen (g : Graph) (o : Options) (item : Item) (n : Nat) (seen : Seen) :
    Generating Batch := do
  let excluded := seen.size
  let bound ← Generating.ofCounting (item.count g o.possibilityCap)
  let capped := bound.isCapped o.possibilityCap
  let available := bound.value - excluded
  let target := if capped then n else min n available
  if target = 0 then return ⟨[], false⟩
  else if !capped && coversShare o target available then
    return ⟨← enumerateUnseen g item seen target, false⟩
  else
    let budget (found : Nat) : Nat :=
      if capped then o.maxRetries else retryBudget o.maxRetries (found + excluded) bound.value
    let (found, seen, missing) ←
      Generating.ofSampling (drawBatch g item budget seen [] target)
    if missing = 0 then return ⟨found.reverse, false⟩
    else return ⟨found.reverse ++ (← enumerateUnseen g item seen missing), true⟩

/-- As many as `n` different sentences at random. -/
def someDistinct (g : Graph) (o : Options) (item : Item) (n : Nat) :
    Generating (List Example) :=
  Batch.examples <$> item.distinctUnseen g o n ∅

end Item

end Phrasebook
